import LayeredGrammar.Regex.Reader
import LayeredGrammar.Text.Quoted

/-!
# Tokens

Reference model of `token`. A token is declared by a regular expression. Word boundaries are put
around it when they are asked for or, if nothing is said, when the expression starts with an ASCII
letter or digit; they are pasted around the text of the expression, which is then read as a whole.
A token can be declared by a text that is not understood as an expression, but no grammar is built
with it.
-/

namespace LayeredGrammar

/-- A token: the final text of its expression and the expression itself, if the text is understood. -/
structure Token where
  pattern : String
  ignoreCase : Bool := false
  regex : Option Regex
  deriving DecidableEq, Repr

namespace Token

/-- A token whose expression is taken as it stands. Where cases do not matter, it has to be written in
ASCII. -/
def ofPattern (pattern : String) (ignoreCase : Bool := false) : Token :=
  ⟨pattern, ignoreCase,
    if ignoreCase && pattern.toList.any (127 < ·.toNat) then none else Regex.read? pattern⟩

/-- Whether an expression starts, blanks aside, with an ASCII letter or digit. -/
def startsLikeWord (pattern : String) : Bool :=
  (Text.trimBlank pattern.toList).head?.any Char.isAlphanum

/-- A token with word boundaries where they are asked for, or by default where its expression
starts like a word. -/
def declare (pattern : String) (boundaries : Option Bool := none) (ignoreCase : Bool := false) :
    Token :=
  if boundaries.getD (startsLikeWord pattern) then
    ofPattern ("\\b" ++ pattern ++ "\\b") ignoreCase
  else ofPattern pattern ignoreCase

/-- How the characters of a token are compared. -/
def mode (t : Token) : Regex.Mode := { ignoreCase := t.ignoreCase }

/-- Where the token that starts at a position ends, if there is one. -/
def matchAt (t : Token) (text : Array Char) (pos : Nat) : Option Nat :=
  t.regex.bind (·.matchAt t.mode text pos)

/-- Whether a whole text is one token. -/
def matchesWhole (t : Token) (s : String) : Bool :=
  t.regex.any (·.matchesWhole t.mode s.toList.toArray)

/-- The token as it is declared. -/
def display (t : Token) : String := "token(" ++ Text.quoted t.pattern ++ ")"

end Token

end LayeredGrammar
