import LayeredGrammar.Pattern.Lexeme
import LayeredGrammar.Production.Basic
import LayeredGrammar.Traced

/-!
# Reading patterns

A stack of open groups turns the lexemes of a pattern into a production, where `parse_pattern` has
functions that call each other (`Pattern.descend`, which reads the same). The first thing that is
wrong, from left to right, ends the reading; bare words that look like names are noted, because
they are literals and were perhaps meant as references.
-/

namespace LayeredGrammar.Pattern

/-- A bare word of a pattern that was read as a literal although it looks like a name. -/
structure BareWord where
  pattern : String
  word : String
  deriving DecidableEq, Repr

/-- The advice given on a bare word. -/
def BareWord.message (w : BareWord) : String :=
  "Pattern '" ++ w.pattern ++ "': bare word '" ++ w.word ++
    "' is read as a literal; quote it or write <" ++ w.word ++ "> for a reference."

/-- What is wrong with a pattern, in words. -/
def Fault.message (pattern : String) : Fault → String
  | .unclosedReference => "Unclosed < in pattern: " ++ pattern
  | .invalidReference content =>
    "Invalid <...> content: '" ++ content ++ "' in pattern: " ++ pattern
  | .unclosedLiteral => "Unclosed string literal in pattern: " ++ pattern
  | .missingFieldName => "Expected field name after ':' in pattern: " ++ pattern
  | .unexpected c => "Unexpected char '" ++ c.toString ++ "' in pattern: " ++ pattern
  | .unbalanced b => "Unbalanced '" ++ b.closer.toString ++ "' in pattern: " ++ pattern
  | .unclosedGroup b =>
    "Unclosed group in pattern: " ++ pattern ++ " (expected '" ++ b.closer.toString ++ "')"

/-- A production under a quantifier. -/
def Quantifier.apply : Quantifier → Production → Production
  | .optional, p => .opt p
  | .star, p => .rep p 0 false
  | .plus, p => .rep p 1 false

/-- A production in brackets. -/
def Bracket.enclose : Bracket → Production → Production
  | .round, p => p
  | .square, p => .rep p 0 false
  | .curly, p => .rep p 1 false

/-- An open group: its finished branches and the items of the present one, latest first. -/
structure Frame where
  branches : List Production := []
  items : List Production := []

/-- The items of a branch, latest first, as one production. -/
def packed : List Production → Production
  | [] => .blank
  | [p] => p
  | items => .seq items.reverse

/-- The branches of a group as one production. -/
def Frame.close (f : Frame) : Production :=
  match f.branches with
  | [] => packed f.items
  | branches => .choice (packed f.items :: branches).reverse

/-- Add an item to the present branch. -/
def Frame.push (f : Frame) (p : Production) : Frame := { f with items := p :: f.items }

/-- Begin another branch. -/
def Frame.split (f : Frame) : Frame := ⟨packed f.items :: f.branches, []⟩

/-- Change the latest item. -/
def Frame.modifyLast (f : Frame) (g : Production → Production) : Frame :=
  match f.items with
  | [] => f
  | p :: items => { f with items := g p :: items }

/-- Whether a bare word begins like a name or a number. -/
def looksLikeName (word : String) : Bool := word.toList.head?.any Text.isWordChar

/-- Read lexemes, noting bare words that look like names; `outer` holds the groups around the
present one. -/
def readLexemes (outer : List (Bracket × Frame)) (frame : Frame) :
    List Lexeme → Traced String Fault Production
  | [] =>
    match outer with
    | [] => pure frame.close
    | (b, _) :: _ => .fail (.unclosedGroup b)
  | .bar :: rest => readLexemes outer frame.split rest
  | .opening b :: rest => readLexemes ((b, frame) :: outer) {} rest
  | .closing b :: rest =>
    match outer with
    | [] => .fail (.unbalanced b)
    | (b', f) :: fs =>
      if b = b' then readLexemes fs (f.push (b.enclose frame.close)) rest
      else .fail (.unbalanced b)
  | .reference name :: rest => readLexemes outer (frame.push (.ref name)) rest
  | .literal value :: rest => readLexemes outer (frame.push (.lit value)) rest
  | .bare word :: rest => do
    if looksLikeName word then Traced.note word
    readLexemes outer (frame.push (.lit word)) rest
  | .quantifier q :: rest => readLexemes outer (frame.modifyLast q.apply) rest
  | .fieldName name :: rest => readLexemes outer (frame.modifyLast (.field name)) rest
  | .fault f :: _ => .fail f

/-- The production a pattern denotes. -/
def read (pattern : String) : Traced BareWord Fault Production :=
  (readLexemes [] {} (lex pattern.toList)).embed (⟨pattern, ·⟩) id

end LayeredGrammar.Pattern
