import LayeredGrammar.Text.Blank
import LayeredGrammar.Text.WordChar

/-!
# Regular expressions

Expressions over single characters, word boundaries, sequence, ordered alternatives and bounded or
unbounded repetition. `Regex.run` is the backtracking reading: alternatives are tried in the order
written, a greedy repetition prefers one more round and a lazy one prefers to stop, and the first
way to satisfy the continuation wins. A repetition never goes round again after a round that
consumed nothing, so every reading ends.
-/

namespace LayeredGrammar

/-- Classes of characters with a letter of their own. -/
inductive CharCategory where
  | word
  | digit
  | blank
  deriving DecidableEq, Repr

/-- Whether a character belongs to a category. -/
def CharCategory.has : CharCategory → Char → Bool
  | .word, c => Text.isWordChar c
  | .digit, c => Text.isDecimalDigit c
  | .blank, c => Text.isBlank c

/-- A member of a bracketed class. -/
inductive ClassItem where
  | range (lo hi : Char)
  | category (kind : CharCategory)
  | outside (kind : CharCategory)
  deriving DecidableEq, Repr

/-- Whether a class member covers a character. -/
def ClassItem.has : ClassItem → Char → Bool
  | .range lo hi, c => lo.toNat ≤ c.toNat && c.toNat ≤ hi.toNat
  | .category k, c => k.has c
  | .outside k, c => !k.has c

/-- A regular expression. -/
inductive Regex where
  /-- The empty text. -/
  | empty
  /-- One given character. -/
  | char (c : Char)
  /-- Any character; a newline only where expressions run over lines. -/
  | dot
  /-- One character inside, or with `negated` outside, the union of the items. -/
  | oneOf (negated : Bool) (items : List ClassItem)
  /-- No text, between a word character and something else. -/
  | boundary
  /-- One expression, then another. -/
  | seq (first second : Regex)
  /-- One expression, or failing that another. -/
  | alt (first second : Regex)
  /-- Any number of rounds, or at most `most` of them. -/
  | loop (body : Regex) (most : Option Nat) (greedy : Bool)
  deriving DecidableEq, Repr

namespace Regex

/-- An expression `n` times in a row, followed by another. -/
def copies (r : Regex) : Nat → Regex → Regex
  | 0, rest => rest
  | n + 1, rest => .seq r (copies r n rest)

/-- At least `least` and at most `most` rounds. -/
def between (r : Regex) (least : Nat) (most : Option Nat) (greedy : Bool) : Regex :=
  match most with
  | none => copies r least (.loop r none greedy)
  | some m =>
    if m ≤ least then copies r least .empty
    else copies r least (.loop r (some (m - least)) greedy)

/-- How characters are compared. -/
structure Mode where
  /-- Letters match in either case. -/
  ignoreCase : Bool := false
  /-- The dot matches a newline too. -/
  acrossLines : Bool := false
  deriving DecidableEq, Repr

/-- The ASCII letters that are the same letter as a character in another case. Four characters besides
ASCII have such letters: the capital i with a dot, the small one without, the long s and the Kelvin
sign. -/
def otherCases (c : Char) : List Char :=
  if c = '\u0130' ∨ c = '\u0131' then ['i', 'I']
  else if c = '\u017f' then ['s', 'S']
  else if c = '\u212a' then ['k', 'K']
  else if c.isUpper then [c.toLower]
  else if c.isLower then [c.toUpper]
  else []

/-- Whether a test holds of a character, or in a case-blind mode of the same letter in another case. -/
def Mode.test (mode : Mode) (has : Char → Bool) (c : Char) : Bool :=
  has c || (mode.ignoreCase && (otherCases c).any has)

/-- Whether the character at a position, if any, is a word character. -/
def wordAt (text : Array Char) (pos : Nat) : Bool :=
  match text[pos]? with
  | some c => Text.isWordChar c
  | none => false

/-- Whether a word character stands on exactly one side of a position. -/
def isBoundary (text : Array Char) (pos : Nat) : Bool :=
  (0 < pos && wordAt text (pos - 1)) != wordAt text pos

/-- Consume one character that passes a test. -/
def step (text : Array Char) (has : Char → Bool) (k : Nat → Option Nat) (pos : Nat) : Option Nat :=
  match text[pos]? with
  | some c => if has c then k (pos + 1) else none
  | none => none

/-- Up to `n` rounds of `body`; a round that consumed nothing is the last one. -/
def rounds (body : (Nat → Option Nat) → Nat → Option Nat) (greedy : Bool) (k : Nat → Option Nat) :
    Nat → Nat → Option Nat
  | 0, pos => k pos
  | n + 1, pos =>
    if greedy then
      body (fun q => if pos < q then rounds body greedy k n q else k q) pos <|> k pos
    else
      k pos <|> body (fun q => if pos < q then rounds body greedy k n q else k q) pos

/-- The first way to match from a position that satisfies the continuation. -/
def run (mode : Mode) (text : Array Char) : Regex → (Nat → Option Nat) → Nat → Option Nat
  | .empty, k, pos => k pos
  | .char c, k, pos => step text (mode.test (· == c)) k pos
  | .dot, k, pos => step text (fun c => mode.acrossLines || c != '\n') k pos
  | .oneOf negated items, k, pos =>
    step text (fun c => mode.test (fun d => items.any (·.has d)) c != negated) k pos
  | .boundary, k, pos => if isBoundary text pos then k pos else none
  | .seq a b, k, pos => run mode text a (run mode text b k) pos
  | .alt a b, k, pos => run mode text a k pos <|> run mode text b k pos
  | .loop body most greedy, k, pos =>
    rounds (run mode text body) greedy k (most.getD (text.size - pos + 1)) pos

/-- Where the match that starts at a position ends; a position past the end counts as the end. -/
def matchAt (mode : Mode) (r : Regex) (text : Array Char) (pos : Nat) : Option Nat :=
  run mode text r some (min pos text.size)

/-- Whether the expression can match a whole text. -/
def matchesWhole (mode : Mode) (r : Regex) (text : Array Char) : Bool :=
  (run mode text r (fun stop => if stop = text.size then some stop else none) 0).isSome

end Regex

end LayeredGrammar
