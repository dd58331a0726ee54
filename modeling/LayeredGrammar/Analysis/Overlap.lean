import LayeredGrammar.Analysis.SequenceSet
import LayeredGrammar.Names
import LayeredGrammar.Token

/-!
# Overlapping terminals

Reference model of `Overlap`. Two terminals overlap when they can match the same text: they are the
same, or one is a literal and the other a token whose expression matches the literal as a whole.
The word token does not overlap reserved words and contextual keywords.
-/

namespace LayeredGrammar

/-- What decides whether terminals overlap. -/
structure Overlap where
  tokens : NameTable Token
  word : Option String
  reserved : List String
  contextual : List String

namespace Overlap

/-- Whether a label is that of a literal. -/
def isLiteral (t : Terminal) : Bool := t.toList.head? == some '\''

/-- The text between the quotes of a literal's label. -/
def literalValue (t : Terminal) : String := String.ofList (t.toList.drop 1).dropLast

/-- Whether a literal can be read as a token. -/
def literalIsToken (o : Overlap) (value token : String) : Bool :=
  match o.tokens.get? token with
  | none => false
  | some t =>
    t.matchesWhole value &&
      !(o.word == some token && (o.reserved.contains value || o.contextual.contains value))

/-- Whether two terminals can match the same text. -/
def terminals (o : Overlap) (a b : Terminal) : Bool :=
  if a = b then true
  else if isLiteral a = isLiteral b then false
  else if isLiteral a then o.literalIsToken (literalValue a) b
  else o.literalIsToken (literalValue b) a

/-- Whether two sequences agree as far as both go; an empty sequence agrees with none. -/
def sequences (o : Overlap) (a b : Sequence) : Bool :=
  !a.isEmpty && !b.isEmpty && (a.zip b).all fun p => o.terminals p.1 p.2

/-- The overlapping pairs of two sets, in order. -/
def sets (o : Overlap) (s t : SequenceSet) : List (Sequence × Sequence) :=
  s.toList.flatMap fun a => (t.toList.filter (o.sequences a)).map (a, ·)

end Overlap

end LayeredGrammar
