import LayeredGrammar.Analysis.FirstSets
import LayeredGrammar.Conflict
import LayeredGrammar.Token

/-!
# Effective grammars

What a stack of layers amounts to: one body for each rule, one expression for each token, the
settings, the declared conflicts, the overrides that were applied, and the first sets of the whole.
-/

namespace LayeredGrammar

/-- A change of a rule that a layer made. -/
structure AppliedOverride where
  rule : String
  layer : String
  /-- The body before the change. -/
  previous : Production
  /-- The alternatives the change added. -/
  added : List Production
  deriving DecidableEq, Repr

/-- What is skipped between tokens: the text of an expression and what it is read as. -/
structure Extras where
  pattern : String
  regex : Regex
  reads : Regex.read? pattern = some regex
  deriving DecidableEq, Repr

namespace Extras

/-- Skipped text given by an expression, if that is understood. -/
def ofPattern? (pattern : String) : Option Extras :=
  match h : Regex.read? pattern with
  | some regex => some ⟨pattern, regex, h⟩
  | none => none

/-- The text decides what is skipped. -/
theorem ext_pattern {x y : Extras} (h : x.pattern = y.pattern) : x = y := by
  obtain ⟨pattern, regex, hreads⟩ := x
  obtain ⟨pattern', regex', hreads'⟩ := y
  cases h
  cases hreads.symm.trans hreads'
  rfl

theorem ofPattern?_eq_some {pattern : String} {x : Extras} :
    ofPattern? pattern = some x ↔ x.pattern = pattern := by
  unfold ofPattern?
  constructor
  · intro h
    split at h
    · cases h
      rfl
    · cases h
  · rintro rfl
    split
    · exact congrArg some (ext_pattern rfl)
    · rename_i hnone
      cases x.reads.symm.trans hnone

/-- The end of the skipped text that starts at a position. -/
def skip (x : Extras) (text : Array Char) (pos : Nat) : Nat :=
  (x.regex.matchAt { acrossLines := true } text pos).getD pos

end Extras

/-- A grammar ready for use. -/
structure Grammar where
  rules : NameTable Production
  tokens : NameTable Token
  start : String
  word : Option String
  extras : Extras
  reserved : List String
  contextual : List String
  recoveryStops : List String
  extensionPoints : List String
  conflicts : ConflictRegistry
  /-- The rules of the base layer. -/
  baseRules : List String
  /-- The rules whose body a layer above the base gives. -/
  tableRules : List String
  overrides : List AppliedOverride
  first : FirstSets

namespace Grammar

/-- Whether a name is that of a rule or a token. -/
def has (g : Grammar) (name : String) : Bool := g.rules.has name || g.tokens.has name

/-- The distinct literals of all rules, in order. -/
def literals (g : Grammar) : List String := sortedNames (g.rules.flatMap (·.2.literals))

end Grammar

end LayeredGrammar
