import LayeredGrammar.Analysis.FirstSets
import LayeredGrammar.Analysis.Overlap
import LayeredGrammar.Conflict

/-!
# Ambiguities found

A finding is a local ambiguity: a new alternative that starts like the body it extends, or a
repetition that stays open while what follows could start the same way. Each comes with an example
of two overlapping sequences. A finding is excused by a declared conflict that names one of its
rules.
-/

namespace LayeredGrammar

/-- The two kinds of local ambiguity. -/
inductive FindingKind where
  | overrideOverlap
  | openRepetition
  deriving DecidableEq, Repr

/-- A kind of ambiguity in words. -/
def FindingKind.name : FindingKind → String
  | .overrideOverlap => "override overlap"
  | .openRepetition => "open repetition"

/-- A local ambiguity. -/
structure Finding where
  kind : FindingKind
  /-- The rules involved, in order. -/
  rules : List String
  place : String
  sample : Sequence × Sequence
  deriving DecidableEq, Repr

namespace Finding

/-- A finding on one line. -/
def describe (f : Finding) : String :=
  f.kind.name ++ " in " ++ f.place ++ " involving [" ++ ", ".intercalate f.rules ++ "]: " ++
    " ".intercalate f.sample.1 ++ " / " ++ " ".intercalate f.sample.2

/-- The label of an alternative, or the rule it belongs to. -/
def labelOr (rule : String) (alt : Production) : String :=
  match alt.label? with
  | some l => if l.isEmpty then rule else l
  | none => rule

/-- New alternatives of a rule that start like the body they extend. The body is read with the
first sets `below`, the alternatives with those of the whole grammar. -/
def ofOverride (rule : String) (body : Production) (alternatives : List Production)
    (below whole : FirstSets) (overlap : Overlap) : List Finding :=
  let started := below.first body
  alternatives.filterMap fun alt =>
    (overlap.sets (whole.first alt) started).head?.map fun hit =>
      ⟨.overrideOverlap, sortedNames [rule, labelOr rule alt], rule, hit⟩

/-- Whether a declared conflict excuses a finding. -/
def isCovered (registry : ConflictRegistry) (f : Finding) : Bool := registry.covers f.rules

end Finding

/-- Ambiguities that no declared conflict excuses, at least one. -/
structure Ambiguity where
  first : Finding
  others : List Finding
  deriving DecidableEq, Repr

namespace Ambiguity

/-- All findings, in order. -/
def findings (a : Ambiguity) : List Finding := a.first :: a.others

/-- The rules involved, in order. -/
def rules (a : Ambiguity) : List String := sortedNames (a.findings.flatMap (·.rules))

/-- The findings, one on each line. -/
def message (a : Ambiguity) : String :=
  "Local ambiguities without a declared conflict:\n" ++
    "\n".intercalate (a.findings.map fun f => "  - " ++ f.describe)

/-- The findings that no conflict excuses, if there are any. -/
def of? (registry : ConflictRegistry) (findings : List Finding) : Option Ambiguity :=
  match findings.filter (!·.isCovered registry) with
  | [] => none
  | f :: fs => some ⟨f, fs⟩

end Ambiguity

end LayeredGrammar
