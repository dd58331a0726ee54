import LayeredGrammar.Names

/-!
# Declared conflicts

A conflict names rules that are ambiguous next to each other and may prefer one of them. The
conflicts of a grammar, in declared order, are consulted when alternatives tie, and they excuse
the ambiguities that the analysis finds.
-/

namespace LayeredGrammar

/-- Rules declared to be ambiguous, in order and without repeats. -/
structure Conflict where
  rules : List String
  prefer : Option String := none
  note : String := ""
  deriving DecidableEq, Repr

namespace Conflict

/-- A conflict between rules given in any order. -/
def between (rules : List String) (prefer : Option String := none) (note : String := "") :
    Conflict :=
  ⟨sortedNames rules, prefer, note⟩

/-- The rules in brackets and the preferred one. -/
def display (c : Conflict) : String :=
  "[" ++ ", ".intercalate c.rules ++ "]" ++
    match c.prefer with
    | none => ""
    | some p => if p.isEmpty then "" else " prefer " ++ p

end Conflict

/-- What can be wrong with a conflict. -/
inductive ConflictFault where
  | noRules
  | undefinedRules (entry : Conflict) (missing : List String)
  | foreignPreference (entry : Conflict) (prefer : String)
  deriving DecidableEq, Repr

/-- What is wrong with a conflict, in words. -/
def ConflictFault.message : ConflictFault → String
  | .noRules => "Conflict entry names no rules"
  | .undefinedRules entry missing =>
    "Conflict entry " ++ entry.display ++ " names undefined rule(s): " ++ ", ".intercalate missing
  | .foreignPreference entry prefer =>
    "Conflict entry " ++ entry.display ++ " prefers '" ++ prefer ++ "', which it does not name"

/-- The conflicts of a grammar in declared order. -/
abbrev ConflictRegistry := List Conflict

namespace ConflictRegistry

/-- What is wrong with one conflict, given the names of the rules. -/
def entryFault? (ruleNames : List String) (c : Conflict) : Option ConflictFault :=
  let missing := c.rules.filter (!ruleNames.contains ·)
  if c.rules.isEmpty then some .noRules
  else if !missing.isEmpty then some (.undefinedRules c missing)
  else match c.prefer with
    | none => none
    | some p => if c.rules.contains p then none else some (.foreignPreference c p)

/-- The first fault of a registry, given the names of the rules. -/
def fault? (r : ConflictRegistry) (ruleNames : List String) : Option ConflictFault :=
  r.findSome? (entryFault? ruleNames)

/-- Whether some conflict names one of the rules. -/
def covers (r : ConflictRegistry) (names : List String) : Bool :=
  r.any fun c => c.rules.any names.contains

/-- Whether a conflict decides a tie inside `owner` between alternatives with the given labels: it
prefers one of them, and it names the owner or another of them. -/
def decides (owner : String) (present : List String) (c : Conflict) : Option String :=
  match c.prefer with
  | none => none
  | some p =>
    if present.contains p &&
        (c.rules.contains owner || present.any fun l => l != p && c.rules.contains l) then some p
    else none

/-- The label to prefer among tied alternatives of a choice inside `owner`. -/
def preferred (r : ConflictRegistry) (owner : String) (labels : List (Option String)) :
    Option String :=
  r.findSome? (decides owner (labels.filterMap id |>.filter (!·.isEmpty)))

/-- The conflicts of a registry in parentheses. -/
def display (r : ConflictRegistry) : String :=
  "ConflictRegistry(" ++ ", ".intercalate (r.map Conflict.display) ++ ")"

end ConflictRegistry

end LayeredGrammar
