import LayeredGrammar.Analysis.SequenceSet
import LayeredGrammar.Names
import LayeredGrammar.Production.Basic

/-!
# First sets

Reference model of `FirstSets`. The first set of a production holds the beginnings, cut to the
lookahead, of what it derives. For the rules of a grammar the sets depend on each other; they are
found by sweeping over the rules, starting from empty sets, until a sweep changes nothing. Sets
only grow and there are finitely many sequences to hold, which bounds the number of sweeps.
-/

namespace LayeredGrammar

/-- The label of a literal. -/
def litTerminal (value : String) : Terminal := "'" ++ value ++ "'"

/-- First sets of the rules of a grammar whose tokens are known. -/
structure FirstSets where
  tokens : List String
  table : NameTable SequenceSet
  deriving DecidableEq

namespace FirstSets

mutual

/-- The first set of a production; a name that is neither token nor rule derives nothing. -/
def first (f : FirstSets) : Production → SequenceSet
  | .lit v => .singleton [litTerminal v]
  | .ref n => if f.tokens.contains n then .singleton [n] else (f.table.get? n).getD .empty
  | .seq items => firstSeq f items (.singleton [])
  | .choice members => firstAny f members
  | .rep p least _ =>
    let once := first f p
    let several := once.concat (once.insert [])
    if least = 0 then several.insert [] else several
  | .opt p => (first f p).insert []
  | .blank => .singleton []
  | .field _ p => first f p
  | .renamed p _ => first f p
  | .prec _ p _ _ => first f p

/-- The first set of items in a row after the sequences already read; once all of these reach the
lookahead, the remaining items do not matter. -/
def firstSeq (f : FirstSets) : List Production → SequenceSet → SequenceSet
  | [], acc => acc
  | p :: ps, acc => if acc.allFull then acc else firstSeq f ps (acc.concat (first f p))

/-- The union of the first sets of members. -/
def firstAny (f : FirstSets) : List Production → SequenceSet
  | [] => .empty
  | p :: ps => (first f p).union (firstAny f ps)

end

/-- Whether a production can derive the empty text. -/
def nullable (f : FirstSets) (p : Production) : Bool := decide ([] ∈ f.first p)

/-- The terminals a production can start with, in order. -/
def firstTerminals (f : FirstSets) (p : Production) : List Terminal :=
  sortedNames ((f.first p).toList.filterMap List.head?)

/-- Replace the set of one rule by the first set of its body. -/
def update (f : FirstSets) (rule : String × Production) : FirstSets :=
  { f with table := f.table.set rule.1 (f.first rule.2) }

/-- Update the rules one after another. -/
def sweep (rules : NameTable Production) (f : FirstSets) : FirstSets := rules.foldl update f

/-- Sweep until nothing changes, at most `n` times. -/
def settle (rules : NameTable Production) : Nat → FirstSets → FirstSets
  | 0, f => f
  | n + 1, f =>
    let next := sweep rules f
    if next.table = f.table then f else settle rules n next

/-- More sweeps than can change anything: each change adds one of finitely many sequences to the
set of one rule. -/
def sweepBound (rules : NameTable Production) : Nat :=
  let terminals := (rules.flatMap fun r => r.2.references ++ r.2.literals).length
  rules.length * (1 + terminals + terminals * terminals) + 1

/-- The first sets of rules over given tokens. -/
def ofRules (rules : NameTable Production) (tokens : List String) : FirstSets :=
  settle rules (sweepBound rules) ⟨tokens, rules.map fun r => (r.1, .empty)⟩

end FirstSets

end LayeredGrammar
