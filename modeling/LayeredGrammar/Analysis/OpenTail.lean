import LayeredGrammar.Analysis.Finding

/-!
# Open repetitions

Reference model of `RepetitionCheck` (`open_tail`, `rule_tail`, `scan`). A repetition at the end of
a production stays open: what follows may still belong to it. The open tail of a production
collects, for each rule that owns such a repetition, the ways in which another round can start.
References lead into the rules of the layers above the base grammar only.

Tails of rules are remembered. A rule that is being looked at contributes nothing to the tails
computed meanwhile, and these are remembered as they are.
-/

namespace LayeredGrammar

/-- For each owner, in order, the ways in which an open repetition can go on. -/
abbrev Tails := NameTable SequenceSet

namespace Tails

/-- Add the sequences of one owner. -/
def add (owner : String) (s : SequenceSet) : Tails → Tails
  | [] => [(owner, s)]
  | (o, t) :: rest =>
    if owner = o then (o, t.union s) :: rest
    else if owner < o then (owner, s) :: (o, t) :: rest
    else (o, t) :: add owner s rest

/-- The tails of both. -/
def union (a b : Tails) : Tails := b.foldl (fun acc e => add e.1 e.2 acc) a

end Tails

/-- What the tails of a grammar depend on. -/
structure TailAnalysis where
  rules : NameTable Production
  /-- The rules that references lead into. -/
  tableRules : List String
  first : FirstSets
  overlap : Overlap

namespace TailAnalysis

/-- Tails known so far and rules being looked at. -/
structure Progress where
  known : NameTable Tails := []
  active : List String := []

mutual

/-- The open tail of a production inside `owner`. -/
def openTail (a : TailAnalysis) (ruleTail : String → StateM Progress Tails) (owner : String) :
    Production → StateM Progress Tails
  | .rep p _ _ => do
    let inner ← openTail a ruleTail owner p
    pure (Tails.union [(owner, (a.first.first p).nonempty)] inner)
  | .seq items => do
    let (tails, _) ← openTailSeq a ruleTail owner items
    pure tails
  | .choice members => openTailAny a ruleTail owner members
  | .opt p => openTail a ruleTail owner p
  | .field _ p => openTail a ruleTail owner p
  | .renamed p _ => openTail a ruleTail owner p
  | .prec _ p _ _ => openTail a ruleTail owner p
  | .ref n => ruleTail n
  | .lit _ => pure []
  | .blank => pure []

/-- The open tail of items in a row, from the last one back to one that cannot be empty, and
whether all of them can be empty. -/
def openTailSeq (a : TailAnalysis) (ruleTail : String → StateM Progress Tails) (owner : String) :
    List Production → StateM Progress (Tails × Bool)
  | [] => pure ([], true)
  | p :: ps => do
    let (tails, reached) ← openTailSeq a ruleTail owner ps
    if reached then
      let more ← openTail a ruleTail owner p
      pure (Tails.union tails more, a.first.nullable p)
    else pure (tails, false)

/-- The open tails of all members. -/
def openTailAny (a : TailAnalysis) (ruleTail : String → StateM Progress Tails) (owner : String) :
    List Production → StateM Progress Tails
  | [] => pure []
  | p :: ps => do
    let tails ← openTail a ruleTail owner p
    let more ← openTailAny a ruleTail owner ps
    pure (Tails.union tails more)

end

/-- The open tail of a rule, at most `n` rules deep. -/
def ruleTailWithin (a : TailAnalysis) : Nat → String → StateM Progress Tails
  | 0, _ => pure []
  | n + 1, name => do
    if !a.tableRules.contains name then return []
    let some body := a.rules.get? name | return []
    let progress ← get
    if let some tails := progress.known.get? name then return tails
    if progress.active.contains name then return []
    set { progress with active := name :: progress.active }
    let tails ← openTail a (ruleTailWithin a n) name body
    modify fun p => ⟨p.known.set name tails, p.active.erase name⟩
    return tails

/-- The open tail of a rule. Nested lookups are of different rules, so they are at most as deep as
there are rules to look into. -/
def ruleTail (a : TailAnalysis) (name : String) : StateM Progress Tails :=
  a.ruleTailWithin (a.tableRules.length + 1) name

/-- The open tail of a production. -/
def tail (a : TailAnalysis) (p : Production) (owner : String) : StateM Progress Tails :=
  a.openTail a.ruleTail owner p

/-- The open repetitions between an item and those that follow it, one finding for each owner. -/
def openBetween (a : TailAnalysis) (place : String) (p : Production) (rest : List Production) :
    StateM Progress (List Finding) := do
  let tails ← a.tail p place
  if tails.isEmpty then return []
  let following := (a.first.first (.seq rest)).nonempty
  return tails.filterMap fun (owner, seqs) =>
    (a.overlap.sets seqs following).head?.map fun hit => ⟨.openRepetition, [owner], place, hit⟩

/-- The open repetitions between the items of a sequence. -/
def scanItems (a : TailAnalysis) (place : String) : List Production → StateM Progress (List Finding)
  | [] | [_] => pure []
  | p :: q :: rest => do
    let found ← a.openBetween place p (q :: rest)
    let more ← scanItems a place (q :: rest)
    pure (found ++ more)

/-- The open repetitions of one production of a walk: those of a sequence. -/
def scanOne (a : TailAnalysis) (place : String) : Production → StateM Progress (List Finding)
  | .seq items => a.scanItems place items
  | _ => pure []

/-- The open repetitions anywhere in a production. -/
def scan (a : TailAnalysis) (p : Production) (place : String) : StateM Progress (List Finding) := do
  let found ← p.walk.mapM (a.scanOne place)
  pure found.flatten

end TailAnalysis

end LayeredGrammar
