import LayeredGrammar.Conflict
import LayeredGrammar.Node.Basic
import LayeredGrammar.Production.Basic

/-!
# Matches

A match (`_Match`) is what the engine knows about a stretch of text that fits a production: where
it starts and ends, its nodes with their field names, how many error regions it holds, and two
marks on which choices between equal matches depend. `Match.rename` is the second half of `_alias`,
and `Match.finish` is `_finish`.

`Run` collects the matches of items in a row, and `best` (`_best`) resolves a choice: fewest errors
first, then the longest match, then a declared preference, then a match that starts with a literal,
then one that uses base alternatives only, then the first declared.
-/

namespace LayeredGrammar

/-- A node with the field names it will get from its parent, innermost first. -/
abbrev Item := Node × List String

/-- A stretch of text that fits a production. -/
structure Match where
  start : Nat
  stop : Nat
  items : List Item
  errors : Nat := 0
  /-- Whether the first token is a literal. -/
  lead : Bool := false
  /-- Whether an alternative from above the base layer is used. -/
  layered : Bool := false
  deriving DecidableEq, Repr

/-- A node over items; their names become its fields. -/
def Node.ofItems (kind : String) (items : List Item) (start stop : Nat) : Node :=
  { kind := kind
    start := start
    stop := stop
    children := items.map (·.1)
    fields := items.zipIdx.flatMap fun (item, i) => item.2.map (·, i) }

namespace Match

/-- Nothing, at a position. -/
def empty (pos : Nat) : Match := ⟨pos, pos, [], 0, false, false⟩

/-- Give every item further field names, outside those it has. -/
def withFields (names : List String) (m : Match) : Match :=
  { m with items := m.items.map fun (node, own) => (node, own ++ names) }

/-- A match followed by another one. -/
def join (left right : Match) : Match :=
  { start := left.start
    stop := right.stop
    items := left.items ++ right.items
    errors := left.errors + right.errors
    lead := left.lead
    layered := left.layered || right.layered }

/-- Put the items under one node. -/
def wrap (kind : String) (m : Match) : Match :=
  { m with items := [(Node.ofItems kind m.items m.start m.stop, [])] }

/-- Name what was matched: a single reference or literal takes the kind itself, anything else is put
under a node of that kind. -/
def rename (content : Production) (kind : String) (m : Match) : Match :=
  match m.items with
  | [(node, names)] =>
    if content.refName?.isSome || !node.named then
      { m with items := [({ node with kind := kind, named := true }, names)] }
    else m.wrap kind
  | _ => m.wrap kind

/-- A renamed match is its only node with another kind, or all of it under one node. -/
theorem rename_cases (content : Production) (kind : String) (m : Match) :
    (∃ node names, m.items = [(node, names)] ∧
      (content.refName?.isSome || !node.named) = true ∧
      m.rename content kind =
        { m with items := [({ node with kind := kind, named := true }, names)] }) ∨
    m.rename content kind = m.wrap kind := by
  unfold rename
  split
  · rename_i node names hitems
    split
    · rename_i hplace
      exact Or.inl ⟨node, names, hitems, hplace, rfl⟩
    · exact Or.inr rfl
  · exact Or.inr rfl

/-- Whether a rule leaves no node of its own. -/
def isHidden (rule : String) : Bool := rule.toList.head? == some '_'

/-- What a rule makes of its match: a hidden rule leaves it, a single literal becomes a leaf of the
rule, anything else is put under a node of the rule. -/
def finish (rule : String) (m : Match) : Match :=
  if isHidden rule then m
  else match m.items with
    | [(node, _)] =>
      if node.named then m.wrap rule
      else { m with items := [(Node.leaf rule node.start node.stop true, [])] }
    | _ => m.wrap rule

/-- A hidden rule leaves a match as it is; any other puts it under its node, or puts a leaf in place of
a literal. -/
theorem finish_cases (rule : String) (m : Match) :
    (isHidden rule = true ∧ m.finish rule = m) ∨
    isHidden rule = false ∧ (m.finish rule = m.wrap rule ∨
      ∃ node names, m.items = [(node, names)] ∧ node.named = false ∧
        m.finish rule = { m with items := [(Node.leaf rule node.start node.stop true, [])] }) := by
  unfold finish
  cases isHidden rule with
  | true => exact Or.inl ⟨rfl, rfl⟩
  | false =>
    refine Or.inr ⟨rfl, ?_⟩
    rw [if_neg Bool.false_ne_true]
    split
    · rename_i node names hitems
      cases hnamed : node.named with
      | true => exact Or.inl rfl
      | false => exact Or.inr ⟨node, names, hitems, hnamed, rfl⟩
    · exact Or.inl rfl

end Match

/-! ## Items in a row -/

/-- Matches in a row: where the first item starts, where the next one is looked for, and the items
so far, latest first. -/
structure Run where
  origin : Nat
  cursor : Nat
  start : Option Nat := none
  items : List Item := []
  errors : Nat := 0
  lead : Bool := false
  layered : Bool := false

namespace Run

/-- Nothing yet, at a position. -/
def begin (pos : Nat) : Run := { origin := pos, cursor := pos }

/-- Take in a match. The first one decides where the run starts and how. -/
def take (r : Run) (m : Match) : Run :=
  { r with
    cursor := m.stop
    start := some (r.start.getD m.start)
    items := m.items.reverse ++ r.items
    errors := r.errors + m.errors
    lead := if r.start.isSome then r.lead else m.lead
    layered := r.layered || m.layered }

/-- Take in the match of one item of a sequence; without nodes it does not move the run. -/
def push (r : Run) (m : Match) : Run :=
  if m.items.isEmpty then
    { r with errors := r.errors + m.errors, layered := r.layered || m.layered }
  else r.take m

/-- Take in an error region. -/
def pushError (r : Run) (start stop : Nat) (expected : List String) : Run :=
  { r with
    cursor := stop
    start := some (r.start.getD start)
    items := (Node.error start stop expected, []) :: r.items
    errors := r.errors + 1 }

/-- The match a run amounts to. -/
def toMatch (r : Run) : Match :=
  ⟨r.start.getD r.origin, r.cursor, r.items.reverse, r.errors, r.lead, r.layered⟩

end Run

/-! ## Choices -/

/-- A match of one alternative of a choice. -/
structure Candidate where
  index : Nat
  label : Option String
  found : Match
  deriving DecidableEq, Repr

namespace Candidate

/-- Whether a candidate has fewer errors than another, or as few and is longer. -/
def outdoes (a b : Candidate) : Bool :=
  a.found.errors < b.found.errors ||
    (a.found.errors == b.found.errors && b.found.stop < a.found.stop)

/-- The candidates that pass a test, or all if none does. -/
def preferring (test : Candidate → Bool) (cs : List Candidate) : List Candidate :=
  let kept := cs.filter test
  if kept.isEmpty then cs else kept

/-- The candidates that none outdoes. -/
def leaders (cs : List Candidate) : List Candidate := cs.filter fun c => !cs.any (·.outdoes c)

/-- The candidate that was declared first. -/
def earliest? : List Candidate → Option Candidate
  | [] => none
  | c :: cs => some (cs.foldl (fun a b => if b.index < a.index then b else a) c)

/-- The match that wins a choice inside `owner`. -/
def best (registry : ConflictRegistry) (owner : String) (cs : List Candidate) : Option Match :=
  let tied := leaders cs
  let favoured := match registry.preferred owner (tied.map (·.label)) with
    | some label => tied.filter (·.label == some label)
    | none => tied
  let led := preferring (·.found.lead) favoured
  let base := preferring (!·.found.layered) led
  (earliest? base).map (·.found)

@[simp] theorem best_nil (registry : ConflictRegistry) (owner : String) :
    best registry owner [] = none := by
  unfold best
  simp only
  split <;> rfl

theorem mem_of_foldl_earlier {a : Candidate} {cs : List Candidate} :
    cs.foldl (fun x y => if y.index < x.index then y else x) a ∈ a :: cs := by
  induction cs generalizing a with
  | nil => exact List.mem_cons_self
  | cons b cs ih =>
    rw [List.foldl_cons]
    split
    · exact List.mem_cons_of_mem _ ih
    · have h := ih (a := a)
      rw [List.mem_cons] at h ⊢
      rcases h with h | h
      · exact Or.inl h
      · exact Or.inr (List.mem_cons_of_mem _ h)

theorem mem_of_mem_preferring {test : Candidate → Bool} {cs : List Candidate} {x : Candidate}
    (h : x ∈ preferring test cs) : x ∈ cs := by
  unfold preferring at h
  simp only at h
  split at h
  · exact h
  · exact (List.mem_filter.1 h).1

/-- The winner of a choice is the match of one of the candidates. -/
theorem exists_of_best {registry : ConflictRegistry} {owner : String} {cs : List Candidate}
    {m : Match} (h : best registry owner cs = some m) : ∃ x ∈ cs, x.found = m := by
  unfold best at h
  obtain ⟨x, hx, rfl⟩ := Option.map_eq_some_iff.1 h
  refine ⟨x, ?_, rfl⟩
  have hmem : ∀ l : List Candidate, earliest? l = some x → x ∈ l := by
    intro l hl
    cases l with
    | nil => cases hl
    | cons a l =>
      cases hl
      exact mem_of_foldl_earlier
  have hx' := mem_of_mem_preferring (mem_of_mem_preferring (hmem _ hx))
  split at hx'
  · exact (List.mem_filter.1 (List.mem_filter.1 hx').1).1
  · exact (List.mem_filter.1 hx').1

end Candidate

end LayeredGrammar
