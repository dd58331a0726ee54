import LayeredGrammar.Proofs.Engine.Pairing

/-!
# Matches in another place

If characters are put in front of a text, what was found at a position lies further to the right
(`place`). The beginning of the text is the exception: the engine looks for the first match there
whatever the text begins with, so the beginning stays where it is, and a match that takes in text
from there starts further to the right all the same.

`Node.moved`, `Match.moved` and `Run.moved` are what becomes of nodes, matches and matches in a row.
Every way in which the engine puts matches together commutes with moving them, as long as nodes end
past the beginning of the text (`Run.Located`), up to the winner of a choice
(`Candidate.best_moved`). `Node.shift` moves nodes without that exception, and it comes to the same
for nodes that end past the beginning (`Node.moved_eq_shift`).
-/

namespace LayeredGrammar

/-! ## Positions -/

/-- Where a position lies after `d` characters are put in front of the text. -/
def place (d pos : Nat) : Nat := if pos = 0 then 0 else pos + d

/-- Where something starts that ends at a position, after `d` characters are put in front. -/
def placeStart (d start stop : Nat) : Nat := if stop = 0 then start else start + d

section Positions

variable {d pos a b : Nat}

@[simp] theorem place_zero : place d 0 = 0 := rfl

theorem place_of_pos (h : 0 < pos) : place d pos = pos + d := if_neg (by omega)

theorem placeStart_of_pos (h : 0 < pos) (start : Nat) : placeStart d start pos = start + d :=
  if_neg (by omega)

theorem placeStart_self (d pos : Nat) : placeStart d pos pos = place d pos := by
  unfold placeStart place
  split
  · assumption
  · rfl

theorem place_lt_place : place d a < place d b ↔ a < b := by
  unfold place
  split <;> split <;> omega

theorem place_max : max (place d a) (place d b) = place d (max a b) := by
  rcases Nat.le_total a b with h | h
  · have := mt (place_lt_place (d := d) (a := b) (b := a)).1 (by omega)
    rw [Nat.max_eq_right h, Nat.max_eq_right (by omega)]
  · have := mt (place_lt_place (d := d) (a := a) (b := b)).1 (by omega)
    rw [Nat.max_eq_left h, Nat.max_eq_left (by omega)]

end Positions

/-! ## Nodes -/

namespace Node

mutual

/-- A node and everything below it with other spans. -/
def respan (start : Nat → Nat → Nat) (stop : Nat → Nat) : Node → Node
  | ⟨k, a, b, cs, n, fs, xs⟩ => ⟨k, start a b, stop b, respanAll start stop cs, n, fs, xs⟩

/-- Several nodes with other spans. -/
def respanAll (start : Nat → Nat → Nat) (stop : Nat → Nat) : List Node → List Node
  | [] => []
  | n :: ns => respan start stop n :: respanAll start stop ns

end

/-- A node and everything below it `d` characters further to the right. -/
def shift (d : Nat) : Node → Node := respan (fun a _ => a + d) (· + d)

/-- A node and everything below it after `d` characters are put in front of the text. -/
def moved (d : Nat) : Node → Node := respan (placeStart d) (place d)

section Respan

variable {start start' : Nat → Nat → Nat} {stop stop' : Nat → Nat}

theorem respanAll_eq_map (ns : List Node) :
    respanAll start stop ns = ns.map (respan start stop) := by
  induction ns with
  | nil => rfl
  | cons n ns ih => rw [respanAll, ih, List.map_cons]

theorem respan_eq (n : Node) : respan start stop n =
    { n with
      start := start n.start n.stop
      stop := stop n.stop
      children := n.children.map (respan start stop) } := by
  obtain ⟨k, a, b, cs, named, fs, xs⟩ := n
  rw [respan, respanAll_eq_map]

mutual

theorem respan_congr : ∀ n : Node,
    (∀ m ∈ n.walk, start m.start m.stop = start' m.start m.stop ∧ stop m.stop = stop' m.stop) →
    respan start stop n = respan start' stop' n
  | ⟨k, a, b, cs, named, fs, xs⟩, h => by
    rw [walk] at h
    obtain ⟨⟨hstart, hstop⟩, hcs⟩ := List.forall_mem_cons.1 h
    rw [respan, respan, respanAll_congr cs hcs, hstart, hstop]

theorem respanAll_congr : ∀ ns : List Node,
    (∀ m ∈ walkAll ns, start m.start m.stop = start' m.start m.stop ∧ stop m.stop = stop' m.stop) →
    respanAll start stop ns = respanAll start' stop' ns
  | [], _ => rfl
  | n :: ns, h => by
    rw [walkAll] at h
    obtain ⟨hn, hns⟩ := List.forall_mem_append.1 h
    rw [respanAll, respanAll, respan_congr n hn, respanAll_congr ns hns]

end

end Respan

variable {d : Nat}

/-- Nodes that end past the beginning of the text are moved by the number of characters in front. -/
theorem moved_eq_shift {ns : List Node} (h : ∀ m ∈ walkAll ns, 0 < m.stop) :
    ns.map (moved d) = ns.map (shift d) := by
  unfold moved shift
  rw [← respanAll_eq_map, ← respanAll_eq_map]
  exact respanAll_congr ns fun m hm => ⟨placeStart_of_pos (h m hm) _, place_of_pos (h m hm)⟩

@[simp] theorem kind_moved (n : Node) : (n.moved d).kind = n.kind := by rw [moved, respan_eq]

@[simp] theorem named_moved (n : Node) : (n.moved d).named = n.named := by rw [moved, respan_eq]

@[simp] theorem fields_moved (n : Node) : (n.moved d).fields = n.fields := by rw [moved, respan_eq]

@[simp] theorem children_moved (n : Node) : (n.moved d).children = n.children.map (moved d) := by
  rw [moved, respan_eq]

theorem moved_rename (n : Node) (kind : String) :
    moved d { n with kind := kind, named := true } = { n.moved d with kind := kind, named := true } := by
  rw [moved, respan_eq, respan_eq]

theorem moved_leaf {stop : Nat} (h : 0 < stop) (kind : String) (start : Nat) (named : Bool) :
    moved d (leaf kind start stop named) = leaf kind (start + d) (stop + d) named := by
  rw [moved, respan_eq]
  simp [leaf, placeStart_of_pos h, place_of_pos h]

theorem moved_error {stop : Nat} (h : 0 < stop) (start : Nat) (expected : List String) :
    moved d (error start stop expected) = error (start + d) (stop + d) expected := by
  rw [moved, respan_eq]
  simp [error, placeStart_of_pos h, place_of_pos h]

end Node

/-! ## Items -/

/-- An item after `d` characters are put in front of the text. -/
def Item.moved (d : Nat) (x : Item) : Item := (x.1.moved d, x.2)

theorem Node.moved_ofItems {d : Nat} (kind : String) (items : List Item) (start stop : Nat) :
    (Node.ofItems kind items start stop).moved d =
      Node.ofItems kind (items.map (Item.moved d)) (placeStart d start stop) (place d stop) := by
  rw [moved, respan_eq]
  simp only [ofItems, List.map_map, List.zipIdx_map, List.flatMap_map]
  rfl

/-! ## Matches -/

namespace Match

variable {d : Nat}

/-- A match after `d` characters are put in front of the text. -/
def moved (d : Nat) (m : Match) : Match :=
  { m with
    start := placeStart d m.start m.stop
    stop := place d m.stop
    items := m.items.map (Item.moved d) }

@[simp] theorem moved_stop (m : Match) : (m.moved d).stop = place d m.stop := rfl

theorem moved_empty (pos : Nat) : (Match.empty pos).moved d = .empty (place d pos) := by
  simp [moved, empty, placeStart_self]

theorem moved_withFields (names : List String) (m : Match) :
    (m.withFields names).moved d = (m.moved d).withFields names := by
  simp only [moved, withFields, List.map_map]
  rfl

theorem moved_wrap (kind : String) (m : Match) :
    (m.wrap kind).moved d = (m.moved d).wrap kind := by
  simp only [moved, wrap, Item.moved, List.map_cons, List.map_nil, Node.moved_ofItems]

/-- A match has a single item, before and after it is moved, or neither time. -/
theorem single_or_not_moved (m : Match) :
    (∃ node names, m.items = [(node, names)] ∧ (m.moved d).items = [(node.moved d, names)]) ∨
      (∀ x, m.items ≠ [x]) ∧ ∀ x, (m.moved d).items ≠ [x] := by
  rcases hitems : m.items with _ | ⟨x, _ | ⟨y, ys⟩⟩
  · exact Or.inr ⟨nofun, by simp [moved, hitems]⟩
  · exact Or.inl ⟨x.1, x.2, rfl, by simp [moved, hitems, Item.moved]⟩
  · exact Or.inr ⟨nofun, by simp [moved, hitems]⟩

theorem moved_rename (content : Production) (kind : String) (m : Match) :
    (m.rename content kind).moved d = (m.moved d).rename content kind := by
  rcases single_or_not_moved (d := d) m with ⟨node, names, hm, hm'⟩ | ⟨hm, hm'⟩
  · unfold rename
    simp only [hm, hm', Node.named_moved]
    split
    · simp only [moved, Item.moved, List.map_cons, List.map_nil, Node.moved_rename]
    · exact moved_wrap kind m
  · rw [rename_eq_wrap hm, rename_eq_wrap hm', moved_wrap]

theorem moved_finish (rule : String) (m : Match) :
    (m.finish rule).moved d = (m.moved d).finish rule := by
  cases hhidden : isHidden rule with
  | true => simp only [finish, hhidden, if_true]
  | false =>
    rcases single_or_not_moved (d := d) m with ⟨node, names, hm, hm'⟩ | ⟨hm, hm'⟩
    · simp only [finish, hhidden, Bool.false_eq_true, if_false, hm, hm', Node.named_moved]
      split
      · exact moved_wrap rule m
      · simp only [moved, Item.moved, List.map_cons, List.map_nil]
        rw [Node.moved, Node.respan_eq, Node.respan_eq]
        rfl
    · rw [finish_eq_wrap_of_items hhidden hm, finish_eq_wrap_of_items hhidden hm', moved_wrap]

theorem moved_join {left right : Match} (hl : 0 < left.stop) (hr : 0 < right.stop) :
    (left.join right).moved d = (left.moved d).join (right.moved d) := by
  simp only [moved, join, List.map_append, placeStart_of_pos hl, placeStart_of_pos hr]

end Match

namespace Session

variable {d : Nat}

theorem moved_dress (a : Alternative) (m : Match) : (dress a m).moved d = dress a (m.moved d) := by
  unfold dress
  cases a.kind with
  | none => cases a.layered <;> rfl
  | some kind => cases a.layered <;> exact Match.moved_wrap kind _

theorem moved_extended (a : Alternative) {left right : Match} (hl : 0 < left.stop)
    (hr : 0 < right.stop) :
    (extended a left right).moved d = extended a (left.moved d) (right.moved d) := by
  unfold extended
  rw [moved_dress, ← Match.moved_withFields, Match.moved_join _ hr]
  exact hl

/-- The nodes of the start rule give way to their children wherever they are. -/
theorem rootItems_moved (start : String) (m : Match) :
    rootItems start (m.moved d) = (rootItems start m).map (Item.moved d) := by
  unfold rootItems Match.moved
  rw [List.flatMap_map, List.map_flatMap]
  congr 1
  funext x
  simp only [Item.moved, Node.kind_moved, Node.children_moved]
  split
  · rw [List.zipIdx_map, List.map_map, List.map_map]
    refine List.map_congr_left fun y _ => ?_
    simp [Item.moved, Node.fieldNamesOf]
  · rfl

end Session

/-! ## Matches in a row -/

/-- A run that stands where it began until it takes in nodes, and has then left the beginning of the
text. -/
structure Run.Located (r : Run) : Prop where
  fresh : r.start = none → r.cursor = r.origin
  underway : r.start ≠ none → 0 < r.cursor

namespace Run

variable {d : Nat} {r : Run} {m : Match}

/-- A run after `d` characters are put in front of the text. -/
def moved (d : Nat) (r : Run) : Run :=
  { r with
    origin := place d r.origin
    cursor := place d r.cursor
    start := r.start.map (placeStart d · r.cursor)
    items := r.items.map (Item.moved d) }

@[simp] theorem moved_cursor (r : Run) : (r.moved d).cursor = place d r.cursor := rfl

theorem moved_begin (pos : Nat) : (Run.begin pos).moved d = .begin (place d pos) := rfl

namespace Located

theorem begin (pos : Nat) : (Run.begin pos).Located := ⟨fun _ => rfl, fun h => absurd rfl h⟩

theorem take (hm : 0 < m.stop) : (r.take m).Located := ⟨nofun, fun _ => hm⟩

theorem push (h : r.Located) (hm : m.items ≠ [] → 0 < m.stop) : (r.push m).Located := by
  unfold Run.push
  split
  · exact ⟨h.fresh, h.underway⟩
  · rename_i hne
    exact take (hm fun hnil => hne (by rw [hnil]; rfl))

theorem pushError {stop : Nat} (hstop : 0 < stop) (start : Nat) (expected : List String) :
    (r.pushError start stop expected).Located :=
  ⟨nofun, fun _ => hstop⟩

/-- Where a run starts that takes in something which ends at a position. -/
theorem moved_start (h : r.Located) {stop : Nat} (hstop : 0 < stop) (start : Nat) :
    ((r.moved d).start.getD (start + d)) = placeStart d (r.start.getD start) stop := by
  rw [placeStart_of_pos hstop]
  cases hs : r.start with
  | none => simp [Run.moved, hs]
  | some a => simp [Run.moved, hs, placeStart_of_pos (h.underway (by rw [hs]; exact nofun))]

theorem moved_take (h : r.Located) (hm : 0 < m.stop) :
    (r.take m).moved d = (r.moved d).take (m.moved d) := by
  have hstart := h.moved_start (d := d) hm m.start
  have hlead : (r.moved d).start.isSome = r.start.isSome := by simp [Run.moved]
  unfold Run.take
  rw [hlead, show (m.moved d).start = m.start + d from placeStart_of_pos hm _, hstart]
  simp [Run.moved, Match.moved]

theorem moved_push (h : r.Located) (hm : m.items ≠ [] → 0 < m.stop) :
    (r.push m).moved d = (r.moved d).push (m.moved d) := by
  have hempty : (m.moved d).items.isEmpty = m.items.isEmpty := by simp [Match.moved]
  unfold Run.push
  rw [hempty]
  split
  · rfl
  · rename_i hne
    exact h.moved_take (hm fun hnil => hne (by rw [hnil]; rfl))

theorem moved_pushError (h : r.Located) {stop : Nat} (hstop : 0 < stop) (start : Nat)
    (expected : List String) : (r.pushError start stop expected).moved d =
      (r.moved d).pushError (start + d) (stop + d) expected := by
  unfold Run.pushError
  rw [h.moved_start hstop]
  simp [Run.moved, Item.moved, Node.moved_error hstop, place_of_pos hstop]

theorem moved_toMatch (h : r.Located) : r.toMatch.moved d = (r.moved d).toMatch := by
  have hstart : placeStart d (r.start.getD r.origin) r.cursor =
      (r.moved d).start.getD (place d r.origin) := by
    cases hs : r.start with
    | none => simp [Run.moved, hs, h.fresh hs, placeStart_self]
    | some a => simp [Run.moved, hs]
  unfold Run.toMatch
  simp only [Match.moved, hstart, List.map_reverse]
  rfl

end Located

end Run

/-! ## Choices -/

namespace Candidate

variable {d : Nat} {cs : List Candidate}

/-- A candidate after `d` characters are put in front of the text. -/
def moved (d : Nat) (c : Candidate) : Candidate := { c with found := c.found.moved d }

theorem outdoes_moved (a b : Candidate) : (a.moved d).outdoes (b.moved d) = a.outdoes b := by
  have hstop : decide (place d b.found.stop < place d a.found.stop) =
      decide (b.found.stop < a.found.stop) := decide_eq_decide.2 place_lt_place
  show (decide (a.found.errors < b.found.errors) || (a.found.errors == b.found.errors &&
    decide (place d b.found.stop < place d a.found.stop))) = _
  rw [hstop]
  rfl

theorem preferring_moved {test : Candidate → Bool} (htest : ∀ c, test (c.moved d) = test c) :
    preferring test (cs.map (moved d)) = (preferring test cs).map (moved d) := by
  have hkept : (cs.map (moved d)).filter test = (cs.filter test).map (moved d) := by
    rw [List.filter_map]
    congr 2
    funext c
    exact htest c
  unfold preferring
  simp only [hkept, List.isEmpty_map]
  split <;> rfl

theorem leaders_moved : leaders (cs.map (moved d)) = (leaders cs).map (moved d) := by
  unfold leaders
  rw [List.filter_map]
  congr 2
  funext c
  simp [List.any_map, Function.comp_def, outdoes_moved]

theorem earliest_moved : earliest? (cs.map (moved d)) = (earliest? cs).map (moved d) := by
  cases cs with
  | nil => rfl
  | cons c cs =>
    simp only [List.map_cons, earliest?, Option.map_some, Option.some.injEq]
    induction cs generalizing c with
    | nil => rfl
    | cons b cs ih =>
      rw [List.map_cons, List.foldl_cons, List.foldl_cons, ← ih]
      congr 1
      exact (apply_ite (moved d) _ _ _).symm

/-- **The same candidate wins wherever the choice is made.** -/
theorem best_moved (registry : ConflictRegistry) (owner : String) (cs : List Candidate) :
    best registry owner (cs.map (moved d)) = (best registry owner cs).map (Match.moved d) := by
  have hlabels : ((leaders cs).map (moved d)).map (·.label) = (leaders cs).map (·.label) := by
    rw [List.map_map]
    rfl
  -- what is left to do once declared conflicts have favoured some candidates
  have hrest : ∀ l : List Candidate,
      (earliest? (preferring (!·.found.layered) (preferring (·.found.lead) (l.map (moved d))))).map
        (·.found) =
      ((earliest? (preferring (!·.found.layered) (preferring (·.found.lead) l))).map
        (·.found)).map (Match.moved d) := by
    intro l
    rw [preferring_moved fun _ => rfl, preferring_moved fun _ => rfl, earliest_moved,
      Option.map_map, Option.map_map]
    rfl
  unfold best
  simp only
  rw [leaders_moved, hlabels]
  cases registry.preferred owner ((leaders cs).map (·.label)) with
  | none => exact hrest _
  | some label =>
    simp only [List.filter_map]
    exact hrest _

end Candidate

end LayeredGrammar
