import LayeredGrammar.Proofs.Engine.Bounds
import LayeredGrammar.Proofs.Grammar.Built

/-!
# The leaves of a match

The leaves of a match are the nodes below it that stand for a piece of text: they have no children
and are not empty. Wrapping, renaming and finishing a match change its nodes but not where its
leaves lie (`Match.spans`), and the leaves of every match the engine finds lie one after another in
the text (`Session.Yields.ordered`).
-/

namespace LayeredGrammar

/-! ## Literals -/

namespace Session

variable {s : Session}

theorem take_of_hasAt {text : Array Char} {pos : Nat} {cs : List Char}
    (h : hasAt text pos cs = true) : (text.toList.drop pos).take cs.length = cs := by
  induction cs generalizing pos with
  | nil => rfl
  | cons c cs ih =>
    simp only [hasAt, Bool.and_eq_true, beq_iff_eq] at h
    obtain ⟨hlt, hc⟩ := Array.getElem?_eq_some_iff.1 h.1
    have hdrop : text.toList.drop pos = c :: text.toList.drop (pos + 1) := by
      rw [List.drop_eq_getElem_cons (by simpa using hlt), Array.getElem_toList, hc]
    rw [hdrop, List.length_cons, List.take_succ_cons, ih h.2]

/-- The literal at a position is the text there, and it is not empty. -/
theorem slice_of_literalAt (hb : s.table.Built) {pos : Nat} {l : Literal}
    (h : s.literalAt pos = some l) :
    s.slice pos (pos + l.chars.length) = l.text ∧ 0 < l.chars.length := by
  unfold literalAt at h
  split at h
  · cases h
  · have hfit := List.find?_some h
    simp only [fits, Bool.and_eq_true] at hfit
    have hmem := List.mem_of_find?_eq_some h
    rw [hb.table] at hmem
    obtain ⟨text, htext, rfl⟩ := List.mem_map.1 (mem_sortBy.1 hmem)
    constructor
    · unfold slice
      rw [Array.toList_extract, List.extract_eq_take_drop, Nat.add_sub_cancel_left,
        take_of_hasAt hfit.1]
      exact String.ofList_toList
    · refine List.length_pos_iff.2 fun hnil => hb.literals ?_
      have : text = "" := String.toList_eq_nil_iff.1 hnil
      exact this ▸ htext

end Session

/-! ## Leaves of nodes -/

namespace Node

/-- Whether a node stands for a piece of text itself. -/
def isLeaf (n : Node) : Bool := n.children.isEmpty && decide (n.start < n.stop)

/-- Where the leaves below nodes lie, in walk order. -/
def spans (nodes : List Node) : List (Nat × Nat) :=
  ((walkAll nodes).filter isLeaf).map fun n => (n.start, n.stop)

theorem walk_eq (n : Node) : n.walk = n :: walkAll n.children := by
  cases n
  rfl

theorem walkAll_append (ms ns : List Node) : walkAll (ms ++ ns) = walkAll ms ++ walkAll ns := by
  induction ms with
  | nil => rfl
  | cons n ms ih =>
    rw [List.cons_append, walkAll, ih, ← List.append_assoc]
    rfl

theorem walkAll_single (n : Node) : walkAll [n] = n :: walkAll n.children := by
  rw [walkAll, walkAll, List.append_nil, walk_eq]

theorem spans_append (ms ns : List Node) : spans (ms ++ ns) = spans ms ++ spans ns := by
  unfold spans
  rw [walkAll_append, List.filter_append, List.map_append]

theorem spans_of_childless {n : Node} (h : n.children = []) :
    spans [n] = if n.start < n.stop then [(n.start, n.stop)] else [] := by
  unfold spans
  rw [walkAll_single, h]
  by_cases hlt : n.start < n.stop
  · simp [walkAll, isLeaf, h, hlt]
  · simp [walkAll, isLeaf, h, hlt]

theorem spans_of_children {n : Node} (h : n.children ≠ []) : spans [n] = spans n.children := by
  unfold spans
  rw [walkAll_single, List.filter_cons_of_neg]
  simp [isLeaf, h]

/-- Neither the kind of a node nor its fields matter for the leaves below it. -/
theorem spans_congr {m n : Node} (hc : m.children = n.children) (hs : m.start = n.start)
    (he : m.stop = n.stop) : spans [m] = spans [n] := by
  by_cases h : n.children = []
  · rw [spans_of_childless h, spans_of_childless (hc.trans h), hs, he]
  · rw [spans_of_children h, spans_of_children (hc ▸ h), hc]

theorem spans_ofItems {kind : String} {items : List Item} {start stop : Nat}
    (h : items = [] → start = stop) :
    spans [Node.ofItems kind items start stop] = spans (items.map (·.1)) := by
  cases items with
  | nil =>
    rw [spans_of_childless rfl]
    have : ¬start < stop := by
      have := h rfl
      omega
    exact if_neg this
  | cons x items => exact spans_of_children (List.cons_ne_nil _ _)

end Node

/-! ## Leaves of matches -/

namespace Match

variable {m : Match} {pos n : Nat}

/-- The leaves below the items of a match. -/
def leaves (m : Match) : List Node := (Node.walkAll (m.items.map (·.1))).filter Node.isLeaf

/-- Where the leaves of a match lie. -/
def spans (m : Match) : List (Nat × Nat) := Node.spans (m.items.map (·.1))

theorem spans_eq_map_leaves (m : Match) : m.spans = m.leaves.map fun n => (n.start, n.stop) := rfl

@[simp] theorem spans_withFields (names : List String) (m : Match) :
    (m.withFields names).spans = m.spans := by
  unfold spans withFields
  rw [List.map_map]
  rfl

@[simp] theorem spans_join (left right : Match) :
    (left.join right).spans = left.spans ++ right.spans := by
  unfold spans join
  rw [List.map_append, Node.spans_append]

theorem Proper.spans_wrap (h : m.Proper pos n) (kind : String) :
    (m.wrap kind).spans = m.spans := by
  refine Node.spans_ofItems fun hnil => ?_
  have := h.of_nil hnil
  omega

theorem Proper.spans_rename (h : m.Proper pos n) (content : Production) (kind : String) :
    (m.rename content kind).spans = m.spans := by
  obtain ⟨node, names, hitems, _, heq⟩ | heq := rename_cases content kind m <;> rw [heq]
  · unfold spans
    rw [hitems]
    exact Node.spans_congr rfl rfl rfl
  · exact h.spans_wrap kind

theorem Proper.spans_finish (h : m.Proper pos n) (rule : String) :
    (m.finish rule).spans = m.spans := by
  obtain ⟨_, heq⟩ | ⟨_, heq | ⟨node, names, hitems, hnamed, heq⟩⟩ := finish_cases rule m <;> rw [heq]
  · exact h.spans_wrap rule
  · have hchildren : node.children = [] :=
      h.literal (node, names) (by rw [hitems]; exact List.mem_cons_self) hnamed
    unfold spans
    rw [hitems]
    exact Node.spans_congr hchildren.symm rfl rfl

theorem Proper.spans_dress (h : m.Proper pos n) (a : Alternative) :
    (Session.dress a m).spans = m.spans := by
  obtain ⟨layered, ⟨_, heq⟩ | ⟨kind, _, heq⟩⟩ := Session.dress_cases a m <;> rw [heq]
  · rfl
  · have hmarked : { m with layered := layered }.Proper pos n :=
      ⟨h.le_start, h.start_le, h.stop_le, h.of_nil, h.literal⟩
    exact hmarked.spans_wrap kind

/-- The leaves of a match that has grown are those it had and the new ones. -/
theorem Proper.spans_extended {left right : Match} (hl : left.Proper pos n)
    (hr : right.Proper left.stop n) (hlt : left.stop < right.stop) (a : Alternative) :
    (Session.extended a left right).spans = left.spans ++ right.spans := by
  unfold Session.extended
  rw [((hl.withFields a.leadFields).join hr hlt).spans_dress, spans_join, spans_withFields]

end Match

/-! ## Order -/

/-- Stretches of text one after another, from one position to another. -/
def InOrder : Nat → List (Nat × Nat) → Nat → Prop
  | lo, [], hi => lo ≤ hi
  | lo, (a, b) :: rest, hi => lo ≤ a ∧ a ≤ b ∧ InOrder b rest hi

namespace InOrder

variable {lo mid hi : Nat} {xs ys : List (Nat × Nat)}

theorem append (hx : InOrder lo xs mid) (hy : InOrder mid ys hi) : InOrder lo (xs ++ ys) hi := by
  induction xs generalizing lo with
  | nil =>
    cases ys with
    | nil => exact Nat.le_trans hx hy
    | cons y ys => exact ⟨Nat.le_trans hx hy.1, hy.2⟩
  | cons x xs ih => exact ⟨hx.1, hx.2.1, ih hx.2.2⟩

/-- Stretches that lie one after another do not overlap. -/
theorem pairwise (h : InOrder lo xs hi) :
    xs.Pairwise (fun x y => x.2 ≤ y.1) ∧ ∀ x ∈ xs, lo ≤ x.1 := by
  induction xs generalizing lo with
  | nil => exact ⟨.nil, nofun⟩
  | cons x xs ih =>
    obtain ⟨hpair, hle⟩ := ih h.2.2
    refine ⟨List.pairwise_cons.2 ⟨hle, hpair⟩, ?_⟩
    intro y hy
    rcases List.mem_cons.1 hy with rfl | hy
    · exact h.1
    · have h1 := h.1
      have h2 := h.2.1
      have h3 := hle y hy
      omega

theorem of_childless {n : Node} (hc : n.children = []) (h : lo ≤ n.start) (h' : n.start ≤ n.stop) :
    InOrder lo (Node.spans [n]) n.stop := by
  rw [Node.spans_of_childless hc]
  split
  · exact ⟨h, h', Nat.le_refl _⟩
  · exact Nat.le_trans h h'

end InOrder

namespace Run

/-- The matches of a run, taken together, are in order. -/
def Ordered (r : Run) : Prop := InOrder r.origin (Node.spans (r.items.reverse.map (·.1))) r.cursor

variable {r : Run} {m : Match}

theorem ordered_begin (pos : Nat) : (Run.begin pos).Ordered := Nat.le_refl pos

theorem Ordered.take (hr : r.Ordered) (hm : InOrder r.cursor m.spans m.stop) :
    (r.take m).Ordered := by
  unfold Ordered Run.take
  rw [List.reverse_append, List.reverse_reverse, List.map_append, Node.spans_append]
  exact hr.append hm

theorem Ordered.push (hr : r.Ordered) (hm : InOrder r.cursor m.spans m.stop) :
    (r.push m).Ordered := by
  unfold Run.push
  split
  · exact hr
  · exact hr.take hm

theorem Ordered.pushError (hr : r.Ordered) {a b : Nat} (ha : r.cursor ≤ a) (hab : a ≤ b)
    (expected : List String) : (r.pushError a b expected).Ordered := by
  unfold Ordered Run.pushError
  rw [List.reverse_cons, List.map_append, Node.spans_append]
  refine hr.append ?_
  show InOrder r.cursor (Node.spans [Node.error a b expected]) b
  exact InOrder.of_childless rfl ha hab

end Run

namespace Session

variable {s : Session}

/-- What order means for each kind of task. -/
def Task.Ordered (n : Nat) : Task → Match → Prop
  | .production _ pos, m => InOrder pos m.spans m.stop
  | .items _ run, m => run.Ordered → InOrder run.origin m.spans m.stop
  | .rounds _ _ _ _ run, m => run.Ordered → InOrder run.origin m.spans m.stop
  | .element _ _ _ pos, m => InOrder pos m.spans m.stop
  | .elements _ _ _ run, m => run.Ordered → InOrder run.origin m.spans m.stop
  | .growth _ _ left, m => ∀ pos, left.Proper pos n → InOrder pos left.spans left.stop →
      InOrder pos m.spans m.stop
  | .rule key, m => InOrder key.pos m.spans m.stop

/-- **The leaves of a match are in order.** -/
theorem Yields.ordered {t : Task} {m : Match} (h : s.Yields t m) : t.Ordered s.size m := by
  induction h with
  | lit h =>
    have hp := matchLiteral_proper h
    obtain ⟨l, _, _, rfl⟩ := matchLiteral_eq_some h
    exact InOrder.of_childless rfl hp.le_start hp.start_le
  | token _ h =>
    have hp := matchToken_proper h
    obtain ⟨stop, _, _, _, rfl⟩ := matchToken_eq_some h
    exact InOrder.of_childless rfl hp.le_start hp.start_le
  | ref _ _ ih => exact ih
  | seq _ ih => exact ih (Run.ordered_begin _)
  | choice _ _ ih => exact ih
  | rep _ ih => exact ih (Run.ordered_begin _)
  | opt _ ih => exact ih
  | omitted => exact Nat.le_refl _
  | blank => exact Nat.le_refl _
  | field _ ih =>
    show InOrder _ (Match.withFields _ _).spans _
    rw [Match.spans_withFields]
    exact ih
  | @renamed content kind pos m h ih =>
    show InOrder _ (m.rename content kind).spans (m.rename content kind).stop
    rw [h.proper.spans_rename, Match.stop_rename]
    exact ih
  | prec _ ih => exact ih
  | itemsDone => exact fun hr => hr
  | @itemsNext _ _ run m _ _ _ ih ih' =>
    intro hr
    have h := ih' (hr.push ih)
    rwa [Run.origin_push] at h
  | roundsDone _ => exact fun hr => hr
  | round _ _ _ ih ih' => exact fun hr => ih' (hr.take ih)
  | region hspan _ ih' =>
    intro hr
    obtain ⟨h1, h2, _, _⟩ := errorSpan_advances hspan
    exact ih' (hr.pushError h1 h2 _)
  | selfElement _ _ ih =>
    show InOrder _ (Match.withFields _ _).spans _
    rw [Match.spans_withFields]
    exact ih
  | bodyElement _ _ ih => exact ih
  | elementsDone => exact fun hr => hr
  | @elementsNext _ _ _ _ run m _ _ _ ih ih' =>
    intro hr
    have h := ih' (hr.push ih)
    rwa [Run.origin_push] at h
  | grown => exact fun _ _ h => h
  | @grow _ _ _ a left right _ _ _ _ h hlt _ ih ih' =>
    intro pos hp hl
    have hright := h.proper (Run.proper_begin _ _)
    refine ih' pos (hp.extended hright hlt a) ?_
    rw [hp.spans_extended hright hlt, stop_extended]
    exact hl.append (ih (Run.ordered_begin _))
  | @rule key _ a seed m _ _ h h' ih ih' =>
    have hseed := h.proper (Run.proper_begin _ _)
    have hm := h'.proper _ (hseed.dress a)
    show InOrder _ (m.finish key.rule).spans (m.finish key.rule).stop
    rw [hm.spans_finish, Match.stop_finish]
    refine ih' _ (hseed.dress a) ?_
    rw [hseed.spans_dress, stop_dress]
    exact ih (Run.ordered_begin _)

end Session

end LayeredGrammar
