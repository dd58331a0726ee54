import LayeredGrammar.Proofs.Catalog.Shipped
import LayeredGrammar.Proofs.Engine.Bare

/-!
# Trees lose no text

The nodes without children below the root of a tree, in walk order, cover the text: each starts
after the extras behind the one before it, none is empty, and behind the last one there are only
extras (`Covers`). So every character lies in exactly one of them or in extras
(`Covers.countP_holds`).

`ParseTable.parse_covers` says so of every text the ready-made grammars read, whether or not they
recover from errors. The start rule is a special case throughout: it may be empty, and its node
gives way to its children, which is why it must not leave a bare literal.
-/

namespace LayeredGrammar

/-! ## Covering a text -/

namespace Node

/-- The nodes without children among nodes and everything below them, in walk order. -/
def tips (nodes : List Node) : List Node := (walkAll nodes).filter (·.children.isEmpty)

theorem tips_cons (n : Node) (ns : List Node) :
    tips (n :: ns) = (if n.children.isEmpty then [n] else tips n.children) ++ tips ns := by
  unfold tips
  rw [walkAll, walk_eq, List.filter_append, List.filter_cons]
  cases hc : n.children with
  | nil => rfl
  | cons c cs => rfl

/-- Whether the character at a position belongs to a node. -/
def holds (n : Node) (i : Nat) : Bool := n.start ≤ i && i < n.stop

end Node

/-- Nodes that are not empty, one after another up to the end of a text of length `size`, with
nothing but what is skipped before, between and after them. -/
def Covers (skip : Nat → Nat) (size : Nat) : Nat → List Node → Prop
  | pos, [] => skip pos = size
  | pos, n :: ns => n.start = skip pos ∧ n.start < n.stop ∧ n.stop ≤ size ∧
      Covers skip size n.stop ns

namespace Covers

variable {skip : Nat → Nat} {size pos : Nat} {ns : List Node}

theorem countP_holds_of_lt (hskip : ∀ p ≤ size, p ≤ skip p) (h : Covers skip size pos ns)
    (hpos : pos ≤ size) {i : Nat} (hi : i < pos) : ns.countP (·.holds i) = 0 := by
  induction ns generalizing pos with
  | nil => rfl
  | cons n ns ih =>
    obtain ⟨hstart, hlt, hle, hrest⟩ := h
    have hpos' := hskip pos hpos
    have hn : n.holds i = false := by
      simp only [Node.holds, Bool.and_eq_false_iff, decide_eq_false_iff_not]
      omega
    rw [List.countP_cons, hn, ih hrest hle (by omega)]
    rfl

/-- Every character from a position on belongs to exactly one of the nodes, or to none and is
skipped. -/
theorem countP_holds (hskip : ∀ p ≤ size, p ≤ skip p) (h : Covers skip size pos ns)
    (hpos : pos ≤ size) {i : Nat} (hi : pos ≤ i) (hi' : i < size) :
    ns.countP (·.holds i) = 1 ∨ ns.countP (·.holds i) = 0 ∧
      ∃ p, (p = pos ∨ ∃ n ∈ ns, p = n.stop) ∧ p ≤ i ∧ i < skip p := by
  induction ns generalizing pos with
  | nil =>
    refine Or.inr ⟨rfl, pos, Or.inl rfl, hi, ?_⟩
    have h : skip pos = size := h
    omega
  | cons n ns ih =>
    obtain ⟨hstart, hlt, hle, hrest⟩ := h
    rw [List.countP_cons]
    by_cases hbefore : i < n.stop
    · rw [countP_holds_of_lt hskip hrest hle hbefore]
      by_cases hskipped : i < n.start
      · refine Or.inr ⟨?_, pos, Or.inl rfl, hi, by omega⟩
        simp [Node.holds, Nat.not_le.2 hskipped]
      · refine Or.inl ?_
        simp [Node.holds, Nat.not_lt.1 hskipped, hbefore]
    · have hn : n.holds i = false := by simp [Node.holds, hbefore]
      rw [hn]
      rcases ih hrest hle (Nat.not_lt.1 hbefore) with hone | ⟨hzero, p, hp, hgap⟩
      · exact Or.inl hone
      · refine Or.inr ⟨hzero, p, Or.inr ?_, hgap⟩
        rcases hp with rfl | ⟨m, hm, rfl⟩
        · exact ⟨n, List.mem_cons_self, rfl⟩
        · exact ⟨m, List.mem_cons_of_mem _ hm, rfl⟩

end Covers

namespace Session

variable {s : Session} {empties : List String} {rank : String → Nat}

/-! ## From tiles to covers -/

theorem Tiles.le_stop {pos stop : Nat} {ns : List Node} (h : s.Tiles pos ns stop)
    (hstop : stop ≤ s.size) : pos ≤ stop := by
  induction h with
  | nil => exact Nat.le_refl _
  | leaf hc hstart hlt _ ih =>
    have hle := ih hstop
    have := le_skip_of_lt (hstart ▸ Nat.lt_of_lt_of_le hlt (Nat.le_trans hle hstop))
    omega
  | branch hc hstart hn _ ihn ih =>
    have hle := ih hstop
    exact Nat.le_trans (ihn (Nat.le_trans hle hstop)) hle

/-- The nodes without children below tiles cover what the tiles cover. -/
theorem Tiles.covers {pos stop : Nat} {ns rest : List Node} (h : s.Tiles pos ns stop)
    (hstop : stop ≤ s.size) (hrest : Covers s.skip s.size stop rest) :
    Covers s.skip s.size pos (Node.tips ns ++ rest) := by
  induction h generalizing rest with
  | nil => exact hrest
  | @leaf _ n ns _ hc hstart hlt h ih =>
    rw [Node.tips_cons, hc]
    exact ⟨hstart, hlt, Nat.le_trans (h.le_stop hstop) hstop, ih hstop hrest⟩
  | @branch _ n ns _ hc hstart hn h ihn ih =>
    have hempty : n.children.isEmpty = false := List.isEmpty_eq_false_iff.2 hc
    rw [Node.tips_cons, hempty, List.append_assoc]
    exact ihn (Nat.le_trans (h.le_stop hstop) hstop) (ih hstop hrest)

/-! ## The start rule -/

/-- The node of the start rule gives way to what is below it. -/
theorem rootItems_wrap (start : String) (m : Match) :
    (rootItems start (m.wrap start)).map (·.1) = m.items.map (·.1) := by
  unfold rootItems Match.wrap
  rw [List.flatMap_singleton]
  show List.map _ (if start = start then _ else _) = _
  rw [if_pos rfl, List.map_map]
  exact List.zipIdx_map_fst _ _

/-- What the start rule leaves tiles the text, even if the rule may be empty. -/
theorem Yields.tiled_start (hb : s.table.Built) (hr : s.table.Ranked empties rank)
    (hs : s.table.Shaped empties) (hskip : ∀ pos, s.skip (s.skip pos) = s.skip pos) {key : MemoKey}
    {m : Match} (h : s.Yields (.rule key) m) (hvisible : Match.isHidden key.rule = false)
    (hempty : key.rule ∈ empties) :
    s.Tiles key.pos ((rootItems key.rule m).map (·.1)) m.stop := by
  cases h with
  | @rule _ _ a seed m ht ha h h' =>
    obtain ⟨hoffers, _⟩ := hb.offers_seed ht ha
    have hbegun := begun_seed hb hr hoffers h
    have hseed := tiled_seed hb hr hs hoffers h
      (h.tiled hb hr hs hskip hoffers.knows (solid_elements hs hoffers) (.begin _))
    have hbare := h'.unbare hb hr hs _ hbegun
      (not_bare_seed hs hoffers (Or.inr hempty) (h.unbare hb hr hs hoffers.knows))
    rw [Match.finish_eq_wrap hvisible hbare, rootItems_wrap]
    exact (h'.tiled hb hr hs hskip _ hbegun hseed).tiles

/-! ## Whole texts -/

/-- A table whose start rule may be empty and has a node of its own, with extras that are skipped
at once, and with certificates for its rules. -/
structure Certified (s : Session) (empties : List String) (rank : String → Nat) : Prop where
  built : s.table.Built
  ranked : s.table.Ranked empties rank
  shaped : s.table.Shaped empties
  skip : ∀ pos, s.skip (s.skip pos) = s.skip pos
  start : Match.isHidden s.grammar.start = false ∧ s.grammar.start ∈ empties

/-- What was read before and what the start rule adds to it tile the text. -/
theorem readOn_tiles (hc : s.Certified empties rank) {items : List Item} {pos : Nat}
    {found : Option Match} (hf : ∀ m ∈ found, s.Yields (.rule ⟨s.grammar.start, pos, 0⟩) m)
    (h : s.Tiles 0 (items.reverse.map (·.1)) pos) :
    s.Tiles 0 ((readOn s.grammar.start items pos found).1.reverse.map (·.1))
      (readOn s.grammar.start items pos found).2 := by
  cases found with
  | none => exact h
  | some m =>
    have hm := hf m rfl
    have hproper : m.Proper pos s.size := hm.proper
    have hmax : max pos m.stop = m.stop := Nat.max_eq_right hproper.le_stop
    have hstart := hm.tiled_start hc.built hc.ranked hc.shaped hc.skip hc.start.1 hc.start.2
    simp only [readOn, List.reverse_append, List.reverse_reverse, List.map_append, hmax]
    exact h.append hstart

/-- A text that was read is tiled from its beginning, and only extras are left. -/
theorem Reads.tiles (hc : s.Certified empties rank) {pos : Nat} {items result : List Item}
    (h : s.Reads pos items result) (hpos : pos ≤ s.size)
    (hitems : s.Tiles 0 (items.reverse.map (·.1)) pos) :
    ∃ stop, s.Tiles 0 (result.reverse.map (·.1)) stop ∧ stop ≤ s.size ∧ s.skip stop = s.size := by
  -- an error region is one more tile
  have herror : ∀ {items : List Item} {reached stop : Nat} {expected : List String},
      s.Tiles 0 (items.reverse.map (·.1)) reached → s.skip reached < stop →
      s.Tiles 0 (((Node.error (s.skip reached) stop expected, []) :: items).reverse.map (·.1))
        stop := by
    intro items reached stop expected h hlt
    rw [List.reverse_cons, List.map_append]
    exact h.append (.single rfl rfl hlt)
  induction h with
  | @ended pos items found hf hend =>
    have hread := readOn_tiles hc hf hitems
    have hle := (readOn_within items hf hpos).2
    exact ⟨_, hread, hle, Nat.le_antisymm (skip_le hle) hend⟩
  | @skipped pos items found start result hf hstart hlt _ _ ih =>
    subst hstart
    have hread := readOn_tiles hc hf hitems
    exact ih (rawTokenEnd_le hlt) (herror hread (lt_rawTokenEnd s _))
  | @dropped pos items found start hf hstart hlt _ =>
    subst hstart
    have hread := readOn_tiles hc hf hitems
    exact ⟨s.size, herror hread hlt, Nat.le_refl _,
      Nat.le_antisymm (skip_le (Nat.le_refl _)) (size_le_skip (Nat.le_refl _))⟩

/-- The children of the root of a text tile it. -/
theorem parse_tiles (hc : s.Certified empties rank) {limit : Nat} {root : Node} {μ : Memo}
    (h : s.parse limit {} = .ok root μ) :
    ∃ stop, s.Tiles 0 root.children stop ∧ stop ≤ s.size ∧ s.skip stop = s.size := by
  obtain ⟨_, _, _, items, hreads, rfl⟩ :=
    (parseBy_coupled fun pos _ => matchRule_sound limit _).of_ok ⟨rfl, sound_empty⟩ h
  exact hreads.tiles hc (Nat.zero_le _) .nil

/-- A session of a ready-made grammar has certificates, whatever it reads. -/
theorem certified (h : Catalog.Shipped s.table) :
    s.Certified Catalog.emptyRules Catalog.cornerRank := by
  obtain ⟨r, hr⟩ := h.extras_regex
  refine ⟨h.built, h.ranked, h.shaped, skip_skip hr, ?_⟩
  unfold grammar
  rw [h.settings.1]
  decide

end Session

/-! ## Ready-made grammars -/

namespace ParseTable

theorem parse_eq_ok {table : ParseTable} {recover strict : Bool} {text : List Char} {limit : Nat}
    {tree : Tree} (h : table.parse recover strict text limit = .ok tree) :
    ∃ μ, Session.parse ⟨table, recover, text.toArray⟩ limit {} = .ok tree.root μ := by
  unfold parse at h
  split at h
  · cases h
  · rename_i root μ hroot
    refine ⟨μ, ?_⟩
    simp only at h
    split at h
    · cases h
    · cases h
      exact hroot

/-- **The ready-made grammars lose no text.** Whether or not errors are recovered from or allowed,
the nodes without children below the root of a tree are not empty, and each of them starts after the
extras behind the one before it, the first one after the extras at the beginning of the text; after
the last one only extras are left. So every character belongs to exactly one of them, or to none and
to such a stretch of extras. All nodes below the root that have children start and end with them. -/
theorem parse_covers {table : ParseTable} (ht : Catalog.Shipped table) {recover strict : Bool}
    {text : List Char} {limit : Nat} {tree : Tree}
    (h : table.parse recover strict text limit = .ok tree) :
    Covers (table.grammar.extras.skip text.toArray) text.length 0 (Node.tips tree.root.children) ∧
    (∀ i < text.length, (Node.tips tree.root.children).countP (·.holds i) = 1 ∨
      (Node.tips tree.root.children).countP (·.holds i) = 0 ∧
        ∃ p, (p = 0 ∨ ∃ n ∈ Node.tips tree.root.children, p = n.stop) ∧ p ≤ i ∧
          i < table.grammar.extras.skip text.toArray p) ∧
    ∀ n ∈ Node.walkAll tree.root.children, n.children ≠ [] →
      n.children.head?.map (·.start) = some n.start ∧
      n.children.getLast?.map (·.stop) = some n.stop := by
  obtain ⟨μ, hroot⟩ := parse_eq_ok h
  obtain ⟨stop, htiles, hstop, hskip⟩ := Session.parse_tiles (Session.certified ht) hroot
  have hsize : (Session.mk table recover text.toArray).size = text.length := List.size_toArray ..
  have hcovers : Covers _ _ 0 (Node.tips tree.root.children ++ []) := htiles.covers hstop hskip
  rw [List.append_nil, hsize] at hcovers
  refine ⟨hcovers, ?_, htiles.spanned⟩
  intro i hi
  refine hcovers.countP_holds (fun p hp => ?_) (Nat.zero_le _) (Nat.zero_le _) hi
  exact Session.le_skip (s := ⟨table, recover, text.toArray⟩) (hsize ▸ hp)

/-- A text that the C grammar reads. -/
theorem exists_parse : ∃ table tree, Catalog.cTable.outcome = .ok table ∧
    table.parse true false ['a', ';'] 12 = .ok tree := by
  obtain ⟨table, replies, μ, htable, hrun⟩ := Catalog.exists_readings
  obtain ⟨reply, _, μ', _, hreply, _⟩ := Session.performAll_cons_ok hrun
  obtain ⟨root, hroot⟩ : ∃ root, Session.parse ⟨table, true, #['a', ';']⟩ 12 {} = .ok root μ' := by
    simp only [Session.performBy] at hreply
    rw [Engine.bind_apply] at hreply
    split at hreply
    · rename_i root μ₁ hroot
      cases hreply
      exact ⟨root, hroot⟩
    · cases hreply
  refine ⟨table, ⟨root, ['a', ';']⟩, htable, ?_⟩
  unfold parse
  rw [hroot]

/-- A text that the C grammar reads. -/
theorem parse_covers_statement : ∃ table tree, Catalog.cTable.outcome = .ok table ∧
    table.parse true false ['a', ';'] 12 = .ok tree ∧
    Covers (table.grammar.extras.skip #['a', ';']) 2 0 (Node.tips tree.root.children) ∧
    (∀ i < 2, (Node.tips tree.root.children).countP (·.holds i) = 1 ∨
      (Node.tips tree.root.children).countP (·.holds i) = 0 ∧
        ∃ p, (p = 0 ∨ ∃ n ∈ Node.tips tree.root.children, p = n.stop) ∧ p ≤ i ∧
          i < table.grammar.extras.skip #['a', ';'] p) ∧
    ∀ n ∈ Node.walkAll tree.root.children, n.children ≠ [] →
      n.children.head?.map (·.start) = some n.start ∧
      n.children.getLast?.map (·.stop) = some n.stop := by
  obtain ⟨table, tree, htable, hparse⟩ := exists_parse
  exact ⟨table, tree, htable, hparse, parse_covers (Or.inl htable) hparse⟩

end ParseTable

end LayeredGrammar
