import LayeredGrammar.Proofs.Engine.Formed
import LayeredGrammar.Proofs.Tiling

/-!
# Trees are well formed

For every grammar that builds and every text, the nodes of a tree lie inside the text and inside
their parents, their fields name children of theirs, unnamed nodes are the longest literals at their
places, and a rule that leaves no node of its own leaves none (`ParseTable.parse_wellFormed`).

What the start rule leaves is put under the root, its own nodes giving way to their children
(`Session.formed_rootItems`), and error regions are put between.
-/

namespace LayeredGrammar

namespace Session

variable {s : Session}

/-! ## The start rule -/

/-- The nodes of the start rule give way to their children, which lie in the same places. -/
theorem formed_rootItems {m : Match} (h : s.FormedMatch m) (start : String) :
    InOrder m.start ((rootItems start m).map (·.1.span)) m.stop ∧
      Node.Throughout s.FormedBelow ((rootItems start m).map (·.1)) := by
  have hitems : ∀ (items : List Item) (lo hi : Nat),
      InOrder lo (items.map (·.1.span)) hi → Node.Throughout s.FormedBelow (items.map (·.1)) →
      InOrder lo ((rootItems start { m with items := items }).map (·.1.span)) hi ∧
        Node.Throughout s.FormedBelow ((rootItems start { m with items := items }).map (·.1)) := by
    intro items
    induction items with
    | nil => exact fun _ _ h hn => ⟨h, hn⟩
    | cons x items ih =>
      intro lo hi h hn
      obtain ⟨node, names⟩ := x
      obtain ⟨hnode, hbelow, hrest⟩ := Node.Throughout.cons_iff.1 hn
      obtain ⟨h1, h2⟩ := ih _ hi h.2.2 hrest
      have hcons : rootItems start { m with items := (node, names) :: items } =
          (if node.kind = start then node.children.zipIdx.map fun x => (x.1, node.fieldNamesOf x.2)
            else [(node, names)]) ++ rootItems start { m with items := items } := rfl
      rw [hcons, List.map_append, List.map_append, Node.Throughout.append_iff]
      split
      · have hfst : (node.children.zipIdx.map fun x => (x.1, node.fieldNamesOf x.2)).map (·.1) =
            node.children := by
          rw [List.map_map]
          exact List.zipIdx_map_fst _ _
        have hspans : (node.children.zipIdx.map fun x => (x.1, node.fieldNamesOf x.2)).map
            (·.1.span) = node.children.map Node.span :=
          (List.map_map ..).symm.trans (congrArg (List.map Node.span) hfst)
        rw [hfst, hspans]
        exact ⟨(hnode.ordered.of_le h.1).append h1, hbelow, h2⟩
      · exact ⟨⟨h.1, h.2.1, h1⟩, Node.Throughout.single_iff.2 ⟨hnode, hbelow⟩, h2⟩
  exact hitems m.items m.start m.stop h.ordered h.nodes

/-! ## Whole texts -/

/-- Items, latest first, that lie in the text one after another up to a position. -/
def FormedItems (s : Session) (items : List Item) (pos : Nat) : Prop :=
  InOrder 0 (items.reverse.map (·.1.span)) pos ∧
    Node.Throughout s.FormedBelow (items.reverse.map (·.1))

theorem FormedItems.pushError {items : List Item} {pos stop : Nat} {expected : List String}
    (h : s.FormedItems items pos) (hpos : pos ≤ s.skip pos) (hlt : s.skip pos < stop)
    (hstop : stop ≤ s.size) :
    s.FormedItems ((Node.error (s.skip pos) stop expected, []) :: items) stop := by
  unfold FormedItems
  rw [List.reverse_cons, List.map_append, List.map_append, Node.Throughout.append_iff]
  have hle := Nat.le_of_lt hlt
  exact ⟨h.1.append ⟨hpos, hle, Nat.le_refl _⟩, h.2,
    Node.Throughout.single_iff.2 ⟨formedBelow_error hle hstop, .nil⟩⟩

theorem formedItems_readOn (hb : s.table.Built) {items : List Item} {pos : Nat}
    {found : Option Match} (hf : ∀ m ∈ found, s.Yields (.rule ⟨s.grammar.start, pos, 0⟩) m)
    (hpos : pos ≤ s.size) (h : s.FormedItems items pos) :
    s.FormedItems (readOn s.grammar.start items pos found).1
      (readOn s.grammar.start items pos found).2 := by
  cases found with
  | none => exact h
  | some m =>
    have hm := hf m rfl
    have hproper : m.Proper pos s.size := hm.proper
    have hmax : max pos m.stop = m.stop := Nat.max_eq_right hproper.le_stop
    obtain ⟨hordered, hnodes⟩ := formed_rootItems (hm.formed hb hpos) s.grammar.start
    unfold FormedItems
    simp only [readOn, List.reverse_append, List.reverse_reverse, List.map_append, hmax,
      Node.Throughout.append_iff]
    exact ⟨h.1.append (hordered.of_le hproper.le_start), h.2, hnodes⟩

/-- A text that was read leaves items that lie in it one after another. -/
theorem Reads.formed (hb : s.table.Built) {pos : Nat} {items result : List Item}
    (h : s.Reads pos items result) (hpos : pos ≤ s.size) (hitems : s.FormedItems items pos) :
    s.FormedItems result s.size := by
  induction h with
  | @ended pos items found hf _ =>
    have hread := formedItems_readOn hb hf hpos hitems
    have hle := (readOn_within items hf hpos).2
    refine ⟨?_, hread.2⟩
    rw [← List.append_nil (List.map _ _)]
    exact hread.1.append hle
  | skipped hf hstart hlt _ _ ih =>
    subst hstart
    have hread := formedItems_readOn hb hf hpos hitems
    have hstop := rawTokenEnd_le hlt
    exact ih hstop (hread.pushError (le_skip_of_lt hlt) (lt_rawTokenEnd s _) hstop)
  | dropped hf hstart hlt _ =>
    subst hstart
    have hread := formedItems_readOn hb hf hpos hitems
    exact hread.pushError (le_skip_of_lt hlt) hlt (Nat.le_refl _)

/-- The root of a text is well formed, and so is everything below it. -/
theorem formed_parse (hb : s.table.Built) {limit : Nat} {root : Node} {μ : Memo}
    (h : s.parse limit {} = .ok root μ) :
    root.named = true ∧ s.Formed root ∧ Node.Throughout s.FormedBelow root.children := by
  obtain ⟨_, _, _, items, hreads, rfl⟩ :=
    (parseBy_coupled fun pos _ => matchRule_sound limit _).of_ok ⟨rfl, sound_empty⟩ h
  obtain ⟨hordered, hnodes⟩ := hreads.formed hb (Nat.zero_le _) ⟨Nat.le_refl _, .nil⟩
  refine ⟨rfl, ⟨Nat.le_refl _, ?_, Node.fieldsFit_ofItems _ _ _ _, nofun⟩, hnodes⟩
  show InOrder 0 ((items.reverse.map (·.1)).map Node.span) s.size
  rw [List.map_map]
  exact hordered

end Session

/-! ## Trees -/

/-- A node of a tree as it should be: where it and its children lie, what its fields name, and what
an unnamed node stands for. -/
structure Node.WellFormed (s : Session) (n : Node) : Prop where
  start_le : n.start ≤ n.stop
  stop_le : n.stop ≤ s.size
  /-- The children lie inside the node, each after the one before it. -/
  within : ∀ c ∈ n.children, n.start ≤ c.start ∧ c.stop ≤ n.stop
  apart : n.children.Pairwise fun c d => c.stop ≤ d.start
  /-- Every field names a child, and all fields can be looked up. -/
  fields_le : n.fields.Pairwise fun f g => f.2 ≤ g.2
  fields_lt : ∀ f ∈ n.fields, f.2 < n.children.length
  field_isSome : ∀ name, (n.fieldAll? name).isSome = true ∧ (n.field? name).isSome = true
  /-- An unnamed node is the longest literal at its place. -/
  literal : n.named = false → n.children = [] ∧ n.start < n.stop ∧
    s.slice n.start n.stop = n.kind ∧ (s.literalAt n.start).map (·.text) = some n.kind ∧
    n.kind ∈ s.grammar.literals ∧
    ∀ value ∈ s.grammar.literals, s.fits n.start (.ofText value) = true →
      value.length ≤ n.kind.length

theorem Session.Formed.wellFormed {s : Session} (hb : s.table.Built) {n : Node} (h : s.Formed n) :
    n.WellFormed s where
  start_le := h.ordered.le
  stop_le := h.stop_le
  within c hc := ⟨h.ordered.pairwise.2 _ (List.mem_map_of_mem hc),
    h.ordered.le_stop _ (List.mem_map_of_mem hc)⟩
  apart := List.pairwise_map.1 h.ordered.pairwise.1
  fields_le := h.fields.1
  fields_lt := h.fields.2
  field_isSome name := by
    have hall := h.fields.isSome_fieldAll? name
    refine ⟨hall, ?_⟩
    unfold Node.field?
    rw [Option.isSome_map]
    exact hall
  literal hnamed := by
    obtain ⟨hchildless, hl, hstop⟩ := h.literal hnamed
    obtain ⟨hslice, hpos⟩ := Session.slice_of_literalAt hb hl
    have hlen : (Literal.ofText n.kind).chars.length = n.kind.length := String.length_toList
    rw [hlen] at hslice hpos
    rw [← hstop] at hslice
    refine ⟨hchildless, by omega, hslice, ?_, Session.literal_mem hb hl, ?_⟩
    · rw [hl]
      rfl
    · intro value hv hfit
      have := Session.length_le_of_literalAt hb hl hv hfit
      omega

/-- A kind that a node can have is not the name of a hidden rule, unless the grammar gives it. -/
theorem Grammar.mem_aliasKinds {g : Grammar} (hapart : ∀ n ∈ g.rules.names, n ∉ g.tokens.names)
    {kind : String} (h : kind ∈ g.nodeKinds) (hrule : kind ∈ g.rules.names)
    (hhidden : Match.isHidden kind = true) : kind ∈ g.aliasKinds := by
  simp only [Grammar.nodeKinds, List.mem_append, List.mem_filter, List.mem_singleton] at h
  rcases h with ((h | h) | h) | rfl
  · exact absurd h (hapart kind hrule)
  · rw [hhidden] at h
    cases h.2
  · exact h
  · exact absurd hhidden (by decide)

/-- **Trees are well formed.** For every grammar that builds, whether or not errors are recovered
from or allowed, every node of a tree is well formed, and no named node below the root has the name
of a hidden rule as its kind, unless the grammar gives that kind to a renamed production. -/
theorem ParseTable.parse_wellFormed {layers : List Layer} {table : ParseTable}
    (ht : (ParseTable.ofLayers layers).outcome = .ok table) {recover strict : Bool}
    {text : List Char} {limit : Nat} {tree : Tree}
    (h : table.parse recover strict text limit = .ok tree) :
    (∀ n ∈ tree.root.walk, n.WellFormed ⟨table, recover, text.toArray⟩) ∧
    ∀ n ∈ Node.walkAll tree.root.children, n.named = true → n.kind ∈ table.grammar.rules.names →
      Match.isHidden n.kind = true → n.kind ∈ table.grammar.aliasKinds := by
  have hb := ParseTable.built ht
  obtain ⟨μ, hroot⟩ := parse_eq_ok h
  obtain ⟨_, hformed, hbelow⟩ := Session.formed_parse hb hroot
  constructor
  · intro n hn
    rw [Node.walk_eq] at hn
    rcases List.mem_cons.1 hn with rfl | hn
    · exact hformed.wellFormed hb
    · exact (hbelow n hn).toFormed.wellFormed hb
  · intro n hn hnamed hrule hhidden
    exact Grammar.mem_aliasKinds hb.apart ((hbelow n hn).kind hnamed) hrule hhidden

/-- Names, some of them with a mark that may be empty; the entries leave no node of their own unless
they are marked, and then one with the name of their hidden rule. -/
def entryLayer : Layer where
  name := "Entries"
  start := some (some "_entries")
  word := some none
  members :=
    [("name", .token none (.declare "\\w+")),
     ("_entries", .rule none (.rep (.ref "_entry") 0 true)),
     ("_entry", .rule none (.choice
      [.renamed (.seq [.field "key" (.ref "name"), .lit "=", .field "mark" (.ref "mark")]) "_entry",
       .ref "name"])),
     ("mark", .rule none (.opt (.lit "=!")))]

/-- A text with an empty mark, and with a literal in the place of a shorter one. -/
theorem ParseTable.parse_wellFormed_entries : ∃ table tree,
    (ParseTable.ofLayers [entryLayer]).outcome = .ok table ∧
    table.parse true false ['a', ' ', '=', ' ', 'b', '=', '!', ';', ' ', 'c'] 5 = .ok tree ∧
    tree.root.walk.map (·.kind) =
      ["_entries", "_entry", "name", "=", "mark", "name", "ERROR", "name"] ∧
    (∀ n ∈ tree.root.walk,
      n.WellFormed ⟨table, true, #['a', ' ', '=', ' ', 'b', '=', '!', ';', ' ', 'c']⟩) ∧
    ∀ n ∈ Node.walkAll tree.root.children, n.named = true → n.kind ∈ table.grammar.rules.names →
      Match.isHidden n.kind = true → n.kind ∈ table.grammar.aliasKinds := by
  have hrun : ((ParseTable.ofLayers [entryLayer]).outcome.toOption.any fun table =>
      (table.parse true false ['a', ' ', '=', ' ', 'b', '=', '!', ';', ' ', 'c'] 5).toOption.any
        fun tree => decide (tree.root.walk.map (·.kind) =
          ["_entries", "_entry", "name", "=", "mark", "name", "ERROR", "name"])) = true := by
    decide +kernel
  obtain ⟨table, htable, hrun⟩ := Traced.exists_of_any hrun
  obtain ⟨tree, htree, hkinds⟩ := Except.exists_of_any hrun
  exact ⟨table, tree, htable, htree, of_decide_eq_true hkinds, parse_wellFormed htable htree⟩

end LayeredGrammar
