import LayeredGrammar.Proofs.Engine.Leaves
import LayeredGrammar.Proofs.Grammar.Alternatives

/-!
# The nodes of a match

Nodes are made in a few places only: a literal, a token or an error region becomes a node without
children, items are put under a node, and a single node takes another kind. `Node.Throughout` says
that something holds of nodes and everything below them; `Match.throughout_wrap` and its companions
reduce it to those few places.

`Session.Formed` is what holds of every node the engine makes: its children lie inside it one after
another, its fields name children, a literal is the longest one at its place, and the kind of a named
node is known to the grammar. `Session.Yields.formed` proves it of every match.
-/

namespace LayeredGrammar

/-! ## Kinds that productions give -/

namespace Production

/-- The node kind that a production gives, if it is renamed. -/
def kind? : Production → Option String
  | .renamed _ kind => some kind
  | _ => none

/-- The node kinds that a production and those below it give. -/
def kinds (p : Production) : List String := p.walk.filterMap kind?

theorem mem_kinds {p : Production} {kind : String} :
    kind ∈ p.kinds ↔ ∃ content, .renamed content kind ∈ p.walk := by
  unfold kinds
  rw [List.mem_filterMap]
  constructor
  · rintro ⟨q, hq, hkind⟩
    cases q with
    | renamed content k =>
      cases hkind
      exact ⟨content, hq⟩
    | _ => cases hkind
  · rintro ⟨content, h⟩
    exact ⟨_, h, rfl⟩

theorem kinds_subset {p q : Production} (h : ∀ r ∈ q.walk, r ∈ p.walk) : q.kinds ⊆ p.kinds := by
  intro kind hkind
  obtain ⟨content, hmem⟩ := mem_kinds.1 hkind
  exact mem_kinds.2 ⟨content, h _ hmem⟩

end Production

/-- The node kinds that the rules of a grammar give by renaming. -/
def Grammar.aliasKinds (g : Grammar) : List String := g.rules.flatMap (·.2.kinds)

/-- The kind that an alternative makes is given by its production. -/
theorem Alternative.kind_mem {rule kind : String} {index : Nat} {layered : Bool} {p : Production}
    (h : (ofProduction rule index layered p).kind = some kind) : kind ∈ p.kinds := by
  have hopen : ∀ q, (openKind q).1 = some kind → ∃ content, q = .renamed content kind := by
    intro q hq
    unfold openKind at hq
    split at hq
    · cases hq
    · cases hq
      exact ⟨_, rfl⟩
    · cases hq
  cases p with
  | prec value content assoc unary =>
    obtain ⟨inner, rfl⟩ := hopen content h
    exact Production.mem_kinds.2 ⟨inner, List.mem_cons_of_mem _ List.mem_cons_self⟩
  | renamed content k =>
    obtain ⟨inner, heq⟩ := hopen (.renamed content k) h
    exact Production.mem_kinds.2 ⟨inner, heq ▸ List.mem_cons_self⟩
  | _ => cases h

namespace ParseTable

variable {t : ParseTable} {rule : String} {a : Alternative}

theorem Offers.kinds_element (h : t.Offers rule a) {e : Element} (he : e ∈ a.elements) :
    e.body.kinds ⊆ t.grammar.aliasKinds := by
  obtain ⟨body, index, layered, p, hb, hp, rfl⟩ := h
  intro kind hkind
  refine List.mem_flatMap.2 ⟨_, NameTable.mem_of_get? hb, ?_⟩
  refine Production.kinds_subset (fun r hr => ?_) hkind
  exact Production.walk_of_alternative body hp (Alternative.walk_of_element he hr)

/-- The kind that an alternative of a rule makes is given by the grammar. -/
theorem Offers.kind_mem (h : t.Offers rule a) {kind : String} (hk : a.kind = some kind) :
    kind ∈ t.grammar.aliasKinds := by
  obtain ⟨body, index, layered, p, hb, hp, rfl⟩ := h
  refine List.mem_flatMap.2 ⟨_, NameTable.mem_of_get? hb, ?_⟩
  refine Production.kinds_subset (fun r hr => ?_) (Alternative.kind_mem hk)
  exact Production.walk_of_alternative body hp hr

end ParseTable

/-! ## What holds throughout a tree -/

theorem Node.mem_walkAll {n : Node} {ns : List Node} : n ∈ walkAll ns ↔ ∃ m ∈ ns, n ∈ m.walk := by
  induction ns with
  | nil => simp [walkAll]
  | cons m ns ih => simp [walkAll, ih]

/-- Something holds of nodes and of everything below them. -/
def Node.Throughout (P : Node → Prop) (ns : List Node) : Prop := ∀ n ∈ Node.walkAll ns, P n

namespace Node.Throughout

variable {P : Node → Prop} {ms ns : List Node}

theorem nil : Throughout P [] := nofun

theorem append_iff : Throughout P (ms ++ ns) ↔ Throughout P ms ∧ Throughout P ns := by
  unfold Throughout
  rw [walkAll_append]
  exact List.forall_mem_append

theorem cons_iff {n : Node} :
    Throughout P (n :: ns) ↔ P n ∧ Throughout P n.children ∧ Throughout P ns := by
  unfold Throughout
  rw [walkAll, walk_eq, List.cons_append, List.forall_mem_cons, List.forall_mem_append]

theorem single_iff {n : Node} : Throughout P [n] ↔ P n ∧ Throughout P n.children := by
  rw [cons_iff]
  exact ⟨fun h => ⟨h.1, h.2.1⟩, fun h => ⟨h.1, h.2, nil⟩⟩

theorem reverse_iff : Throughout P ns.reverse ↔ Throughout P ns := by
  induction ns with
  | nil => rfl
  | cons n ns ih =>
    rw [List.reverse_cons, append_iff, ih, single_iff, cons_iff]
    exact ⟨fun h => ⟨h.2.1, h.2.2, h.1⟩, fun h => ⟨h.2.2, h.1, h.2.1⟩⟩

theorem of_mem (h : Throughout P ns) {n : Node} (hn : n ∈ ns) : P n ∧ Throughout P n.children := by
  induction ns with
  | nil => cases hn
  | cons m ns ih =>
    obtain ⟨h1, h2, h3⟩ := cons_iff.1 h
    rcases List.mem_cons.1 hn with rfl | hn
    · exact ⟨h1, h2⟩
    · exact ih h3 hn

theorem mono {Q : Node → Prop} (h : Throughout P ns) (hpq : ∀ n, P n → Q n) : Throughout Q ns :=
  fun n hn => hpq n (h n hn)

end Node.Throughout

namespace Match

/-- Something holds of all nodes of a match. -/
def Throughout (P : Node → Prop) (m : Match) : Prop := Node.Throughout P (m.items.map (·.1))

variable {P : Node → Prop} {m left right : Match}

theorem throughout_withFields (names : List String) :
    (m.withFields names).Throughout P ↔ m.Throughout P := by
  unfold Throughout withFields
  rw [List.map_map]
  rfl

theorem throughout_join : (left.join right).Throughout P ↔ left.Throughout P ∧ right.Throughout P := by
  unfold Throughout join
  rw [List.map_append, Node.Throughout.append_iff]

theorem throughout_wrap {kind : String} (h : m.Throughout P)
    (hnode : P (Node.ofItems kind m.items m.start m.stop)) : (m.wrap kind).Throughout P :=
  Node.Throughout.single_iff.2 ⟨hnode, h⟩

/-- A renamed match has one new node: its only one with another kind, or one around all of them. -/
theorem throughout_rename {content : Production} {kind : String} (h : m.Throughout P)
    (hnode : P (Node.ofItems kind m.items m.start m.stop))
    (hsingle : ∀ node names, m.items = [(node, names)] → P { node with kind := kind, named := true }) :
    (m.rename content kind).Throughout P := by
  obtain ⟨node, names, hitems, _, heq⟩ | heq := rename_cases content kind m <;> rw [heq]
  · unfold Throughout at h
    rw [hitems] at h
    exact Node.Throughout.single_iff.2 ⟨hsingle node names hitems, (Node.Throughout.single_iff.1 h).2⟩
  · exact throughout_wrap h hnode

/-- A rule with a node of its own adds that node to a match, or puts it in place of a literal. -/
theorem throughout_finish {rule : String} (h : m.Throughout P)
    (hnode : isHidden rule = false → P (Node.ofItems rule m.items m.start m.stop))
    (hleaf : isHidden rule = false → ∀ node names, m.items = [(node, names)] → node.named = false →
      P (Node.leaf rule node.start node.stop true)) : (m.finish rule).Throughout P := by
  obtain ⟨_, heq⟩ | ⟨hvisible, heq | ⟨node, names, hitems, hnamed, heq⟩⟩ :=
    finish_cases rule m <;> rw [heq]
  · exact h
  · exact throughout_wrap h (hnode hvisible)
  · exact Node.Throughout.single_iff.2 ⟨hleaf hvisible node names hitems hnamed, .nil⟩

theorem throughout_dress {a : Alternative} (h : m.Throughout P)
    (hnode : ∀ kind, a.kind = some kind → P (Node.ofItems kind m.items m.start m.stop)) :
    (Session.dress a m).Throughout P := by
  obtain ⟨_, ⟨_, heq⟩ | ⟨kind, hk, heq⟩⟩ := Session.dress_cases a m <;> rw [heq]
  · exact h
  · exact throughout_wrap h (hnode kind hk)

end Match

namespace Run

/-- Something holds of all nodes of a run. -/
def Throughout (P : Node → Prop) (r : Run) : Prop := Node.Throughout P (r.items.map (·.1))

variable {P : Node → Prop} {r : Run} {m : Match}

theorem throughout_begin (pos : Nat) : (Run.begin pos).Throughout P := .nil

theorem Throughout.take (h : r.Throughout P) (hm : m.Throughout P) : (r.take m).Throughout P := by
  unfold Throughout Run.take
  rw [List.map_append, List.map_reverse, Node.Throughout.append_iff, Node.Throughout.reverse_iff]
  exact ⟨hm, h⟩

theorem Throughout.push (h : r.Throughout P) (hm : m.Throughout P) : (r.push m).Throughout P := by
  unfold Run.push
  split
  · exact h
  · exact h.take hm

theorem Throughout.pushError (h : r.Throughout P) {start stop : Nat} {expected : List String}
    (hnode : P (Node.error start stop expected)) : (r.pushError start stop expected).Throughout P :=
  Node.Throughout.cons_iff.2 ⟨hnode, .nil, h⟩

theorem Throughout.toMatch (h : r.Throughout P) : r.toMatch.Throughout P := by
  unfold Match.Throughout Run.toMatch
  rw [List.map_reverse, Node.Throughout.reverse_iff]
  exact h

end Run

/-! ## Spans and fields -/

namespace InOrder

variable {lo lo' hi : Nat} {xs : List (Nat × Nat)}

theorem le (h : InOrder lo xs hi) : lo ≤ hi := by
  induction xs generalizing lo with
  | nil => exact h
  | cons x xs ih =>
    have h1 := h.1
    have h2 := h.2.1
    have h3 := ih h.2.2
    omega

theorem of_le (hlo : lo' ≤ lo) (h : InOrder lo xs hi) : InOrder lo' xs hi := by
  have hnil : InOrder lo' [] lo := hlo
  exact hnil.append h

/-- Stretches that lie one after another end where the last one may end. -/
theorem le_stop (h : InOrder lo xs hi) : ∀ x ∈ xs, x.2 ≤ hi := by
  induction xs generalizing lo with
  | nil => exact nofun
  | cons x xs ih =>
    intro y hy
    rcases List.mem_cons.1 hy with rfl | hy
    · exact h.2.2.le
    · exact ih h.2.2 y hy

end InOrder

namespace Node

/-- Where a node lies. -/
def span (n : Node) : Nat × Nat := (n.start, n.stop)

/-- The fields of a node name children of it, those of earlier children first. -/
def FieldsFit (n : Node) : Prop :=
  n.fields.Pairwise (fun f g => f.2 ≤ g.2) ∧ ∀ f ∈ n.fields, f.2 < n.children.length

theorem fieldsFit_of_nil {n : Node} (h : n.fields = []) : n.FieldsFit := by
  unfold FieldsFit
  rw [h]
  exact ⟨.nil, nofun⟩

/-- The names of items become fields that fit. -/
theorem fieldsFit_ofItems (kind : String) (items : List Item) (start stop : Nat) :
    (Node.ofItems kind items start stop).FieldsFit := by
  -- for items that are counted from `k` on
  have hcount : ∀ (items : List Item) (k : Nat),
      let fields := (items.zipIdx k).flatMap fun x => x.1.2.map (·, x.2)
      fields.Pairwise (fun f g => f.2 ≤ g.2) ∧ ∀ f ∈ fields, k ≤ f.2 ∧ f.2 < k + items.length := by
    intro items
    induction items with
    | nil => exact fun k => ⟨.nil, List.forall_mem_nil _⟩
    | cons x items ih =>
      intro k
      obtain ⟨hpair, hrange⟩ := ih (k + 1)
      have hfirst : ∀ f ∈ x.2.map (·, k), f.2 = k := by
        intro f hf
        obtain ⟨name, _, rfl⟩ := List.mem_map.1 hf
        rfl
      simp only [List.zipIdx_cons, List.flatMap_cons, List.length_cons]
      constructor
      · refine List.pairwise_append.2 ⟨?_, hpair, ?_⟩
        · exact List.pairwise_map.2 (List.pairwise_of_forall fun _ _ => Nat.le_refl k)
        · intro f hf g hg
          have := hfirst f hf
          have := hrange g hg
          omega
      · intro f hf
        rcases List.mem_append.1 hf with hf | hf
        · have := hfirst f hf
          omega
        · have := hrange f hf
          omega
  obtain ⟨hpair, hrange⟩ := hcount items 0
  refine ⟨hpair, fun f hf => ?_⟩
  have hlt := (hrange f hf).2
  rw [Nat.zero_add] at hlt
  show f.2 < (items.map (·.1)).length
  rwa [List.length_map]

/-- Fields that fit can be looked up. -/
theorem FieldsFit.isSome_fieldAll? {n : Node} (h : n.FieldsFit) (name : String) :
    (n.fieldAll? name).isSome = true := by
  have hmap : ∀ l : List Nat, (∀ i ∈ l, i < n.children.length) →
      (l.mapM (n.children[·]?)).isSome = true := by
    intro l
    induction l with
    | nil => exact fun _ => rfl
    | cons i l ih =>
      intro hl
      obtain ⟨hi, hl⟩ := List.forall_mem_cons.1 hl
      obtain ⟨rest, hrest⟩ := Option.isSome_iff_exists.1 (ih hl)
      rw [List.mapM_cons, List.getElem?_eq_getElem hi, hrest]
      rfl
  refine hmap _ fun i hi => ?_
  unfold fieldIndices at hi
  rw [mem_sortBy, List.mem_eraseDups] at hi
  obtain ⟨f, hf, rfl⟩ := List.mem_map.1 hi
  exact h.2 f (List.mem_filter.1 hf).1

end Node

/-! ## What holds of every node -/

/-- The kinds that named nodes below the root can have: those of tokens, of rules with nodes of their
own, of renamed productions and of error regions. -/
def Grammar.nodeKinds (g : Grammar) : List String :=
  g.tokens.names ++ g.rules.names.filter (!Match.isHidden ·) ++ g.aliasKinds ++ [Node.errorKind]

namespace Session

variable {s : Session}

/-- The literals of a table are those of the grammar. -/
theorem literalAt_eq_ofText (hb : s.table.Built) {pos : Nat} {l : Literal}
    (h : s.literalAt pos = some l) : l = .ofText l.text := by
  unfold literalAt at h
  split at h
  · cases h
  · have hmem := List.mem_of_find?_eq_some h
    rw [hb.table] at hmem
    obtain ⟨text, _, rfl⟩ := List.mem_map.1 (mem_sortBy.1 hmem)
    rfl

theorem literal_mem (hb : s.table.Built) {pos : Nat} {l : Literal}
    (h : s.literalAt pos = some l) : l.text ∈ s.grammar.literals := by
  unfold literalAt at h
  split at h
  · cases h
  · have hmem := List.mem_of_find?_eq_some h
    rw [hb.table] at hmem
    obtain ⟨text, htext, rfl⟩ := List.mem_map.1 (mem_sortBy.1 hmem)
    exact htext

/-- Longer literals come first. -/
def LongestFirst (literals : List Literal) : Prop :=
  literals.Pairwise fun a b => b.chars.length ≤ a.chars.length

theorem longestFirst_ofGrammar (g : Grammar) : LongestFirst (ParseTable.ofGrammar g).literals := by
  refine pairwise_sortBy (r := fun a b : Literal => b.chars.length ≤ a.chars.length) ?_ ?_
    (fun a b c hab hbc => Nat.le_trans hbc hab) _
  · intro a b hab
    simp only [Literal.precedes, Bool.or_eq_true, decide_eq_true_eq, Bool.and_eq_true,
      beq_iff_eq] at hab
    omega
  · intro a b hab
    simp only [Literal.precedes, Bool.or_eq_false_iff, decide_eq_false_iff_not] at hab
    omega

/-- The first that passes is as long as any that passes. -/
theorem LongestFirst.length_le {literals : List Literal} (h : LongestFirst literals)
    {passes : Literal → Bool} {l l' : Literal} (hfind : literals.find? passes = some l)
    (hmem : l' ∈ literals) (hl' : passes l' = true) : l'.chars.length ≤ l.chars.length := by
  obtain ⟨_, before, after, rfl, hbefore⟩ := List.find?_eq_some_iff_append.1 hfind
  rcases List.mem_append.1 hmem with hmem | hmem
  · have hnot := hbefore _ hmem
    rw [hl'] at hnot
    cases hnot
  · rcases List.mem_cons.1 hmem with rfl | hmem
    · exact Nat.le_refl _
    · exact (List.pairwise_cons.1 (List.pairwise_append.1 h).2.1).1 _ hmem

/-- The literal at a position is the longest that fits there. -/
theorem length_le_of_literalAt (hb : s.table.Built) {pos : Nat} {l : Literal} {value : String}
    (h : s.literalAt pos = some l) (hv : value ∈ s.grammar.literals)
    (hfit : s.fits pos (.ofText value) = true) : value.length ≤ l.chars.length := by
  unfold literalAt at h
  split at h
  · cases h
  · rw [hb.table] at h
    rw [← String.length_toList]
    refine (longestFirst_ofGrammar _).length_le h ?_ hfit
    exact mem_sortBy.2 (List.mem_map.2 ⟨value, hv, rfl⟩)

/-- A node that stands for the literal at its place. -/
structure IsLiteral (s : Session) (n : Node) : Prop where
  childless : n.children = []
  literalAt : s.literalAt n.start = some (.ofText n.kind)
  stop_eq : n.stop = n.start + n.kind.length

/-- What holds of every node of a tree. -/
structure Formed (s : Session) (n : Node) : Prop where
  stop_le : n.stop ≤ s.size
  ordered : InOrder n.start (n.children.map Node.span) n.stop
  fields : n.FieldsFit
  literal : n.named = false → s.IsLiteral n

/-- What holds of every node below the root of a tree. -/
structure FormedBelow (s : Session) (n : Node) : Prop extends s.Formed n where
  kind : n.named = true → n.kind ∈ s.grammar.nodeKinds

/-- A node without children, other than a literal. -/
theorem formed_leaf {n : Node} (hnamed : n.named = true) (hc : n.children = []) (hf : n.fields = [])
    (hle : n.start ≤ n.stop) (hstop : n.stop ≤ s.size) : s.Formed n := by
  refine ⟨hstop, ?_, Node.fieldsFit_of_nil hf, fun h => ?_⟩
  · rw [hc]
    exact hle
  · rw [hnamed] at h
    cases h

theorem formedBelow_error {start stop : Nat} {expected : List String} (hle : start ≤ stop)
    (hstop : stop ≤ s.size) : s.FormedBelow (Node.error start stop expected) :=
  ⟨formed_leaf rfl rfl rfl hle hstop, fun _ => List.mem_append_right _ (List.mem_singleton.2 rfl)⟩

/-! ## Matches -/

/-- A match whose items lie in it one after another, with nodes as they should be. -/
structure FormedMatch (s : Session) (m : Match) : Prop where
  stop_le : m.stop ≤ s.size
  ordered : InOrder m.start (m.items.map (·.1.span)) m.stop
  nodes : m.Throughout s.FormedBelow

theorem formedMatch_empty {pos : Nat} (h : pos ≤ s.size) : s.FormedMatch (.empty pos) :=
  ⟨h, Nat.le_refl pos, .nil⟩

namespace FormedMatch

variable {m left right : Match}

theorem withFields (h : s.FormedMatch m) (names : List String) :
    s.FormedMatch (m.withFields names) := by
  refine ⟨h.stop_le, ?_, (Match.throughout_withFields names).2 h.nodes⟩
  have hspans : (m.withFields names).items.map (·.1.span) = m.items.map (·.1.span) := by
    unfold Match.withFields
    rw [List.map_map]
    rfl
  rw [hspans]
  exact h.ordered

theorem join (hl : s.FormedMatch left) (hr : s.FormedMatch right) (hle : left.stop ≤ right.start) :
    s.FormedMatch (left.join right) := by
  refine ⟨hr.stop_le, ?_, Match.throughout_join.2 ⟨hl.nodes, hr.nodes⟩⟩
  unfold Match.join
  rw [List.map_append]
  exact hl.ordered.append (hr.ordered.of_le hle)

/-- The items of a match under one node. -/
theorem formed_ofItems (h : s.FormedMatch m) (kind : String) :
    s.Formed (Node.ofItems kind m.items m.start m.stop) := by
  refine ⟨h.stop_le, ?_, Node.fieldsFit_ofItems kind m.items m.start m.stop, nofun⟩
  show InOrder m.start ((m.items.map (·.1)).map Node.span) m.stop
  rw [List.map_map]
  exact h.ordered

/-- A match with one node that lies in it in place of its nodes. -/
theorem single (h : s.FormedMatch m) {x : Item} (hx : InOrder m.start [x.1.span] m.stop)
    (hnodes : Node.Throughout s.FormedBelow [x.1]) : s.FormedMatch { m with items := [x] } :=
  ⟨h.stop_le, hx, hnodes⟩

theorem wrap (h : s.FormedMatch m) {kind : String} (hk : kind ∈ s.grammar.nodeKinds) :
    s.FormedMatch (m.wrap kind) :=
  h.single ⟨Nat.le_refl _, h.ordered.le, Nat.le_refl _⟩
    (Match.throughout_wrap h.nodes ⟨h.formed_ofItems kind, fun _ => hk⟩)

theorem rename (h : s.FormedMatch m) (content : Production) {kind : String}
    (hk : kind ∈ s.grammar.nodeKinds) : s.FormedMatch (m.rename content kind) := by
  obtain ⟨node, names, hitems, _, heq⟩ | heq := Match.rename_cases content kind m <;> rw [heq]
  · have hordered := h.ordered
    have hnodes := h.nodes
    unfold Match.Throughout at hnodes
    rw [hitems] at hordered hnodes
    obtain ⟨hnode, hbelow⟩ := Node.Throughout.single_iff.1 hnodes
    refine h.single hordered (Node.Throughout.single_iff.2 ⟨⟨?_, fun _ => hk⟩, hbelow⟩)
    exact ⟨hnode.stop_le, hnode.ordered, hnode.fields, nofun⟩
  · exact h.wrap hk

theorem finish (h : s.FormedMatch m) {rule : String} (hr : rule ∈ s.grammar.rules.names) :
    s.FormedMatch (m.finish rule) := by
  have hk : Match.isHidden rule = false → rule ∈ s.grammar.nodeKinds := by
    intro hvisible
    simp only [Grammar.nodeKinds, List.mem_append, List.mem_filter]
    exact Or.inl (Or.inl (Or.inr ⟨hr, by simpa using hvisible⟩))
  obtain ⟨_, heq⟩ | ⟨hvisible, heq | ⟨node, names, hitems, _, heq⟩⟩ :=
    Match.finish_cases rule m <;> rw [heq]
  · exact h
  · exact h.wrap (hk hvisible)
  · have hordered := h.ordered
    rw [hitems] at hordered
    have hstop : node.stop ≤ m.stop := hordered.2.2
    refine h.single hordered (Node.Throughout.single_iff.2 ⟨⟨?_, fun _ => hk hvisible⟩, .nil⟩)
    exact formed_leaf rfl rfl rfl hordered.2.1 (Nat.le_trans hstop h.stop_le)

theorem dress (h : s.FormedMatch m) {a : Alternative}
    (hk : ∀ kind, a.kind = some kind → kind ∈ s.grammar.nodeKinds) :
    s.FormedMatch (Session.dress a m) := by
  obtain ⟨layered, ⟨_, heq⟩ | ⟨kind, hkind, heq⟩⟩ := Session.dress_cases a m <;> rw [heq]
  · exact ⟨h.stop_le, h.ordered, h.nodes⟩
  · have hmarked : s.FormedMatch { m with layered := layered } := ⟨h.stop_le, h.ordered, h.nodes⟩
    exact hmarked.wrap (hk kind hkind)

end FormedMatch

theorem formedMatch_literal (hb : s.table.Built) {value : String} {pos : Nat} {m : Match}
    (h : s.matchLiteral value pos = some m) : s.FormedMatch m := by
  obtain ⟨l, hl, rfl, rfl⟩ := matchLiteral_eq_some h
  have hlit := literalAt_eq_ofText hb hl
  have hchars : l.chars.length = l.text.length := by
    rw [hlit]
    exact String.length_toList
  have hstop := literalAt_length_le hl
  have hlt : s.skip pos ≤ s.skip pos + l.chars.length := Nat.le_add_right _ _
  refine ⟨hstop, ⟨Nat.le_refl _, hlt, Nat.le_refl _⟩, Node.Throughout.single_iff.2 ⟨⟨?_, nofun⟩, .nil⟩⟩
  refine ⟨hstop, hlt, Node.fieldsFit_of_nil rfl, fun _ => ⟨rfl, ?_, ?_⟩⟩
  · exact hl.trans (congrArg some hlit)
  · exact congrArg (s.skip pos + ·) hchars

theorem formedMatch_token {name : String} {t : Token} {pos : Nat} {m : Match}
    (ht : s.grammar.tokens.get? name = some t) (h : s.matchToken name t pos = some m) :
    s.FormedMatch m := by
  obtain ⟨stop, hstop, hlt, _, rfl⟩ := matchToken_eq_some h
  have hle : stop ≤ s.size := Token.matchAt_le_size hstop
  have hlt := Nat.le_of_lt hlt
  refine ⟨hle, ⟨Nat.le_refl _, hlt, Nat.le_refl _⟩, Node.Throughout.single_iff.2 ⟨⟨?_, ?_⟩, .nil⟩⟩
  · exact formed_leaf rfl rfl rfl hlt hle
  · intro _
    simp only [Grammar.nodeKinds, List.mem_append]
    exact Or.inl (Or.inl (Or.inl (NameTable.mem_names_of_get? ht)))

/-! ## Matches in a row -/

/-- A run whose items lie one after another, with nodes as they should be. -/
structure FormedRun (s : Session) (r : Run) : Prop where
  cursor_le : r.cursor ≤ s.size
  ordered : InOrder (r.start.getD r.origin) (r.items.reverse.map (·.1.span)) r.cursor
  of_none : r.start = none → r.items = []
  nodes : r.Throughout s.FormedBelow

theorem formedRun_begin {pos : Nat} (h : pos ≤ s.size) : s.FormedRun (.begin pos) :=
  ⟨h, Nat.le_refl pos, fun _ => rfl, Run.throughout_begin pos⟩

namespace FormedRun

variable {r : Run} {m : Match}

/-- A run goes on with items that lie after it; the first ones decide where it starts. -/
theorem ordered_append (h : s.FormedRun r) {start stop : Nat} {spans : List (Nat × Nat)}
    (hle : r.cursor ≤ start) (hspans : InOrder start spans stop) :
    InOrder (r.start.getD start) (r.items.reverse.map (·.1.span) ++ spans) stop := by
  have hordered := h.ordered
  cases hs : r.start with
  | none =>
    rw [h.of_none hs]
    exact hspans
  | some p =>
    rw [hs] at hordered
    exact hordered.append (hspans.of_le hle)

theorem take (h : s.FormedRun r) (hm : s.FormedMatch m) (hle : r.cursor ≤ m.start) :
    s.FormedRun (r.take m) := by
  refine ⟨hm.stop_le, ?_, nofun, h.nodes.take hm.nodes⟩
  have happend := h.ordered_append hle hm.ordered
  unfold Run.take
  rw [List.reverse_append, List.reverse_reverse, List.map_append]
  exact happend

theorem push (h : s.FormedRun r) (hm : s.FormedMatch m) (hle : r.cursor ≤ m.start) :
    s.FormedRun (r.push m) := by
  unfold Run.push
  split
  · exact ⟨h.cursor_le, h.ordered, h.of_none, h.nodes⟩
  · exact h.take hm hle

theorem pushError (h : s.FormedRun r) {start stop : Nat} {expected : List String}
    (hle : r.cursor ≤ start) (hspan : start ≤ stop) (hstop : stop ≤ s.size) :
    s.FormedRun (r.pushError start stop expected) := by
  refine ⟨hstop, ?_, nofun, h.nodes.pushError (formedBelow_error hspan hstop)⟩
  have hregion : InOrder start [(start, stop)] stop := ⟨Nat.le_refl _, hspan, Nat.le_refl _⟩
  have happend := h.ordered_append hle hregion
  unfold Run.pushError
  rw [List.reverse_cons, List.map_append]
  exact happend

theorem toMatch (h : s.FormedRun r) : s.FormedMatch r.toMatch :=
  ⟨h.cursor_le, h.ordered, h.nodes.toMatch⟩

end FormedRun

/-! ## What the engine finds -/

/-- What a match should be for each kind of task, where the productions of the task give kinds that
the grammar knows. -/
def Task.Formed (s : Session) : Task → Match → Prop
  | .production p pos, m => p.kinds ⊆ s.grammar.aliasKinds → pos ≤ s.size → s.FormedMatch m
  | .items ps run, m => (∀ p ∈ ps, p.kinds ⊆ s.grammar.aliasKinds) → s.FormedRun run →
      s.FormedMatch m
  | .rounds content _ _ _ run, m => content.kinds ⊆ s.grammar.aliasKinds → s.FormedRun run →
      s.FormedMatch m
  | .element _ _ e pos, m => e.body.kinds ⊆ s.grammar.aliasKinds → pos ≤ s.size → s.FormedMatch m
  | .elements _ _ es run, m => (∀ e ∈ es, e.body.kinds ⊆ s.grammar.aliasKinds) → s.FormedRun run →
      s.FormedMatch m
  | .growth _ _ left, m => s.FormedMatch left → s.FormedMatch m
  | .rule key, m => key.pos ≤ s.size → s.FormedMatch m

theorem mem_nodeKinds {kind : String} (h : kind ∈ s.grammar.aliasKinds) :
    kind ∈ s.grammar.nodeKinds := by
  simp only [Grammar.nodeKinds, List.mem_append]
  exact Or.inl (Or.inr h)

/-- The kinds of a production are those below it. -/
theorem kinds_of_mem {p q : Production} {K : List String} (h : p.kinds ⊆ K)
    (hq : ∀ r ∈ q.walk, r ∈ p.walk) : q.kinds ⊆ K :=
  fun _ hk => h (Production.kinds_subset hq hk)

/-- **Every match has well-formed nodes.** -/
theorem Yields.formed (hb : s.table.Built) {t : Task} {m : Match} (h : s.Yields t m) :
    t.Formed s m := by
  induction h with
  | lit h => exact fun _ _ => formedMatch_literal hb h
  | token ht h => exact fun _ _ => formedMatch_token ht h
  | ref _ _ ih => exact fun _ hpos => ih hpos
  | seq _ ih =>
    intro hk hpos
    refine ih (fun p hp => kinds_of_mem hk fun r hr => ?_) (formedRun_begin hpos)
    exact List.mem_cons_of_mem _ (Production.mem_walkAll.2 ⟨p, hp, hr⟩)
  | choice hp _ ih =>
    intro hk
    exact ih (kinds_of_mem hk fun r hr =>
      List.mem_cons_of_mem _ (Production.mem_walkAll.2 ⟨_, hp, hr⟩))
  | rep _ ih =>
    intro hk hpos
    exact ih (kinds_of_mem hk fun r => List.mem_cons_of_mem _) (formedRun_begin hpos)
  | opt _ ih => exact fun hk => ih (kinds_of_mem hk fun r => List.mem_cons_of_mem _)
  | omitted => exact fun _ hpos => formedMatch_empty hpos
  | blank => exact fun _ hpos => formedMatch_empty hpos
  | field _ ih =>
    intro hk hpos
    exact (ih (kinds_of_mem hk fun r => List.mem_cons_of_mem _) hpos).withFields _
  | @renamed content kind _ _ _ ih =>
    intro hk hpos
    have hkind : kind ∈ s.grammar.aliasKinds :=
      hk (Production.mem_kinds.2 ⟨content, List.mem_cons_self⟩)
    exact (ih (kinds_of_mem hk fun r => List.mem_cons_of_mem _) hpos).rename _ (mem_nodeKinds hkind)
  | prec _ ih => exact fun hk => ih (kinds_of_mem hk fun r => List.mem_cons_of_mem _)
  | itemsDone => exact fun _ hr => hr.toMatch
  | itemsNext h _ ih ih' =>
    intro hk hr
    obtain ⟨hp, hps⟩ := List.forall_mem_cons.1 hk
    exact ih' hps (hr.push (ih hp hr.cursor_le) h.proper.le_start)
  | roundsDone _ => exact fun _ hr => hr.toMatch
  | round h _ _ ih ih' =>
    intro hk hr
    exact ih' hk (hr.take (ih hk hr.cursor_le) h.proper.le_start)
  | region hspan _ ih' =>
    intro hk hr
    obtain ⟨h1, h2, _, h4⟩ := errorSpan_advances hspan
    exact ih' hk (hr.pushError h1 h2 h4)
  | selfElement _ _ ih => exact fun _ hpos => (ih hpos).withFields _
  | bodyElement _ _ ih => exact ih
  | elementsDone => exact fun _ hr => hr.toMatch
  | elementsNext h _ ih ih' =>
    intro hk hr
    obtain ⟨he, hes⟩ := List.forall_mem_cons.1 hk
    have hproper : Match.Proper _ _ _ := h.proper
    exact ih' hes (hr.push (ih he hr.cursor_le) hproper.le_start)
  | grown => exact fun h => h
  | grow ht ha _ h _ _ ih ih' =>
    intro hleft
    have hoffers := (hb.offers_growing ht ha).1
    have hright := ih (fun e he => hoffers.kinds_element (List.mem_of_mem_drop he))
      (formedRun_begin hleft.stop_le)
    have hle := (h.proper (Run.proper_begin _ _)).le_start
    exact ih' (((hleft.withFields _).join hright hle).dress fun _ hk =>
      mem_nodeKinds (hoffers.kind_mem hk))
  | rule ht ha _ _ ih ih' =>
    intro hpos
    have hoffers := (hb.offers_seed ht ha).1
    have hseed := ih (fun e he => hoffers.kinds_element he) (formedRun_begin hpos)
    have hrule := hb.names_rules ▸ NameTable.mem_names_of_get? ht
    exact (ih' (hseed.dress fun _ hk => mem_nodeKinds (hoffers.kind_mem hk))).finish hrule

end Session

end LayeredGrammar
