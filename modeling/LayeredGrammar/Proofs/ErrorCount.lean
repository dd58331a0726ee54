import LayeredGrammar.Proofs.Engine.Formed
import LayeredGrammar.Proofs.Grammar.Masks
import LayeredGrammar.Proofs.Soundness

/-!
# Errors are counted where they show

A match counts the error regions in it, and choices are decided by that number, while a tree shows
them as error nodes. Counting and showing go together with one exception. A renamed reference to a
rule gives its kind to the node of that rule; the match of a hidden rule can be a single error node,
which then has the kind in place of its own. So the kinds given to hidden rules mask errors
(`Grammar.masks`).

`Session.errors_of_found`: every match shows at most the errors it counts, each further one is a node
without children under a mask, and where nothing masks errors the two numbers are the same. The
invariant (`Accounted`) also keeps literals apart, which stand for no error, and matches of rules that
are not hidden, which have no errors if they are a single node without children (`Match.Solid`).
-/

namespace LayeredGrammar

/-- No rule, token, literal or renamed production has the kind of error regions. -/
structure Grammar.SparesErrors (g : Grammar) : Prop where
  rules : Node.errorKind ∉ g.rules.names
  tokens : Node.errorKind ∉ g.tokens.names
  literals : Node.errorKind ∉ g.literals
  kinds : Node.errorKind ∉ g.aliasKinds

instance (g : Grammar) : Decidable g.SparesErrors :=
  decidable_of_iff (Node.errorKind ∉ g.rules.names ∧ Node.errorKind ∉ g.tokens.names ∧
      Node.errorKind ∉ g.literals ∧ Node.errorKind ∉ g.aliasKinds)
    ⟨fun h => ⟨h.1, h.2.1, h.2.2.1, h.2.2.2⟩,
      fun h => ⟨h.rules, h.tokens, h.literals, h.kinds⟩⟩

/-- A production whose kinds are not that of error regions, and whose masks are among those given. -/
structure Production.Fits (g : Grammar) (masks : List String) (p : Production) : Prop where
  kinds : Node.errorKind ∉ p.kinds
  masks : p.masks g ⊆ masks

namespace Production.Fits

variable {g : Grammar} {masks : List String} {p q : Production}

theorem of_walk (h : p.Fits g masks) (hq : ∀ r ∈ q.walk, r ∈ p.walk) : q.Fits g masks := by
  refine ⟨fun hk => h.kinds (kinds_subset hq hk), fun kind hk => h.masks ?_⟩
  obtain ⟨r, hr, hmask⟩ := List.mem_filterMap.1 hk
  exact List.mem_filterMap.2 ⟨r, hq r hr, hmask⟩

theorem of_child (h : p.Fits g masks) (hq : q ∈ p.children) : q.Fits g masks :=
  h.of_walk fun _ hr => walk_of_child hq hr

/-- The elements of the alternatives of a grammar fit it. -/
theorem of_offers {t : ParseTable} {rule : String} {a : Alternative} {e : Element}
    (hg : t.grammar.SparesErrors) (hm : t.grammar.masks ⊆ masks) (ha : t.Offers rule a)
    (he : e ∈ a.elements) : e.body.Fits t.grammar masks :=
  ⟨fun hk => hg.kinds (ha.kinds_element he hk), fun _ hk => hm (ha.masks_element he hk)⟩

end Production.Fits

/-! ## Counting nodes -/

/-- How many of the nodes of items, and of those below them, pass a test. -/
def Item.tally (test : Node → Bool) (items : List Item) : Nat :=
  (Node.walkAll (items.map (·.1))).countP test

/-- How many error regions the items of a match show. -/
def Match.errorNodes (m : Match) : Nat := Item.tally Node.isError m.items

namespace Item

variable {test : Node → Bool}

@[simp] theorem tally_nil : tally test [] = 0 := rfl

theorem tally_append (xs ys : List Item) : tally test (xs ++ ys) = tally test xs + tally test ys := by
  unfold tally
  rw [List.map_append, Node.walkAll_append, List.countP_append]

theorem tally_single (n : Node) (names : List String) :
    tally test [(n, names)] = (if test n then 1 else 0) + (Node.walkAll n.children).countP test := by
  unfold tally
  rw [List.map_singleton, Node.walkAll_single, List.countP_cons, Nat.add_comm]

theorem tally_reverse (items : List Item) : tally test items.reverse = tally test items := by
  induction items with
  | nil => rfl
  | cons x items ih =>
    rw [List.reverse_cons, tally_append, ih, Nat.add_comm, ← tally_append]
    rfl

theorem tally_withFields (names : List String) (items : List Item) :
    tally test (items.map fun (node, own) => (node, own ++ names)) = tally test items := by
  unfold tally
  rw [List.map_map]
  rfl

end Item

/-! ## Items that account for errors -/

/-- Items that account for a number of errors: they show no more error regions, and there are at least
as many nodes that can stand for one. -/
structure Accounted (masks : List String) (items : List Item) (errors : Nat) : Prop where
  shown : Item.tally Node.isError items ≤ errors
  suspected : errors ≤ Item.tally (Node.isSuspect masks) items
  literals : ∀ x ∈ items, x.1.named = false → x.1.isError = false ∧ x.1.children = []

namespace Accounted

variable {masks : List String} {items : List Item} {errors : Nat}

theorem nil : Accounted masks [] 0 := ⟨Nat.le_refl _, Nat.le_refl _, nofun⟩

theorem append {items' : List Item} {errors' : Nat} (h : Accounted masks items errors)
    (h' : Accounted masks items' errors') :
    Accounted masks (items ++ items') (errors + errors') := by
  refine ⟨?_, ?_, ?_⟩
  · rw [Item.tally_append]
    exact Nat.add_le_add h.shown h'.shown
  · rw [Item.tally_append]
    exact Nat.add_le_add h.suspected h'.suspected
  · intro x hx
    rcases List.mem_append.1 hx with hx | hx
    · exact h.literals x hx
    · exact h'.literals x hx

theorem reverse (h : Accounted masks items errors) : Accounted masks items.reverse errors :=
  ⟨by rw [Item.tally_reverse]; exact h.shown, by rw [Item.tally_reverse]; exact h.suspected,
    fun x hx => h.literals x (List.mem_reverse.1 hx)⟩

/-- A node without children that is not an error region. -/
theorem leaf {n : Node} {names : List String} (hkind : n.isError = false) (hc : n.children = []) :
    Accounted masks [(n, names)] 0 := by
  refine ⟨?_, Nat.zero_le _, ?_⟩
  · rw [Item.tally_single, hkind, hc]
    exact Nat.le_refl 0
  · intro x hx _
    cases List.mem_singleton.1 hx
    exact ⟨hkind, hc⟩

theorem region (start stop : Nat) (expected : List String) :
    Accounted masks [(Node.error start stop expected, [])] 1 := by
  refine ⟨?_, ?_, ?_⟩
  · rw [Item.tally_single]
    exact Nat.le_refl 1
  · rw [Item.tally_single]
    exact Nat.le_refl 1
  · intro x hx hnamed
    cases List.mem_singleton.1 hx
    cases hnamed

/-- Items under one node that is not an error region. -/
theorem under {n : Node} {names : List String} (h : Accounted masks items errors)
    (hkind : n.isError = false) (hnamed : n.named = true) (hc : n.children = items.map (·.1)) :
    Accounted masks [(n, names)] errors := by
  refine ⟨?_, ?_, ?_⟩
  · rw [Item.tally_single, hkind, hc]
    have := h.shown
    unfold Item.tally at this
    simpa using this
  · rw [Item.tally_single, hc]
    exact Nat.le_trans h.suspected (Nat.le_add_left _ _)
  · intro x hx hfalse
    cases List.mem_singleton.1 hx
    rw [hnamed] at hfalse
    cases hfalse

/-- A single node takes a kind that is not that of error regions: it masks one if it is one. -/
theorem recolour {n : Node} {names : List String} {kind : String}
    (h : Accounted masks [(n, names)] errors) (hkind : kind ≠ Node.errorKind)
    (hmask : n.isSuspect masks = true → kind ∈ masks ∨ errors = 0) :
    Accounted masks [({ n with kind := kind, named := true }, names)] errors := by
  have hshown := h.shown
  have hsuspected := h.suspected
  rw [Item.tally_single] at hshown hsuspected
  have hnot : Node.isError { n with kind := kind, named := true } = false := by
    simpa [Node.isError] using hkind
  refine ⟨?_, ?_, ?_⟩
  · rw [Item.tally_single, hnot]
    exact Nat.le_trans (by simp) hshown
  · rw [Item.tally_single]
    by_cases hs : n.isSuspect masks = true
    · rcases hmask hs with hmem | hzero
      · have hnew : Node.isSuspect masks { n with kind := kind, named := true } = true := by
          simp only [Node.isSuspect, Bool.and_eq_true] at hs ⊢
          exact ⟨⟨trivial, hs.1.2⟩, by simp [hmem]⟩
        rw [hnew]
        rw [hs] at hsuspected
        exact hsuspected
      · omega
    · rw [if_neg hs] at hsuspected
      show errors ≤ _ + (Node.walkAll n.children).countP _
      omega
  · intro x hx hfalse
    cases List.mem_singleton.1 hx
    cases hfalse

end Accounted

/-! ## Matches and runs -/

namespace Match

/-- A match whose items account for its errors. -/
def Accounted (masks : List String) (m : Match) : Prop :=
  LayeredGrammar.Accounted masks m.items m.errors

/-- A match that, if it is a single node without children, has no errors. -/
def Solid (m : Match) : Prop := ∀ x, m.items = [x] → x.1.children = [] → m.errors = 0

variable {masks : List String} {m left right : Match}

theorem Accounted.withFields (h : m.Accounted masks) (names : List String) :
    (m.withFields names).Accounted masks := by
  refine ⟨?_, ?_, ?_⟩
  · exact (Item.tally_withFields names m.items).symm ▸ h.shown
  · exact (Item.tally_withFields names m.items).symm ▸ h.suspected
  · intro x hx
    obtain ⟨y, hy, rfl⟩ := List.mem_map.1 hx
    exact h.literals y hy

theorem Accounted.join (hl : left.Accounted masks) (hr : right.Accounted masks) :
    (left.join right).Accounted masks :=
  hl.append hr

theorem Accounted.wrap (h : m.Accounted masks) {kind : String} (hkind : kind ≠ Node.errorKind) :
    (m.wrap kind).Accounted masks :=
  h.under (by simpa [Node.isError, Node.ofItems] using hkind) rfl rfl

theorem Accounted.dress (h : m.Accounted masks) {a : Alternative}
    (hkind : a.kind ≠ some Node.errorKind) : (Session.dress a m).Accounted masks := by
  obtain ⟨layered, ⟨_, heq⟩ | ⟨kind, hk, heq⟩⟩ := Session.dress_cases a m <;> rw [heq]
  · exact h
  · have hmarked : { m with layered := layered }.Accounted masks := h
    exact hmarked.wrap fun herror => hkind (herror ▸ hk)

/-- Renaming the match of a hidden rule may mask an error region. -/
theorem Accounted.rename (h : m.Accounted masks) {g : Grammar} {content : Production}
    {kind : String} (hkind : kind ≠ Node.errorKind)
    (hmask : ∀ k ∈ (Production.renamed content kind).mask? g, k ∈ masks)
    (hsolid : ∀ rule, content = .ref rule → (g.rules.has rule && isHidden rule) = false →
      m.Solid) : (m.rename content kind).Accounted masks := by
  obtain ⟨node, names, hitems, hplace, heq⟩ | heq := rename_cases content kind m <;> rw [heq]
  · have hsingle : LayeredGrammar.Accounted masks [(node, names)] m.errors := hitems ▸ h
    refine hsingle.recolour hkind fun hs => ?_
    simp only [Node.isSuspect, Bool.and_eq_true, List.isEmpty_iff] at hs
    rw [hs.1.1, Bool.not_true, Bool.or_false] at hplace
    cases content with
    | ref rule =>
      cases hhidden : g.rules.has rule && isHidden rule with
      | true => exact Or.inl (hmask kind (by simp [Production.mask?, hhidden]))
      | false => exact Or.inr (hsolid rule rfl hhidden _ hitems hs.1.2)
    | _ => cases hplace
  · exact h.wrap hkind

/-- What a rule with a node of its own makes of a match. -/
theorem Accounted.finish (h : m.Accounted masks) {rule : String} (hkind : rule ≠ Node.errorKind) :
    (m.finish rule).Accounted masks ∧ (isHidden rule = false → (m.finish rule).Solid) := by
  obtain ⟨hhidden, heq⟩ | ⟨_, heq | ⟨node, names, hitems, hunnamed, heq⟩⟩ :=
    finish_cases rule m <;> rw [heq]
  · refine ⟨h, fun hvisible => ?_⟩
    rw [hhidden] at hvisible
    cases hvisible
  · refine ⟨h.wrap hkind, fun _ x hx hc => ?_⟩
    cases hx
    have hnil : m.items = [] := List.map_eq_nil_iff.1 hc
    have hle := h.suspected
    rw [hnil] at hle
    exact Nat.le_zero.1 hle
  · -- a literal accounts for no error
    have hle := h.suspected
    obtain ⟨_, hc⟩ := h.literals _ (hitems ▸ List.mem_cons_self) hunnamed
    rw [hitems, Item.tally_single, hc, Node.isSuspect, hunnamed] at hle
    have hzero : m.errors = 0 := Nat.le_zero.1 hle
    refine ⟨?_, fun _ _ _ _ => hzero⟩
    show LayeredGrammar.Accounted masks _ m.errors
    rw [hzero]
    exact .leaf (by simpa [Node.isError, Node.leaf] using hkind) rfl

end Match

namespace Run

/-- A run whose items account for its errors. -/
def Accounted (masks : List String) (r : Run) : Prop :=
  LayeredGrammar.Accounted masks r.items r.errors

variable {masks : List String} {r : Run} {m : Match}

theorem Accounted.take (h : r.Accounted masks) (hm : m.Accounted masks) :
    (r.take m).Accounted masks := by
  unfold Accounted Run.take
  rw [Nat.add_comm]
  exact (LayeredGrammar.Accounted.reverse hm).append h

theorem Accounted.push (h : r.Accounted masks) (hm : m.Accounted masks) :
    (r.push m).Accounted masks := by
  unfold Run.push
  split
  · rename_i hnil
    have hm' : LayeredGrammar.Accounted masks [] m.errors := List.isEmpty_iff.1 hnil ▸ hm
    have := LayeredGrammar.Accounted.append h hm'
    rw [List.append_nil] at this
    exact this
  · exact h.take hm

theorem Accounted.pushError (h : r.Accounted masks) (start stop : Nat) (expected : List String) :
    (r.pushError start stop expected).Accounted masks := by
  unfold Accounted Run.pushError
  rw [Nat.add_comm]
  exact (LayeredGrammar.Accounted.region start stop expected).append h

theorem Accounted.toMatch (h : r.Accounted masks) : r.toMatch.Accounted masks :=
  LayeredGrammar.Accounted.reverse h

end Run

/-! ## What the engine finds -/

namespace Session

variable {s : Session} {masks : List String}

/-- How a match accounts for its errors, for each kind of task. -/
def Task.Accounted (s : Session) (masks : List String) : Task → Match → Prop
  | .production p _, m => p.Fits s.grammar masks → m.Accounted masks ∧ ∀ rule, p = .ref rule →
      (s.grammar.rules.has rule && Match.isHidden rule) = false → m.Solid
  | .items ps run, m => (∀ p ∈ ps, p.Fits s.grammar masks) → run.Accounted masks →
      m.Accounted masks
  | .rounds content _ _ _ run, m => content.Fits s.grammar masks → run.Accounted masks →
      m.Accounted masks
  | .element _ _ e _, m => e.body.Fits s.grammar masks → m.Accounted masks
  | .elements _ _ es run, m => (∀ e ∈ es, e.body.Fits s.grammar masks) → run.Accounted masks →
      m.Accounted masks
  | .growth _ _ left, m => left.Accounted masks → m.Accounted masks
  | .rule key, m => m.Accounted masks ∧ key.rule ∈ s.grammar.rules.names ∧
      (Match.isHidden key.rule = false → m.Solid)

theorem accounted_literal (hb : s.table.Built) (hg : s.grammar.SparesErrors) {value : String}
    {pos : Nat} {m : Match} (h : s.matchLiteral value pos = some m) : m.Accounted masks := by
  obtain ⟨l, hl, rfl, rfl⟩ := matchLiteral_eq_some h
  refine .leaf ?_ rfl
  have hne : l.text ≠ Node.errorKind := fun heq => hg.literals (heq ▸ literal_mem hb hl)
  simpa [Node.isError, Node.leaf] using hne

theorem accounted_token (hg : s.grammar.SparesErrors) {name : String} {t : Token} {pos : Nat}
    {m : Match} (ht : s.grammar.tokens.get? name = some t) (h : s.matchToken name t pos = some m) :
    m.Accounted masks ∧ m.Solid := by
  obtain ⟨stop, _, _, _, rfl⟩ := matchToken_eq_some h
  refine ⟨.leaf ?_ rfl, fun _ _ _ => rfl⟩
  have hne : name ≠ Node.errorKind := fun heq => hg.tokens (heq ▸ NameTable.mem_names_of_get? ht)
  simpa [Node.isError, Node.leaf] using hne

/-- **Every match accounts for its errors.** -/
theorem Yields.accounted (hb : s.table.Built) (hg : s.grammar.SparesErrors)
    (hm : s.grammar.masks ⊆ masks) {t : Task} {m : Match} (h : s.Yields t m) :
    t.Accounted s masks m := by
  have hkind : ∀ {rule a}, s.table.Offers rule a → a.kind ≠ some Node.errorKind :=
    fun ha heq => hg.kinds (ha.kind_mem heq)
  induction h with
  | lit h => exact fun _ => ⟨accounted_literal hb hg h, nofun⟩
  | token ht h =>
    obtain ⟨haccounted, hsolid⟩ := accounted_token hg ht h
    exact fun _ => ⟨haccounted, fun _ _ _ => hsolid⟩
  | @ref name pos m _ _ ih =>
    obtain ⟨haccounted, hrule, hsolid⟩ := ih
    refine fun _ => ⟨haccounted, fun rule heq hvisible => ?_⟩
    cases heq
    rw [NameTable.has_iff.2 hrule, Bool.true_and] at hvisible
    exact hsolid hvisible
  | seq _ ih => exact fun hp => ⟨ih (fun q hq => hp.of_child hq) .nil, nofun⟩
  | choice hq _ ih => exact fun hp => ⟨(ih (hp.of_child hq)).1, nofun⟩
  | rep _ ih => exact fun hp => ⟨ih (hp.of_child List.mem_cons_self) .nil, nofun⟩
  | opt _ ih => exact fun hp => ⟨(ih (hp.of_child List.mem_cons_self)).1, nofun⟩
  | omitted => exact fun _ => ⟨.nil, nofun⟩
  | blank => exact fun _ => ⟨.nil, nofun⟩
  | field _ ih => exact fun hp => ⟨(ih (hp.of_child List.mem_cons_self)).1.withFields _, nofun⟩
  | @renamed content kind pos m _ ih =>
    intro hp
    obtain ⟨haccounted, hsolid⟩ := ih (hp.of_child List.mem_cons_self)
    refine ⟨haccounted.rename (g := s.grammar) ?_ ?_ hsolid, nofun⟩
    · rintro rfl
      exact hp.kinds (Production.mem_kinds.2 ⟨content, Production.mem_walk_self _⟩)
    · exact fun k hk => hp.masks (List.mem_filterMap.2 ⟨_, Production.mem_walk_self _, hk⟩)
  | prec _ ih => exact fun hp => ⟨(ih (hp.of_child List.mem_cons_self)).1, nofun⟩
  | itemsDone => exact fun _ hrun => hrun.toMatch
  | itemsNext _ _ ih ih' =>
    intro hps hrun
    obtain ⟨hp, hps⟩ := List.forall_mem_cons.1 hps
    exact ih' hps (hrun.push (ih hp).1)
  | roundsDone => exact fun _ hrun => hrun.toMatch
  | round _ _ _ ih ih' => exact fun hp hrun => ih' hp (hrun.take (ih hp).1)
  | region _ _ ih' => exact fun hp hrun => ih' hp (hrun.pushError _ _ _)
  | selfElement _ _ ih => exact fun _ => ih.1.withFields _
  | bodyElement _ _ ih => exact fun he => (ih he).1
  | elementsDone => exact fun _ hrun => hrun.toMatch
  | elementsNext _ _ ih ih' =>
    intro hes hrun
    obtain ⟨he, hes⟩ := List.forall_mem_cons.1 hes
    exact ih' hes (hrun.push (ih he))
  | grown => exact fun hleft => hleft
  | grow ht ha _ _ _ _ ih ih' =>
    intro hleft
    have hoffers := (hb.offers_growing ht ha).1
    have hright := ih (fun e he => .of_offers hg hm hoffers (List.mem_of_mem_drop he)) .nil
    exact ih' (((hleft.withFields _).join hright).dress (hkind hoffers))
  | @rule key _ a seed m ht ha _ _ ih ih' =>
    have hoffers := (hb.offers_seed ht ha).1
    have hrule : key.rule ∈ s.grammar.rules.names :=
      hb.names_rules ▸ NameTable.mem_names_of_get? ht
    have hseed := ih (fun e he => .of_offers hg hm hoffers he) .nil
    have hne : key.rule ≠ Node.errorKind := fun heq => hg.rules (heq ▸ hrule)
    obtain ⟨haccounted, hsolid⟩ := (ih' (hseed.dress (hkind hoffers))).finish hne
    exact ⟨haccounted, hrule, hsolid⟩

/-- Where nothing masks errors only error regions can stand for one. -/
theorem tally_suspects_nil (items : List Item) :
    Item.tally (Node.isSuspect []) items ≤ Item.tally Node.isError items := by
  refine List.countP_mono_left fun n _ hn => ?_
  simp only [Node.isSuspect, List.contains_nil, Bool.or_false, Bool.and_eq_true] at hn
  exact hn.2

/-- **The errors of a match are the error nodes it shows**, unless a hidden rule is given another kind.
Whatever a session of a grammar that builds and spares the kind of error nodes was asked for before,
if it answers a request for a rule or a production that spares it too with a match, then the match
shows at most as many error nodes as it counts, and at least as many nodes without children are error
nodes or have a kind that masks one. Where there are no masks the two numbers are the same. -/
theorem errors_of_found {layers : List Layer}
    (hb : (ParseTable.ofLayers layers).outcome = .ok s.table) (hg : s.grammar.SparesErrors)
    {limit : Nat} {history : List Request} {r : Request} {p : Production} {m : Match} {μ : Memo}
    (hp : r.production? = some p) (hkinds : Node.errorKind ∉ p.kinds)
    (hm : s.perform limit r (s.memoAfter limit history) = .ok (.found (some m)) μ) :
    m.errorNodes ≤ m.errors ∧
    m.errors ≤ Item.tally (Node.isSuspect (s.grammar.masks ++ p.masks s.grammar)) m.items ∧
    (s.grammar.masks = [] → p.masks s.grammar = [] → m.errors = m.errorNodes) := by
  have hb := ParseTable.built hb
  have hreply := replies_of_perform hm
  have hmasks : s.grammar.masks ⊆ s.grammar.masks ++ p.masks s.grammar := List.subset_append_left _ _
  have haccounted : m.Accounted (s.grammar.masks ++ p.masks s.grammar) := by
    cases r with
    | parse => cases hp
    | rule name pos minPrec =>
      cases hp
      have hy : s.Yields (.rule ⟨name, pos, minPrec⟩) m := hreply m rfl
      exact (hy.accounted hb hg hmasks).1
    | production q pos owner =>
      cases hp
      have hy : s.Yields (.production p pos) m := hreply m rfl
      exact (hy.accounted hb hg hmasks ⟨hkinds, List.subset_append_right _ _⟩).1
  refine ⟨haccounted.shown, haccounted.suspected, fun hnone hnone' => ?_⟩
  have hle := haccounted.suspected
  rw [hnone, hnone', List.append_nil] at hle
  exact Nat.le_antisymm (Nat.le_trans hle (tally_suspects_nil m.items)) haccounted.shown

/-- Words alone or in parentheses. -/
def groupLayer : Layer where
  name := "Groups"
  start := some (some "_groups")
  word := some none
  members :=
    [("word", .token none (.declare "[a-z]")),
     ("_groups", .rule none (.rep (.choice [.ref "group", .renamed (.ref "word") "name"]) 0 true)),
     ("group", .rule none (.seq [.lit "(", .ref "_groups", .lit ")"]))]

/-- A text with an error in a group and one before it. -/
theorem errors_of_found_groups : ∃ (s : Session) (m : Match) (μ : Memo),
    (ParseTable.ofLayers [groupLayer]).outcome = .ok s.table ∧ s.grammar.SparesErrors ∧
    s.text = #['a', '?', ';', '(', '?', ';', 'b', ')'] ∧
    s.perform 5 (.rule "_groups" 0 0) (s.memoAfter 5 [.parse]) = .ok (.found (some m)) μ ∧
    m.errors = 2 ∧ m.errorNodes = 2 := by
  have hrun : ((ParseTable.ofLayers [groupLayer]).outcome.toOption.any fun table =>
      let s : Session := ⟨table, true, #['a', '?', ';', '(', '?', ';', 'b', ')']⟩
      decide (s.grammar.SparesErrors ∧ s.grammar.masks = []) &&
      (Engine.value? (s.perform 5 (.rule "_groups" 0 0)) (s.memoAfter 5 [.parse])).any fun reply =>
        reply.found?.any fun m => decide (m.errors = 2)) = true := by
    decide +kernel
  obtain ⟨table, htable, hrun⟩ := Traced.exists_of_any hrun
  obtain ⟨hgrammar, hrun⟩ := Bool.and_eq_true_iff.1 hrun
  obtain ⟨hspares, hmasks⟩ := of_decide_eq_true hgrammar
  obtain ⟨reply, μ, hreply, htest⟩ := Engine.exists_of_any hrun
  obtain ⟨m, rfl, hm⟩ := Reply.exists_of_any htest
  have herrors := of_decide_eq_true hm
  obtain ⟨_, _, hsame⟩ := errors_of_found htable hspares rfl (by decide) hreply
  exact ⟨⟨table, true, #['a', '?', ';', '(', '?', ';', 'b', ')']⟩, m, μ, htable, hspares, rfl,
    hreply, herrors, (hsame hmasks rfl).symm.trans herrors⟩

/-- Items under the kind `body`, which may be an error region alone. -/
def bodyLayer : Layer where
  name := "Items"
  start := some (some "source")
  word := some none
  members :=
    [("source", .rule none (.renamed (.ref "_items") "body")),
     ("_items", .rule none (.rep (.ref "item") 0 true)),
     ("item", .rule none (.lit "a"))]

/-- Where a hidden rule is given another kind, a match can count an error that it does not show, and
a text that does not fit has a tree although errors are not allowed. -/
theorem errors_masked : ∃ (s : Session) (m : Match) (μ : Memo),
    (ParseTable.ofLayers [bodyLayer]).outcome = .ok s.table ∧ s.grammar.SparesErrors ∧
    s.text = #['b'] ∧ s.perform 5 (.rule "source" 0 0) {} = .ok (.found (some m)) μ ∧
    (m.errors = 1 ∧ m.errorNodes = 0) ∧ ∃ tree, s.table.parse true true ['b'] 5 = .ok tree := by
  have hrun : ((ParseTable.ofLayers [bodyLayer]).outcome.toOption.any fun table =>
      let s : Session := ⟨table, true, #['b']⟩
      decide s.grammar.SparesErrors && (table.parse true true ['b'] 5).toOption.any (fun _ => true) &&
      (Engine.value? (s.perform 5 (.rule "source" 0 0)) {}).any fun reply =>
        reply.found?.any fun m => decide (m.errors = 1 ∧ m.errorNodes = 0)) = true := by
    decide +kernel
  obtain ⟨table, htable, hrun⟩ := Traced.exists_of_any hrun
  obtain ⟨hgrammar, hrun⟩ := Bool.and_eq_true_iff.1 hrun
  obtain ⟨hspares, htree⟩ := Bool.and_eq_true_iff.1 hgrammar
  obtain ⟨tree, htree, _⟩ := Except.exists_of_any htree
  obtain ⟨reply, μ, hreply, htest⟩ := Engine.exists_of_any hrun
  obtain ⟨m, rfl, hm⟩ := Reply.exists_of_any htest
  exact ⟨⟨table, true, #['b']⟩, m, μ, htable, of_decide_eq_true hspares, rfl, hreply,
    of_decide_eq_true hm, tree, htree⟩

end Session

end LayeredGrammar
