import LayeredGrammar.Proofs.Engine.Scans
import LayeredGrammar.Proofs.Engine.Tracking
import LayeredGrammar.Proofs.Grammar.Masks
import LayeredGrammar.Proofs.Grammar.Stacked

/-!
# A session and one with a layer more

Two sessions over one text, of which the second has a layer of new rules and extensions on top of the
layers of the first. A rule of the first session has the same alternatives in the second one, and then
those that the layer adds (`Session.widened_of_stacked`). If the sessions scan the text in the same
way, trees can be compared up to what was expected at error regions (`Session.upToExpected`): the
layer adds to what can stand there. An error region that got the kind of a hidden rule's reference
keeps what was expected there, so this goes for those too (`Node.forget`, `Grammar.masks`).
-/

namespace LayeredGrammar

/-! ## Trees without what was expected -/

namespace Node

mutual

/-- A tree without what was expected at the nodes that can stand for an error region under the given
masks. -/
def forget (masks : List String) : Node → Node
  | ⟨kind, start, stop, children, named, fields, expected⟩ =>
    ⟨kind, start, stop, forgetAll masks children, named, fields,
      if isSuspect masks ⟨kind, start, stop, children, named, fields, expected⟩ then []
      else expected⟩

/-- Trees without what was expected at their error regions. -/
def forgetAll (masks : List String) : List Node → List Node
  | [] => []
  | n :: ns => forget masks n :: forgetAll masks ns

end

variable {masks : List String}

theorem forgetAll_eq_map (ns : List Node) : forgetAll masks ns = ns.map (forget masks) := by
  induction ns with
  | nil => rfl
  | cons n ns ih => rw [forgetAll, ih, List.map_cons]

/-- Whether a node can stand for an error region does not depend on what was expected there. -/
theorem isSuspect_congr {n n' : Node} (hkind : n.kind = n'.kind) (hnamed : n.named = n'.named)
    (hchildren : n.children.isEmpty = n'.children.isEmpty) :
    n.isSuspect masks = n'.isSuspect masks := by
  unfold isSuspect isError
  rw [hkind, hnamed, hchildren]

theorem forget_eq (n : Node) : n.forget masks = { n with
    children := n.children.map (forget masks)
    expected := if n.isSuspect masks then [] else n.expected } := by
  obtain ⟨kind, start, stop, children, named, fields, expected⟩ := n
  rw [forget, forgetAll_eq_map]

theorem forget_eq_iff {n n' : Node} : n.forget masks = n'.forget masks ↔
    n.kind = n'.kind ∧ n.start = n'.start ∧ n.stop = n'.stop ∧ n.named = n'.named ∧
    n.fields = n'.fields ∧
    List.Forall₂ (fun c c' => c.forget masks = c'.forget masks) n.children n'.children ∧
    (n.isSuspect masks = true ∨ n.expected = n'.expected) := by
  have hchildren : List.Forall₂ (fun c c' => c.forget masks = c'.forget masks) n.children
      n'.children ↔ n.children.map (forget masks) = n'.children.map (forget masks) := by
    rw [← List.forall₂_eq_eq_eq, List.forall₂_map_left_iff, List.forall₂_map_right_iff]
  rw [forget_eq, forget_eq, Node.mk.injEq, hchildren]
  constructor
  · rintro ⟨hkind, hstart, hstop, hall, hnamed, hfields, hexpected⟩
    have hsuspect : n.isSuspect masks = n'.isSuspect masks :=
      isSuspect_congr hkind hnamed (isEmpty_eq_of_forall₂ (hchildren.2 hall))
    refine ⟨hkind, hstart, hstop, hnamed, hfields, hall, ?_⟩
    rw [← hsuspect] at hexpected
    split at hexpected
    · exact Or.inl ‹_›
    · exact Or.inr hexpected
  · rintro ⟨hkind, hstart, hstop, hnamed, hfields, hall, hexpected⟩
    have hsuspect : n.isSuspect masks = n'.isSuspect masks :=
      isSuspect_congr hkind hnamed (isEmpty_eq_of_forall₂ (hchildren.2 hall))
    refine ⟨hkind, hstart, hstop, hall, hnamed, hfields, ?_⟩
    rw [← hsuspect]
    rcases hexpected with hregion | hsame
    · rw [if_pos hregion, if_pos hregion]
    · rw [hsame]

end Node

/-! ## Names of alternatives -/

namespace Production

/-- What names an alternative is a reference or a kind below it. -/
theorem of_label? : ∀ (p : Production) {name : String}, p.label? = some name →
    name ∈ p.references ∨ name ∈ p.kinds
  | .ref _, _, h => by
    cases h
    exact Or.inl (mem_references.2 List.mem_cons_self)
  | .renamed p _, _, h => by
    cases h
    exact Or.inr (mem_kinds.2 ⟨p, List.mem_cons_self⟩)
  | .field _ p, _, h | .prec _ p _ _, _, h => by
    refine (of_label? p h).imp (fun hmem => ?_) fun hmem => ?_
    · exact mem_references.2 (List.mem_cons_of_mem _ (mem_references.1 hmem))
    · obtain ⟨content, hmem⟩ := mem_kinds.1 hmem
      exact mem_kinds.2 ⟨content, List.mem_cons_of_mem _ hmem⟩
end Production

/-- The names that a grammar can give to alternatives: those of rules, tokens and kinds. -/
def Grammar.Knows (g : Grammar) (name : String) : Prop :=
  name ∈ g.rules.names ∨ name ∈ g.tokens.names ∨ name ∈ g.aliasKinds

instance (g : Grammar) (name : String) : Decidable (g.Knows name) :=
  inferInstanceAs (Decidable (name ∈ g.rules.names ∨ name ∈ g.tokens.names ∨ name ∈ g.aliasKinds))

/-- A grammar that builds knows the names of all alternatives of choices. -/
theorem ParseTable.Built.knows_label {t : ParseTable} (hb : t.Built) {rule name : String}
    {body p : Production} (hbody : t.grammar.rules.get? rule = some body) (hp : p ∈ body.walk)
    (h : p.label? = some name) : t.grammar.Knows name := by
  have hmem := NameTable.mem_of_get? hbody
  rcases Production.of_label? p h with hname | hname
  · have hrefs : name ∈ body.references := by
      rw [Production.mem_references] at hname ⊢
      exact Production.walk_trans body hp hname
    exact (hb.closed _ hmem name hrefs).imp id Or.inl
  · refine Or.inr (Or.inr (List.mem_flatMap.2 ⟨_, hmem, ?_⟩))
    exact Production.kinds_subset (fun r hr => Production.walk_trans body hp hr) hname

namespace ConflictRegistry

/-- Conflicts that prefer none of the given alternatives decide nothing between them. -/
theorem preferred_append {r extra : ConflictRegistry} {labels : List (Option String)}
    (h : ∀ c ∈ extra, ∀ p ∈ c.prefer, some p ∉ labels) (owner : String) :
    preferred (r ++ extra) owner labels = preferred r owner labels := by
  have hextra : extra.findSome? (decides owner (labels.filterMap id |>.filter (!·.isEmpty))) =
      none := by
    rw [List.findSome?_eq_none_iff]
    intro c hc
    unfold decides
    cases hprefer : c.prefer with
    | none => rfl
    | some p =>
      have hpresent : (labels.filterMap id |>.filter (!·.isEmpty)).contains p = false := by
        rw [List.contains_eq_mem, decide_eq_false_iff_not, List.mem_filter, List.mem_filterMap]
        rintro ⟨⟨l, hl, rfl⟩, _⟩
        exact h c hc p hprefer hl
      simp only [hpresent, Bool.false_and, Bool.false_eq_true, if_false]
  unfold preferred
  rw [List.findSome?_append, hextra, Option.or_none]

end ConflictRegistry

/-! ## The pairing -/

namespace Session

variable {s s' : Session} {reached : Nat → Prop}

/-- Nodes correspond if they differ only in what was expected at error regions. -/
def upToExpected (s : Session) (reached : Nat → Prop) : Pairing where
  node n n' := n.forget s.grammar.masks = n'.forget s.grammar.masks
  scope name := name ∈ s.grammar.rules.names
  reached := reached
  parents _ := True
  renames _ := True
  masks kind := kind ∈ s.grammar.masks
  label l := ∀ name ∈ l, s.grammar.Knows name

theorem upToExpected_ofItems (kind : String) (start stop : Nat) {items items' : List Item}
    (h : List.Forall₂ (s.upToExpected reached).item items items') :
    (s.upToExpected reached).node (.ofItems kind items start stop) (.ofItems kind items' start stop) := by
  refine Node.forget_eq_iff.2 ⟨rfl, rfl, rfl, rfl, ?_, ?_, Or.inr rfl⟩
  · have hnames : items.map (·.2) = items'.map (·.2) := by
      rw [← List.forall₂_eq_eq_eq, List.forall₂_map_left_iff, List.forall₂_map_right_iff]
      exact h.imp fun _ _ hxy => hxy.2
    have hfields : ∀ (items : List Item), (Node.ofItems kind items start stop).fields =
        (items.map (·.2)).zipIdx.flatMap fun (names, i) => names.map (·, i) := by
      intro items
      rw [List.zipIdx_map, List.flatMap_map]
      rfl
    rw [hfields, hfields, hnames]
  · show List.Forall₂ _ (items.map (·.1)) (items'.map (·.1))
    rw [List.forall₂_map_left_iff, List.forall₂_map_right_iff]
    exact h.imp fun _ _ hxy => hxy.1

/-- A node that gets another kind keeps what was expected: under a mask it is forgotten, if the node
can stand for an error region. -/
theorem upToExpected_rename {kind : String} {n n' : Node}
    (hk : kind ∈ s.grammar.masks ∨ n.expected = n'.expected)
    (h : (s.upToExpected reached).node n n') :
    (s.upToExpected reached).node { n with kind := kind, named := true }
      { n' with kind := kind, named := true } := by
  obtain ⟨_, hstart, hstop, _, hfields, hchildren, hexpected⟩ := Node.forget_eq_iff.1 h
  refine Node.forget_eq_iff.2 ⟨rfl, hstart, hstop, rfl, hfields, hchildren, ?_⟩
  rcases hk with hk | hsame
  · refine hexpected.imp_left fun hsuspect => ?_
    simp only [Node.isSuspect, Bool.and_eq_true] at hsuspect ⊢
    exact ⟨⟨trivial, hsuspect.1.2⟩, by simp [hk]⟩
  · exact Or.inr hsame

/-- What is expected at literals is always kept. -/
theorem upToExpected_expected {n n' : Node} (h : (s.upToExpected reached).node n n')
    (hnamed : n.named = false) : n.expected = n'.expected := by
  obtain ⟨_, _, _, _, _, _, hsuspect | hexpected⟩ := Node.forget_eq_iff.1 h
  · simp [Node.isSuspect, hnamed] at hsuspect
  · exact hexpected

theorem upToExpected_error (start stop : Nat) (expected expected' : List String) :
    (s.upToExpected reached).node (.error start stop expected) (.error start stop expected') :=
  Node.forget_eq_iff.2 ⟨rfl, rfl, rfl, rfl, rfl, .nil, Or.inl rfl⟩

theorem upToExpected_lawful (h : ScansAlike s s' reached) (hrecover : s'.recover = s.recover)
    (hstart : s'.grammar.start = s.grammar.start)
    (hpreferred : ∀ owner labels, (∀ l ∈ labels, ∀ name ∈ l, s.grammar.Knows name) →
      s'.grammar.conflicts.preferred owner labels = s.grammar.conflicts.preferred owner labels) :
    (s.upToExpected reached).Lawful s s' where
  confined := h.confined
  size := h.size.symm
  recover := hrecover.symm
  literal value _ hpos := (h.matchLiteral value hpos).symm
  tokens _ := by rw [h.tokens]
  token name t pos := (h.matchToken name t pos).symm
  errorSpan _ hpos := (h.errorSpan hpos).symm
  skip pos := (h.skip pos).symm
  rawTokenEnd _ hpos := (h.rawTokenEnd hpos).symm
  start := hstart.symm
  preferred owner labels hlabels := (hpreferred owner labels hlabels).symm
  kind _ _ hn := (Node.forget_eq_iff.1 hn).1
  named _ _ hn := (Node.forget_eq_iff.1 hn).2.2.2.1
  span _ _ hn := ⟨(Node.forget_eq_iff.1 hn).2.1, (Node.forget_eq_iff.1 hn).2.2.1⟩
  fields _ _ hn := (Node.forget_eq_iff.1 hn).2.2.2.2.1
  children _ _ hn := (Node.forget_eq_iff.1 hn).2.2.2.2.2.1
  expected _ _ hn hnamed := upToExpected_expected hn hnamed
  leaf _ _ _ _ := rfl
  error start stop _ := upToExpected_error start stop _ _
  rootError start stop := upToExpected_error start stop _ _
  ofItems kind start stop _ _ _ hitems := upToExpected_ofItems kind start stop hitems
  rename _ _ _ _ hk hn := upToExpected_rename hk hn

/-- The alternatives of a session's own rules are admitted. -/
theorem upToExpected_admits (hb : s.table.Built) {rule : String} {a : Alternative}
    (ha : s.table.Offers rule a) : (s.upToExpected reached).AdmitsAlternative s a := by
  have hrule : ∀ e ∈ a.elements, ∀ name, Production.ref name ∈ e.body.walk →
      s.grammar.tokens.get? name = none → name ∈ s.grammar.rules.names := by
    intro e he name hname htoken
    rcases hb.closed_of_offers ha he (Production.mem_references.2 hname) with h | h
    · rw [hb.names_rules] at h
      exact h
    · exact absurd h (NameTable.get?_eq_none.1 htoken)
  have hoffers := ha
  obtain ⟨body, index, layered, p, hbody, hp, rfl⟩ := hoffers
  refine ⟨fun e he q hq => ?_, fun _ _ => trivial, fun name hname => ?_⟩
  · cases q with
    | ref name => exact hrule e he name hq
    | renamed content kind =>
      refine ⟨⟨trivial, trivial⟩, fun name hname htoken hhidden => ha.masks_element he ?_⟩
      subst hname
      have hinside : Production.ref name ∈ e.body.walk :=
        Production.walk_trans e.body hq (List.mem_cons_of_mem _ (Production.mem_walk_self _))
      have hhas : s.table.grammar.rules.has name = true :=
        NameTable.has_iff.2 (hrule e he name hinside htoken)
      refine List.mem_filterMap.2 ⟨_, hq, ?_⟩
      simp only [Production.mask?, hhas, hhidden, Bool.and_self, if_true]
    | choice members =>
      intro member hmember name hname
      have hwalk := Production.walk_of_alternative body hp (Alternative.walk_of_element he hq)
      refine hb.knows_label hbody (Production.walk_trans body hwalk ?_) hname
      exact List.mem_cons_of_mem _
        (Production.mem_walkAll.2 ⟨member, hmember, Production.mem_walk_self member⟩)
    | _ => exact trivial
  · exact hb.knows_label hbody (Production.walk_of_alternative body hp (Production.mem_walk_self p))
      hname

end Session

/-! ## Alternatives of a layer -/

namespace RuleAlternatives

/-- Alternatives that neither start with the rule itself nor are operators come last. -/
theorem ofAlternatives_append {alts extra : List Alternative}
    (h : ∀ a ∈ extra, a.startsWithSelf = false ∧ a.unary = none) :
    ofAlternatives (alts ++ extra) =
      { ofAlternatives alts with plain := (ofAlternatives alts).plain ++ extra } := by
  have hself : extra.filter (·.startsWithSelf) = [] :=
    List.filter_eq_nil_iff.2 fun a ha => by simp [(h a ha).1]
  have hother : extra.filter (!·.startsWithSelf) = extra :=
    List.filter_eq_self.2 fun a ha => by simp [(h a ha).1]
  have hpre : extra.filter (·.unary == some .prefixOp) = [] :=
    List.filter_eq_nil_iff.2 fun a ha => by simp [(h a ha).2]
  have hplain : extra.filter (!·.unary == some .prefixOp) = extra :=
    List.filter_eq_self.2 fun a ha => by simp [(h a ha).2]
  unfold ofAlternatives
  simp only [List.partition_eq_filter_filter, List.filter_append, Function.comp_def, hself, hother,
    List.append_nil, hpre, hplain]

end RuleAlternatives

namespace Session

variable {s s' : Session} {reached : Nat → Prop}

/-- The alternatives of a rule in the table of a grammar that builds. -/
theorem get?_rules (hb : s.table.Built) (rule : String) : s.table.rules.get? rule =
    (s.grammar.rules.get? rule).map fun body =>
      .ofBody rule body (ParseTable.baseCount s.grammar rule body) := by
  unfold grammar
  rw [← NameTable.get?_map s.table.grammar.rules fun name body =>
    RuleAlternatives.ofBody name body (ParseTable.baseCount s.table.grammar name body)]
  exact congrArg (NameTable.get? · rule) (congrArg ParseTable.rules hb.table)

/-- An added alternative does not start with the rule itself and is no operator. -/
def Plain (a : Alternative) : Prop := a.startsWithSelf = false ∧ a.unary = none

/-- **A rule from below has the alternatives it had, and then those of the layer.** -/
theorem widened_of_stacked {x : Layer} (hb : s.table.Built) (hb' : s'.table.Built)
    (hstack : Grammar.Stacked x s.grammar s'.grammar) {rule : String} {added : Alternative → Prop}
    (hadded : ∀ alternatives, (rule, alternatives) ∈ x.extensions →
      ∀ p ∈ Production.alternativesAll alternatives, ∀ index layered,
        added (.ofProduction rule index layered p) ∧
        Plain (.ofProduction rule index layered p))
    (hrule : rule ∈ s.grammar.rules.names) :
    Widened (s.upToExpected reached) s s' added rule := by
  have hsome : (s.grammar.rules.get? rule).isSome = true := by
    rw [Option.isSome_iff_ne_none, Ne, NameTable.get?_eq_none, not_not]
    exact hrule
  obtain ⟨body, hbody⟩ := Option.isSome_iff_exists.1 hsome
  obtain ⟨body', more, hbody', hcount, halternatives, hmore⟩ := hstack.alternatives_kept hbody
  have hextra : ∀ a ∈ (more.zipIdx body.alternatives.length).map fun x =>
      Alternative.ofProduction rule x.2
        (decide (ParseTable.baseCount s.grammar rule body ≤ x.2)) x.1,
      added a ∧ Plain a := by
    intro a ha
    obtain ⟨⟨p, i⟩, hp, rfl⟩ := List.mem_map.1 ha
    obtain ⟨alternatives, hmem, hp⟩ := hmore p (List.fst_mem_of_mem_zipIdx hp)
    exact hadded alternatives hmem p hp i _
  have htable := get?_rules hb rule
  rw [hbody, Option.map_some] at htable
  refine ⟨⟨_, _, htable, ?_, fun a ha => (hextra a ha).1, fun a ha => ?_, fun a ha => ?_⟩,
    fun _ => trivial⟩
  · rw [get?_rules hb', hbody', Option.map_some, hcount]
    unfold RuleAlternatives.ofBody
    rw [halternatives, List.zipIdx_append, List.map_append, Nat.zero_add,
      RuleAlternatives.ofAlternatives_append fun a ha => (hextra a ha).2]
  · exact upToExpected_admits hb (hb.offers_seed htable (List.mem_append.1 ha)).1
  · exact upToExpected_admits hb (hb.offers_growing htable (List.mem_append.1 ha)).1

end Session

end LayeredGrammar
