import LayeredGrammar.Proofs.Grammar.Built

/-!
# The alternatives of a table

`ParseTable.Offers` says that an alternative belongs to a rule of a table, whichever way it begins:
it comes from one of the alternatives of the rule's body. Alternatives that start a match and those
that make one grow are told apart by `Alternative.startsWithSelf`, and in the table of a grammar
that builds the elements of all of them refer to rules and tokens only.
-/

namespace LayeredGrammar

/-! ## Below a production -/

namespace Production

theorem mem_walkAll {q : Production} {ps : List Production} :
    q ∈ walkAll ps ↔ ∃ p ∈ ps, q ∈ p.walk := by
  induction ps with
  | nil => simp [walkAll]
  | cons p ps ih => simp [walkAll, ih]

theorem sizeOf_child {p q : Production} (h : q ∈ p.children) : sizeOf q < sizeOf p := by
  cases p with
  | seq items =>
    have hlt : sizeOf q < sizeOf items := List.sizeOf_lt_of_mem h
    simp only [seq.sizeOf_spec]
    omega
  | choice members =>
    have hlt : sizeOf q < sizeOf members := List.sizeOf_lt_of_mem h
    simp only [choice.sizeOf_spec]
    omega
  | rep p | opt p | field _ p | renamed p | prec _ p =>
    cases List.mem_singleton.1 h
    simp +arith
  | lit | ref | blank => cases h

/-- What passes from the productions directly below one to it holds of all. -/
@[elab_as_elim]
theorem induction_children {motive : Production → Prop}
    (step : ∀ p, (∀ q ∈ p.children, motive q) → motive p) (p : Production) : motive p :=
  step p fun q _ => induction_children step q
termination_by sizeOf p
decreasing_by exact sizeOf_child ‹_›

theorem walk_eq (p : Production) : p.walk = p :: walkAll p.children := by
  cases p <;> simp [walk, children, walkAll]

theorem mem_walk_self (p : Production) : p ∈ p.walk := walk_eq p ▸ List.mem_cons_self

theorem walk_of_child {p q : Production} (h : q ∈ p.children) : q.walk ⊆ p.walk := by
  intro r hr
  rw [walk_eq p]
  exact List.mem_cons_of_mem _ (mem_walkAll.2 ⟨q, h, hr⟩)

/-- What is below something below a production is below the production. -/
theorem walk_trans (p : Production) : ∀ {q r : Production}, q ∈ p.walk → r ∈ q.walk → r ∈ p.walk := by
  induction p using induction_children with
  | step p ih =>
    intro q r hq hr
    rw [walk_eq p] at hq
    rcases List.mem_cons.1 hq with rfl | hq
    · exact hr
    · obtain ⟨c, hc, hq⟩ := mem_walkAll.1 hq
      exact walk_of_child hc (ih c hc hq hr)

theorem mem_references {n : String} {p : Production} : n ∈ p.references ↔ .ref n ∈ p.walk := by
  unfold references
  rw [List.mem_filterMap]
  constructor
  · rintro ⟨q, hq, hn⟩
    cases q with
    | ref m =>
      cases hn
      exact hq
    | _ => cases hn
  · intro h
    exact ⟨.ref n, h, rfl⟩

/-- Inside the field names around a reference to a rule there is the reference. -/
theorem unfield_of_selfFields? {rule : String} {p : Production} {names : List String}
    (h : p.selfFields? rule = some names) : p.unfield.2 = .ref rule := by
  unfold selfFields? at h
  split at h
  · assumption
  · cases h

mutual

/-- What is below an alternative is below the body. -/
theorem walk_of_alternative : ∀ (body : Production) {a q : Production},
    a ∈ body.alternatives → q ∈ a.walk → q ∈ body.walk
  | .choice members, a, q, ha, hq =>
    List.mem_cons_of_mem _ (walkAll_of_alternative members ha hq)
  | .lit _, _, _, ha, hq | .ref _, _, _, ha, hq | .seq _, _, _, ha, hq | .rep _ _ _, _, _, ha, hq
  | .opt _, _, _, ha, hq | .blank, _, _, ha, hq | .field _ _, _, _, ha, hq
  | .renamed _ _, _, _, ha, hq | .prec _ _ _ _, _, _, ha, hq => by
    cases List.mem_singleton.1 ha
    exact hq

theorem walkAll_of_alternative : ∀ (members : List Production) {a q : Production},
    a ∈ alternativesAll members → q ∈ a.walk → q ∈ walkAll members
  | [], _, _, ha, _ => by cases ha
  | p :: ps, a, q, ha, hq => by
    rcases List.mem_append.1 ha with ha | ha
    · exact List.mem_append_left _ (walk_of_alternative p ha hq)
    · exact List.mem_append_right _ (walkAll_of_alternative ps ha hq)

end

end Production

/-! ## Alternatives -/

namespace Alternative

variable {rule : String} {p : Production}

/-- The bodies of the elements of an alternative, in a row. -/
def spine (a : Alternative) : Production := .seq (a.elements.map (·.body))

theorem walk_of_elementsOf {e : Element} {q : Production} (he : e ∈ elementsOf rule p)
    (hq : q ∈ e.body.walk) : q ∈ p.walk := by
  obtain ⟨r, hr, rfl⟩ := List.mem_map.1 he
  cases p with
  | seq items => exact List.mem_cons_of_mem _ (Production.mem_walkAll.2 ⟨r, hr, hq⟩)
  | _ =>
    cases List.mem_singleton.1 hr
    exact hq

theorem walk_of_openKind {q : Production} (hq : q ∈ (openKind p).2.walk) : q ∈ p.walk := by
  unfold openKind at hq
  split at hq
  · exact hq
  · exact List.mem_cons_of_mem _ hq
  · exact hq

/-- What is below an element is below the production of the alternative. -/
theorem walk_of_element {index : Nat} {layered : Bool} {e : Element} {q : Production}
    (he : e ∈ (ofProduction rule index layered p).elements) (hq : q ∈ e.body.walk) :
    q ∈ p.walk := by
  unfold ofProduction at he
  cases p with
  | prec value content assoc unary =>
    exact List.mem_cons_of_mem _ (walk_of_openKind (walk_of_elementsOf he hq))
  | _ => exact walk_of_openKind (walk_of_elementsOf he hq)

/-- Taking a production apart into elements changes nothing that depends neither on a precedence, nor
on a node kind, nor on a sequence of one. -/
theorem spine_transport {α : Type} (f : Production → α) (hsingle : ∀ q, f (.seq [q]) = f q)
    (hrenamed : ∀ q kind, f (.renamed q kind) = f q)
    (hprec : ∀ value q assoc unary, f (.prec value q assoc unary) = f q) {index : Nat}
    {layered : Bool} : f (ofProduction rule index layered p).spine = f p := by
  have helements : ∀ q, f (.seq ((elementsOf rule q).map (·.body))) = f q := by
    intro q
    cases q with
    | seq items =>
      unfold elementsOf
      rw [List.map_map]
      exact congrArg (fun l => f (.seq l)) (List.map_id items)
    | _ => exact hsingle _
  have hopen : ∀ q, f (openKind q).2 = f q := by
    intro q
    unfold openKind
    split
    · rfl
    · rw [hrenamed]
    · rfl
  cases p with
  | prec value content assoc unary =>
    rw [hprec]
    exact (helements _).trans (hopen content)
  | lit value => exact (helements _).trans (hopen (.lit value))
  | ref name => exact (helements _).trans (hopen (.ref name))
  | seq items => exact (helements _).trans (hopen (.seq items))
  | choice members => exact (helements _).trans (hopen (.choice members))
  | rep content least recover => exact (helements _).trans (hopen (.rep content least recover))
  | opt content => exact (helements _).trans (hopen (.opt content))
  | blank => exact (helements _).trans (hopen .blank)
  | field name content => exact (helements _).trans (hopen (.field name content))
  | renamed content kind => exact (helements _).trans (hopen (.renamed content kind))

/-- The elements know whether they refer to the rule they belong to. -/
def Knows (a : Alternative) (rule : String) : Prop :=
  ∀ e ∈ a.elements, e.selfFields = e.body.selfFields? rule

theorem knows_ofProduction {index : Nat} {layered : Bool} :
    (ofProduction rule index layered p).Knows rule := by
  intro e he
  obtain ⟨q, _, rfl⟩ := List.mem_map.1 he
  rfl

/-- An alternative that grows a match starts with a reference to the rule. -/
theorem exists_of_startsWithSelf {a : Alternative} (hk : a.Knows rule)
    (h : a.startsWithSelf = true) : ∃ e es, a.elements = e :: es ∧ e.body.unfield.2 = .ref rule := by
  unfold startsWithSelf at h
  cases hes : a.elements with
  | nil => simp [hes] at h
  | cons e es =>
    refine ⟨e, es, rfl, ?_⟩
    have he := hk e (hes ▸ List.mem_cons_self)
    simp only [hes, List.head?_cons, Option.bind_some] at h
    obtain ⟨names, hnames⟩ := Option.isSome_iff_exists.1 h
    exact Production.unfield_of_selfFields? (he.symm.trans hnames)

end Alternative

namespace RuleAlternatives

variable {alts : List Alternative} {a : Alternative}

theorem mem_of_seed (h : a ∈ (ofAlternatives alts).prefixed ∨ a ∈ (ofAlternatives alts).plain) :
    a ∈ alts ∧ a.startsWithSelf = false := by
  unfold ofAlternatives at h
  simp only [List.partition_eq_filter_filter, List.mem_filter] at h
  rcases h with ⟨⟨ha, hs⟩, _⟩ | ⟨⟨ha, hs⟩, _⟩ <;> exact ⟨ha, by simpa using hs⟩

theorem mem_of_growing
    (h : a ∈ (ofAlternatives alts).postfixed ∨ a ∈ (ofAlternatives alts).leftRec) :
    a ∈ alts ∧ a.startsWithSelf = true := by
  unfold ofAlternatives at h
  simp only [List.partition_eq_filter_filter, List.mem_filter, mem_sortBy] at h
  rcases h with ⟨⟨ha, hs⟩, _⟩ | ⟨⟨ha, hs⟩, _⟩ <;> exact ⟨ha, hs⟩

end RuleAlternatives

/-! ## Tables -/

namespace ParseTable

variable {t : ParseTable} {rule : String} {alts : RuleAlternatives}

/-- The alternatives of a rule in a table come from those of its body. -/
theorem Built.exists_body (ht : t.Built) (h : t.rules.get? rule = some alts) :
    ∃ body count, t.grammar.rules.get? rule = some body ∧
      alts = .ofBody rule body count := by
  rw [ht.table] at h
  unfold ofGrammar at h
  rw [NameTable.get?_map t.grammar.rules fun name body =>
    RuleAlternatives.ofBody name body (baseCount t.grammar name body)] at h
  obtain ⟨body, hbody, rfl⟩ := Option.map_eq_some_iff.1 h
  exact ⟨body, _, hbody, rfl⟩

/-- An alternative of a rule in a table, whichever way it begins. -/
def Offers (t : ParseTable) (rule : String) (a : Alternative) : Prop :=
  ∃ body index layered p, t.grammar.rules.get? rule = some body ∧ p ∈ body.alternatives ∧
    a = Alternative.ofProduction rule index layered p

theorem offers_of_mem {body : Production} {count : Nat} {a : Alternative}
    (hb : t.grammar.rules.get? rule = some body)
    (ha : a ∈ body.alternatives.zipIdx.map fun (p, i) =>
      Alternative.ofProduction rule i (decide (count ≤ i)) p) : t.Offers rule a := by
  obtain ⟨⟨p, i⟩, hp, rfl⟩ := List.mem_map.1 ha
  exact ⟨body, i, _, p, hb, List.fst_mem_of_mem_zipIdx hp, rfl⟩

theorem Built.offers_seed (ht : t.Built) (h : t.rules.get? rule = some alts) {a : Alternative}
    (ha : a ∈ alts.prefixed ∨ a ∈ alts.plain) : t.Offers rule a ∧ a.startsWithSelf = false := by
  obtain ⟨body, count, hb, rfl⟩ := ht.exists_body h
  obtain ⟨hmem, hs⟩ := RuleAlternatives.mem_of_seed ha
  exact ⟨offers_of_mem hb hmem, hs⟩

theorem Built.offers_growing (ht : t.Built) (h : t.rules.get? rule = some alts) {a : Alternative}
    (ha : a ∈ alts.postfixed ∨ a ∈ alts.leftRec) : t.Offers rule a ∧ a.startsWithSelf = true := by
  obtain ⟨body, count, hb, rfl⟩ := ht.exists_body h
  obtain ⟨hmem, hs⟩ := RuleAlternatives.mem_of_growing ha
  exact ⟨offers_of_mem hb hmem, hs⟩

theorem Offers.knows {a : Alternative} (h : t.Offers rule a) : a.Knows rule := by
  obtain ⟨_, _, _, _, _, _, rfl⟩ := h
  exact Alternative.knows_ofProduction

theorem Built.names_rules (ht : t.Built) : t.rules.names = t.grammar.rules.names := by
  rw [ht.table]
  unfold ofGrammar NameTable.names
  rw [List.map_map]
  rfl

/-- The elements of the alternatives refer to rules and tokens. -/
theorem Built.closed_of_offers (ht : t.Built) {a : Alternative} (ha : t.Offers rule a) {e : Element}
    (he : e ∈ a.elements) {n : String} (hn : n ∈ e.body.references) :
    n ∈ t.rules.names ∨ n ∈ t.grammar.tokens.names := by
  obtain ⟨body, index, layered, p, hb, hp, rfl⟩ := ha
  rw [ht.names_rules]
  refine ht.closed _ (NameTable.mem_of_get? hb) n ?_
  rw [Production.mem_references] at hn ⊢
  exact Production.walk_of_alternative body hp (Alternative.walk_of_element he hn)

end ParseTable

end LayeredGrammar
