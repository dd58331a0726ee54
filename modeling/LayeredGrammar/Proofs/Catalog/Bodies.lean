import LayeredGrammar.Proofs.Catalog.Lexicon
import LayeredGrammar.Proofs.Grammar.Stacked

/-!
# Rules whose bodies are known

What a rule of a ready-made grammar is made of can be read off the declarations: its alternatives are
those that the layers declare for it (`Shipped.offers_declared`), and it has some
(`Shipped.exists_seed`). That is all that is needed of the rules that matter elsewhere by name: the
start rule is one recovering repetition (`Shipped.unit`), an `if` statement may end in an `else`
clause (`Shipped.conditional`), and a statement is one node (`Shipped.statement`).

The kinds of error regions and of `if` statements belong to these alone: no literal, no token and no
renamed production has them (`Shipped.ownKind_apart`).
-/

namespace LayeredGrammar

/-! ## Rules have alternatives -/

/-- A merged rule has alternatives if every declared body has some. -/
theorem Merged.Reached.alternatives_ne_nil {layers : List Layer} {m : Merged}
    (h : Reached layers m) (hplain : ∀ l ∈ layers, l.isPlain = true)
    (hbodies : ∀ l ∈ layers, ∀ b ∈ l.bodies, b.2.alternatives ≠ []) :
    ∀ r ∈ m.rules, r.2.alternatives ≠ [] := by
  induction h with
  | start => exact nofun
  | token _ _ _ _ _ ih => exact ih
  | body _ hl hr _ _ ih =>
    intro r hmem
    rcases NameTable.mem_set hmem with rfl | hmem
    · exact hbodies _ hl _ (Layer.mem_bodies.2 hr)
    · exact ih r hmem
  | change _ hl hr hb _ hc _ ih =>
    intro r hmem
    rcases NameTable.mem_set hmem with rfl | hmem
    · obtain ⟨alternatives, rfl, _⟩ := Layer.exists_of_change (hplain _ hl) hr
      cases hc
      rw [Template.alternatives_extension]
      intro hnil
      exact ih _ (NameTable.mem_of_get? hb) (List.append_eq_nil_iff.1 hnil).1
    · exact ih r hmem
  | close _ ih => exact ih

namespace RuleAlternatives

variable {alts : List Alternative} {a : Alternative}

/-- An alternative that does not start with its rule can start a match. -/
theorem mem_seeds (ha : a ∈ alts) (hself : a.startsWithSelf = false) :
    a ∈ (ofAlternatives alts).prefixed ++ (ofAlternatives alts).plain := by
  unfold ofAlternatives
  simp only [List.partition_eq_filter_filter, List.mem_append, List.mem_filter]
  cases hunary : a.unary == some .prefixOp with
  | true => exact .inl ⟨⟨ha, by simp [hself]⟩, rfl⟩
  | false => exact .inr ⟨⟨ha, by simp [hself]⟩, by simp [hunary]⟩

end RuleAlternatives

/-- A rule with an alternative that does not start with the rule can start a match. -/
theorem ParseTable.Built.exists_seed {t : ParseTable} (ht : t.Built) {rule : String}
    {body p : Production} (hb : t.grammar.rules.get? rule = some body) (hp : p ∈ body.alternatives)
    (hself : ∀ a, t.Offers rule a → a.startsWithSelf = false) :
    ∃ alts a, t.rules.get? rule = some alts ∧ a ∈ alts.prefixed ++ alts.plain := by
  have htable : t.rules.get? rule =
      some (.ofBody rule body (baseCount t.grammar rule body)) := by
    rw [ht.table]
    unfold ofGrammar
    rw [NameTable.get?_map t.grammar.rules fun name body =>
      RuleAlternatives.ofBody name body (baseCount t.grammar name body), hb]
    rfl
  obtain ⟨i, hi⟩ := List.getElem?_of_mem hp
  have hi : (p, i) ∈ body.alternatives.zipIdx := List.mem_zipIdx_iff_getElem?.2 hi
  have hmem := List.mem_map_of_mem (f := fun q : Production × Nat =>
    Alternative.ofProduction rule q.2 (decide (baseCount t.grammar rule body ≤ q.2)) q.1) hi
  exact ⟨_, _, htable, RuleAlternatives.mem_seeds hmem (hself _ (offers_of_mem hb hmem))⟩

/-! ## Declarations -/

namespace Catalog

/-- What may follow the consequence of an `if` statement. -/
def elseClause : Production := .seq [.lit "else", .field "alternative" (.ref "_statement")]

/-- The parts of an `if` statement. -/
def conditionalParts : List Production :=
  [.lit "if", .field "condition" (.ref "parenthesized_expression"),
   .field "consequence" (.ref "_statement"), .opt elseClause]

/-- The kinds of error regions and of `if` statements. -/
def ownKinds : List String := [Node.errorKind, "if_statement"]

set_option maxRecDepth 100000 in
/-- What the rules that matter by name are made of, and what the others leave to them. -/
theorem bodies_declared :
    (∀ d ∈ declared,
      let a := Alternative.ofProduction d.1 0 false d.2
      (d.1 = "translation_unit" → a.kind = none ∧
        a.elements = [⟨.rep (.ref "_top_level_item") 0 true, none⟩]) ∧
      (d.1 = "if_statement" → a.kind = none ∧ a.elements = conditionalParts.map (⟨·, none⟩)) ∧
      (d.1 = "_statement" → a.kind = none ∧
        ∃ name ∈ ["case_statement", "_non_case_statement"], a.elements = [⟨.ref name, none⟩]) ∧
      (d.1 = "_non_case_statement" → a.kind = none ∧
        ∃ name ∈ d.2.references, Match.isHidden name = false ∧ a.elements = [⟨.ref name, none⟩]) ∧
      d.1 ≠ Node.errorKind ∧ ∀ kind ∈ ownKinds, kind ∉ d.2.literals ∧ kind ∉ d.2.kinds) ∧
    (∀ e ∈ objcLayers.flatMap Layer.tokens, e.1 ∉ ownKinds) ∧
    ∀ l ∈ objcLayers, ∀ b ∈ l.bodies, b.2.alternatives ≠ [] := by
  decide +kernel

namespace Shipped

variable {t : ParseTable} {rule : String} {a : Alternative}

/-- Every alternative of a rule is one that a layer declares for it. -/
theorem offers_declared (h : Shipped t) (ha : t.Offers rule a) : ∃ index layered p,
    (rule, p) ∈ declared ∧ a = .ofProduction rule index layered p := by
  obtain ⟨body, index, layered, p, hb, hp, rfl⟩ := ha
  exact ⟨index, layered, p, h.mem_declared hb hp, rfl⟩

/-- A rule none of whose alternatives starts with the rule can start a match. -/
theorem exists_seed (h : Shipped t) (hrule : rule ∈ t.grammar.rules.names)
    (hself : ∀ a, t.Offers rule a → a.startsWithSelf = false) :
    ∃ alts a, t.rules.get? rule = some alts ∧ a ∈ alts.prefixed ++ alts.plain := by
  obtain ⟨layers, ht, hlayers⟩ := h.exists_layers
  obtain ⟨m, hm, _, hrules, _, _⟩ := Grammar.exists_merged (ParseTable.ofLayers_eq_ok ht).1
  obtain ⟨body, hbody⟩ :=
    Option.ne_none_iff_exists'.1 fun hnone => NameTable.get?_eq_none.1 hnone hrule
  have hne : body.alternatives ≠ [] := by
    refine hm.alternatives_ne_nil (fun l hl => isPlain_layers l (hlayers hl))
      (fun l hl => bodies_declared.2.2 l (hlayers hl)) (rule, body) ?_
    exact hrules ▸ NameTable.mem_of_get? hbody
  obtain ⟨p, hp⟩ := List.exists_mem_of_ne_nil _ hne
  exact h.built.exists_seed hbody hp hself

/-- The start rule is a recovering repetition. -/
theorem unit (h : Shipped t) (ha : t.Offers "translation_unit" a) : a.kind = none ∧
    a.elements = [⟨.rep (.ref "_top_level_item") 0 true, none⟩] := by
  obtain ⟨index, layered, p, hp, rfl⟩ := h.offers_declared ha
  exact (bodies_declared.1 _ hp).1 rfl

/-- An `if` statement may end in an `else` clause. -/
theorem conditional (h : Shipped t) (ha : t.Offers "if_statement" a) : a.kind = none ∧
    a.elements = conditionalParts.map (⟨·, none⟩) := by
  obtain ⟨index, layered, p, hp, rfl⟩ := h.offers_declared ha
  exact (bodies_declared.1 _ hp).2.1 rfl

/-- A statement is a `case` statement or another one. -/
theorem statement (h : Shipped t) (ha : t.Offers "_statement" a) : a.kind = none ∧
    ∃ name ∈ ["case_statement", "_non_case_statement"], a.elements = [⟨.ref name, none⟩] := by
  obtain ⟨index, layered, p, hp, rfl⟩ := h.offers_declared ha
  exact (bodies_declared.1 _ hp).2.2.1 rfl

/-- Every statement that is no `case` statement has a node of its own. -/
theorem nonCaseStatement (h : Shipped t) (ha : t.Offers "_non_case_statement" a) :
    a.kind = none ∧
      ∃ name, Match.isHidden name = false ∧ a.elements = [⟨.ref name, none⟩] := by
  obtain ⟨index, layered, p, hp, rfl⟩ := h.offers_declared ha
  obtain ⟨hkind, name, _, hname, helements⟩ := (bodies_declared.1 _ hp).2.2.2.1 rfl
  exact ⟨hkind, name, hname, helements⟩

/-- No rule is named like an error region. -/
theorem rule_ne_error (h : Shipped t) (ha : t.Offers rule a) : rule ≠ Node.errorKind := by
  obtain ⟨index, layered, p, hp, rfl⟩ := h.offers_declared ha
  exact (bodies_declared.1 _ hp).2.2.2.2.1

/-- Neither literals nor tokens nor renamed productions have a kind of their own. -/
theorem ownKind_apart (h : Shipped t) {kind : String} (hkind : kind ∈ ownKinds) :
    kind ∉ t.grammar.literals ∧ kind ∉ t.grammar.tokens.names ∧
      kind ∉ t.grammar.aliasKinds := by
  refine ⟨fun hmem => ?_, fun hmem => ?_, fun hmem => ?_⟩
  · obtain ⟨d, hd, hvalue⟩ := h.literal_declared hmem
    exact ((bodies_declared.1 d hd).2.2.2.2.2 kind hkind).1 hvalue
  · obtain ⟨e, he, rfl⟩ := List.mem_map.1 hmem
    exact bodies_declared.2.1 e (h.token_declared he) hkind
  · obtain ⟨d, hd, hgiven⟩ := h.kind_declared hmem
    exact ((bodies_declared.1 d hd).2.2.2.2.2 kind hkind).2 hgiven

end Shipped

end Catalog

end LayeredGrammar
