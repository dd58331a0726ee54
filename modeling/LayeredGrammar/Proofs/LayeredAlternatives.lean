import LayeredGrammar.Proofs.ExtensionPoints

/-!
# Alternatives that count as layered

Whether an alternative of a base rule counts as layered is read off its position: the first ones, as
many as the rule had below the first layer that changes it, count as the base layer's own
(`ParseTable.counts_by_position`). Those are the alternatives of the base layer if all changes put what
they add after what they inherit (`ParseTable.layered_of_appending`). A change that puts an alternative
first swaps the marks (`ParseTable.layered_by_prepending`).

The count is what the first override of the rule remembers, so it is settled by the first layer that
changes the rule (`Merged.Remembers`, and `Merged.baseBody_ofLayers` for all layers above).
-/

namespace LayeredGrammar

/-! ## Changes that add at the end -/

namespace Template

mutual

/-- Whether a template puts what it adds after the inherited body. -/
def appends : Template → Bool
  | .inherited => true
  | .choice members => headAppends members
  | _ => false

/-- Whether the first of several templates puts what it adds after the inherited body. -/
def headAppends : List Template → Bool
  | [] => false
  | t :: _ => appends t

end

mutual

theorem alternatives_of_appends {body : Production} : ∀ {t : Template}, t.appends = true →
    body.alternatives <+: (t.fill body).alternatives
  | .inherited, _ => List.prefix_refl _
  | .choice _, h => alternatives_of_headAppends h

theorem alternatives_of_headAppends {body : Production} : ∀ {ts : List Template},
    headAppends ts = true → body.alternatives <+: Production.alternativesAll (fillAll body ts)
  | t :: _, h => (alternatives_of_appends (t := t) h).trans (List.prefix_append _ _)

end

theorem appends_of_changes {changes : List Override} {ts : List Template}
    (hts : List.Forall₂ (fun c t => c.outcome = .ok (some t)) changes ts)
    (h : ∀ c ∈ changes, ∀ t, c.outcome = .ok (some t) → t.appends = true) :
    ∀ t ∈ ts, t.appends = true := by
  induction hts with
  | nil => exact List.forall_mem_nil _
  | cons hc _ ih =>
    rw [List.forall_mem_cons] at h
    exact List.forall_mem_cons.2 ⟨h.1 _ hc, ih h.2⟩

theorem alternatives_of_appending {body : Production} {ts : List Template}
    (h : ∀ t ∈ ts, t.appends = true) :
    body.alternatives <+: ((chain ts).fill body).alternatives := by
  rw [fill_chain]
  induction ts generalizing body with
  | nil => exact List.prefix_refl _
  | cons t ts ih =>
    rw [List.forall_mem_cons] at h
    exact (alternatives_of_appends h.1).trans (ih h.2)

end Template

/-! ## What the first override remembers -/

namespace Merged

variable {l : Layer} {m m' : Merged} {name : String}

/-- What a layer leaves of the bodies that rules had below all overrides. -/
structure Remembers (l : Layer) (m m' : Merged) : Prop where
  same : ∀ name, (∀ c, (name, RuleEntry.change c) ∉ l.rules) → m'.baseBody name = m.baseBody name
  /-- The body that a change inherits is remembered, unless an earlier one is. -/
  changed : ∀ name c, (name, RuleEntry.change c) ∈ l.rules → ∃ body,
    m.rules.get? name = some body ∧ ∀ body', m'.baseBody name body' = m.baseBody name body

theorem remembers_addLayer {aboveBase : Bool} (h : (addLayer aboveBase m l).outcome = .ok m') :
    Remembers l m m' ∧ m'.baseRules = if aboveBase then m.baseRules else m'.rules.names := by
  have hadded := added_addLayer h
  refine ⟨⟨fun name hname => baseBody_congr (hadded.unchanged name hname).1, fun name c hc => ?_⟩,
    hadded.baseRules⟩
  obtain ⟨body, template, hbody, ⟨houtcome, _⟩, _⟩ := hadded.changed name c hc
  exact ⟨body, hbody,
    baseBody_of_recorded (hadded.recorded name c hc body template hbody houtcome).1⟩

theorem baseRules_foldlM : ∀ (ls : List Layer) (m m' : Merged),
    (ls.foldlM (addLayer true) m).outcome = .ok m' → m'.baseRules = m.baseRules
  | [], _, _, h => by
    cases h
    rfl
  | l :: ls, m, m', h => by
    rw [List.foldlM_cons] at h
    obtain ⟨next, hnext, h⟩ := Traced.outcome_bind.1 h
    rw [baseRules_foldlM ls next m' h]
    exact (remembers_addLayer hnext).2

/-- Layers that do not change a rule remember nothing of it. -/
theorem baseBody_of_unchanged : ∀ (ls : List Layer) (m m' : Merged),
    (ls.foldlM (addLayer true) m).outcome = .ok m' →
    (∀ l ∈ ls, ∀ c, (name, RuleEntry.change c) ∉ l.rules) → m'.baseBody name = m.baseBody name
  | [], _, _, h, _ => by
    cases h
    rfl
  | l :: ls, m, m', h, hls => by
    rw [List.forall_mem_cons] at hls
    rw [List.foldlM_cons] at h
    obtain ⟨next, hnext, h⟩ := Traced.outcome_bind.1 h
    rw [baseBody_of_unchanged ls next m' h hls.2]
    exact (remembers_addLayer hnext).1.same name hls.1

/-- A body that is remembered stays so. -/
theorem baseBody_of_remembered {q : Production} : ∀ (ls : List Layer) (m m' : Merged),
    (ls.foldlM (addLayer true) m).outcome = .ok m' → (∀ body, m.baseBody name body = q) →
    ∀ body, m'.baseBody name body = q
  | [], _, _, h, hm => by
    cases h
    exact hm
  | l :: ls, m, m', h, hm => by
    rw [List.foldlM_cons] at h
    obtain ⟨next, hnext, h⟩ := Traced.outcome_bind.1 h
    have hremembers := (remembers_addLayer hnext).1
    refine baseBody_of_remembered ls next m' h fun body => ?_
    by_cases hchange : ∃ c, (name, RuleEntry.change c) ∈ l.rules
    · obtain ⟨c, hc⟩ := hchange
      obtain ⟨inherited, _, hkept⟩ := hremembers.changed name c hc
      rw [hkept, hm]
    · rw [hremembers.same name fun c hc => hchange ⟨c, hc⟩, hm]

/-- A rule that is changed but not replaced counts with the body it had. -/
theorem baseBody_of_unreplaced : ∀ (ls : List Layer) (m m' : Merged) (body : Production),
    (ls.foldlM (addLayer true) m).outcome = .ok m' → m.rules.get? name = some body →
    (∀ l ∈ ls, ∀ p, (name, RuleEntry.body p) ∉ l.rules) → ∀ effective,
    m'.rules.get? name = some effective → m'.baseBody name effective = m.baseBody name body
  | [], _, _, _, h, hbody, _, effective, heffective => by
    cases h
    rw [hbody] at heffective
    cases heffective
    rfl
  | l :: ls, m, m', body, h, hbody, hls, effective, heffective => by
    rw [List.forall_mem_cons] at hls
    rw [List.foldlM_cons] at h
    obtain ⟨next, hnext, h⟩ := Traced.outcome_bind.1 h
    have hremembers := (remembers_addLayer hnext).1
    have hl := extended_addLayer hnext
    by_cases hchange : ∃ c, (name, RuleEntry.change c) ∈ l.rules
    · obtain ⟨c, hc⟩ := hchange
      obtain ⟨_, _, _, _, hfilled⟩ := hl.changed name c hc
      obtain ⟨inherited, hinherited, hkept⟩ := hremembers.changed name c hc
      rw [hbody] at hinherited
      cases hinherited
      rw [baseBody_of_unreplaced ls next m' _ h hfilled hls.2 effective heffective, hkept]
    · have hname : name ∉ l.rules.map (·.1) := by
        intro hmem
        obtain ⟨⟨n, entry⟩, he, rfl⟩ := List.mem_map.1 hmem
        cases entry with
        | body p => exact hls.1 p he
        | change c => exact hchange ⟨c, he⟩
      rw [baseBody_of_unreplaced ls next m' body h ((hl.others name hname).trans hbody) hls.2
        effective heffective, hremembers.same name fun c hc => hchange ⟨c, hc⟩]

/-- The base layer changes nothing: there is nothing below it. -/
theorem base_unchanged {base : Layer} (h : (addLayer false {} base).outcome = .ok m) (name : String)
    (c : Override) : (name, RuleEntry.change c) ∉ base.rules := by
  intro hc
  obtain ⟨_, _, hnone, _⟩ := (extended_addLayer h).changed name c hc
  cases hnone

/-- The body that counts for the base alternatives of a rule: the one below the first layer that changes
it. -/
theorem baseBody_ofLayers {base : Layer} {above : List Layer}
    (h : (ofLayers (base :: above)).outcome = .ok m) (name : String) :
    ((∀ l ∈ above, ∀ c, (name, RuleEntry.change c) ∉ l.rules) →
      ∀ body, m.baseBody name body = body) ∧
    ∀ between l later, above = between ++ l :: later →
      (∀ l' ∈ between, ∀ c, (name, RuleEntry.change c) ∉ l'.rules) →
      ∀ c, (name, RuleEntry.change c) ∈ l.rules → ∃ lower previous,
        (ofLayers (base :: between)).outcome = .ok lower ∧
        lower.rules.get? name = some previous ∧ ∀ body, m.baseBody name body = previous := by
  unfold ofLayers at h
  obtain ⟨first, hfirst, h⟩ := Traced.outcome_bind.1 h
  have hnone : ∀ body, first.baseBody name body = body := by
    intro body
    rw [(remembers_addLayer hfirst).1.same name (base_unchanged hfirst name)]
    rfl
  refine ⟨fun habove body => ?_, ?_⟩
  · rw [baseBody_of_unchanged above first m h habove]
    exact hnone body
  · rintro between l later rfl hbetween c hc
    rw [List.foldlM_append] at h
    obtain ⟨lower, hlower, h⟩ := Traced.outcome_bind.1 h
    rw [List.foldlM_cons] at h
    obtain ⟨next, hnext, h⟩ := Traced.outcome_bind.1 h
    obtain ⟨previous, hprevious, hkept⟩ := (remembers_addLayer hnext).1.changed name c hc
    refine ⟨lower, previous, Traced.outcome_bind.2 ⟨first, hfirst, hlower⟩, hprevious, ?_⟩
    refine baseBody_of_remembered later next m h fun body => ?_
    rw [hkept, baseBody_of_unchanged between first lower hlower hbetween]
    exact hnone previous

end Merged

/-! ## Marks -/

namespace RuleAlternatives

/-- The alternatives of a rule, of which those of the base come first. -/
theorem ofBody_of_append {rule : String} {body : Production} {own added : List Production}
    (h : body.alternatives = own ++ added) : ofBody rule body own.length =
      ofAlternatives
        (own.zipIdx.map (fun (p, i) => .ofProduction rule i false p) ++
          (added.zipIdx own.length).map (fun (p, i) => .ofProduction rule i true p)) := by
  unfold ofBody
  rw [h, List.zipIdx_append, List.map_append, Nat.zero_add]
  congr 2
  · refine List.map_congr_left fun (p, i) hp => ?_
    have hlt : i < own.length := List.snd_lt_of_mem_zipIdx hp
    simp only [decide_eq_false (Nat.not_le.2 hlt)]
  · refine List.map_congr_left fun (p, i) hp => ?_
    have hle : own.length ≤ i := List.le_snd_of_mem_zipIdx hp
    simp only [decide_eq_true hle]

end RuleAlternatives

/-- A base layer of one rule, open for changes. -/
def Layer.item : Layer where
  name := "Base"
  start := some (some "item")
  word := some none
  extensionPoints := ["item"]
  members := [("item", .rule none (.lit "a"))]

/-- A layer that changes that rule. -/
def Layer.changedItem (template : Template) : Layer where
  name := "Above"
  members := [("item", .override none (pure (some template)))]

namespace ParseTable

variable {base : Layer} {above : List Layer} {t : ParseTable} {name : String} {p : Production}

/-- The tables of a grammar that builds, in terms of its merged layers. -/
theorem get?_rules_ofGrammar {layers : List Layer} {g : Grammar}
    (h : (Grammar.ofLayers layers).outcome = .ok g) : ∃ m,
      (Merged.ofLayers layers).outcome = .ok m ∧ (g.rules = m.rules ∧ g.overrides = m.overrides) ∧
      ∀ name body, m.rules.get? name = some body → (ofGrammar g).rules.get? name =
        some (.ofBody name body (if (sortedNames m.baseRules).contains name then
          (m.baseBody name body).alternatives.length else 0)) := by
  obtain ⟨m, hm, ⟨hrules, _, _, hbases, hover⟩, _⟩ := Grammar.parts_of_ofLayers h
  refine ⟨m, hm, ⟨hrules, hover⟩, fun name body hbody => ?_⟩
  unfold ofGrammar
  rw [NameTable.get?_map g.rules fun name body =>
    RuleAlternatives.ofBody name body (baseCount g name body), hrules, hbody, Option.map_some,
    baseCount_eq hbases hover]

/-- What is in the table of a rule of the base layer. -/
theorem exists_rule (h : (ParseTable.ofLayers (base :: above)).outcome = .ok t)
    (hbase : (name, RuleEntry.body p) ∈ base.rules) : ∃ m effective,
      (Merged.ofLayers (base :: above)).outcome = .ok m ∧
      t.grammar.rules.get? name = some effective ∧ m.rules.get? name = some effective ∧
      t.rules.get? name =
        some (.ofBody name effective (m.baseBody name effective).alternatives.length) := by
  obtain ⟨hg, htable, _⟩ := ParseTable.ofLayers_eq_ok h
  obtain ⟨m, hm, ⟨hrules, _⟩, hrows⟩ := get?_rules_ofGrammar hg
  have hmerge := hm
  unfold Merged.ofLayers at hmerge
  obtain ⟨first, hfirst, hmerge⟩ := Traced.outcome_bind.1 hmerge
  have hown : name ∈ first.rules.names :=
    NameTable.mem_names_of_get? ((Merged.extended_addLayer hfirst).defined name p hbase).1
  have hcounted : (sortedNames m.baseRules).contains name = true := by
    rw [List.contains_iff_mem, mem_sortedNames, Merged.baseRules_foldlM above first m hmerge,
      (Merged.remembers_addLayer hfirst).2]
    exact hown
  obtain ⟨effective, heffective⟩ : ∃ effective, m.rules.get? name = some effective := by
    refine Option.ne_none_iff_exists'.1 fun hnone => ?_
    exact NameTable.get?_eq_none.1 hnone
      ((Merged.climbs_foldlM above first m hmerge).mem_names (Or.inl hown))
  refine ⟨m, effective, hm, hrules ▸ heffective, heffective, ?_⟩
  rw [htable, hrows name effective heffective, if_pos hcounted]

/-- **Alternatives count as layered by their position.** In the table of layers that build, of the
alternatives of a base rule the first ones count as the base layer's own: all of them if no layer changes
the rule, and else as many as the rule had below the first layer that changes it. -/
theorem counts_by_position (h : (ParseTable.ofLayers (base :: above)).outcome = .ok t)
    (hbase : (name, RuleEntry.body p) ∈ base.rules) : ∃ effective own,
      t.grammar.rules.get? name = some effective ∧
      t.rules.get? name = some (.ofBody name effective own) ∧
      ((∀ l ∈ above, ∀ c, (name, RuleEntry.change c) ∉ l.rules) →
        own = effective.alternatives.length) ∧
      ∀ between l later, above = between ++ l :: later →
        (∀ l' ∈ between, ∀ c, (name, RuleEntry.change c) ∉ l'.rules) →
        ∀ c, (name, RuleEntry.change c) ∈ l.rules → ∃ lower previous,
          (Merged.ofLayers (base :: between)).outcome = .ok lower ∧
          lower.rules.get? name = some previous ∧ own = previous.alternatives.length := by
  obtain ⟨m, effective, hm, hrule, _, htable⟩ := exists_rule h hbase
  obtain ⟨hnone, hfirst⟩ := Merged.baseBody_ofLayers hm name
  refine ⟨effective, _, hrule, htable, fun habove => by rw [hnone habove], ?_⟩
  intro between l later hsplit hbetween c hc
  obtain ⟨lower, previous, hlower, hprevious, hkept⟩ := hfirst between l later hsplit hbetween c hc
  exact ⟨lower, previous, hlower, hprevious, by rw [hkept]⟩

/-- **The base layer's own alternatives are the unmarked ones where changes append.** In the table of
layers that build, let no layer above the base give a base rule another body, and let every change of the
rule put what it adds after what it inherits. Then the alternatives of the rule are those of the base
layer, none of them layered, followed by the added ones, all of them layered. -/
theorem layered_of_appending (h : (ParseTable.ofLayers (base :: above)).outcome = .ok t)
    (hbase : (name, RuleEntry.body p) ∈ base.rules)
    (habove : ∀ l ∈ above, ∀ q, (name, RuleEntry.body q) ∉ l.rules)
    (happends : ∀ l ∈ above, ∀ c ∈ l.changesOf name, ∀ template,
      c.outcome = .ok (some template) → template.appends = true) :
    ∃ effective added, t.grammar.rules.get? name = some effective ∧
      effective.alternatives = p.alternatives ++ added ∧
      t.rules.get? name = some (.ofAlternatives
        (p.alternatives.zipIdx.map (fun (q, i) => .ofProduction name i false q) ++
          (added.zipIdx p.alternatives.length).map (fun (q, i) => .ofProduction name i true q))) := by
  obtain ⟨m, effective, hm, hrule, heffective, htable⟩ := exists_rule h hbase
  unfold Merged.ofLayers at hm
  obtain ⟨first, hfirst, hm⟩ := Traced.outcome_bind.1 hm
  have hown := ((Merged.extended_addLayer hfirst).defined name p hbase).1
  have hcount : m.baseBody name effective = p := by
    rw [Merged.baseBody_of_unreplaced above first m p hm hown habove effective heffective,
      (Merged.remembers_addLayer hfirst).1.same name (Merged.base_unchanged hfirst name)]
    rfl
  obtain ⟨effective', heffective', ts, hts, _, hfill⟩ :=
    (Merged.climbs_foldlM above first m hm).carries hown habove
  rw [heffective] at heffective'
  cases heffective'
  have hall : ∀ template ∈ ts, template.appends = true := by
    refine Template.appends_of_changes hts fun c hc => ?_
    obtain ⟨l, hl, hc⟩ := List.mem_flatMap.1 hc
    exact happends l hl c hc
  obtain ⟨added, hadded⟩ : p.alternatives <+: ((Template.chain ts).fill p).alternatives :=
    Template.alternatives_of_appending hall
  rw [hfill] at hadded
  refine ⟨effective, added, hrule, hadded.symm, ?_⟩
  rw [htable, hcount, RuleAlternatives.ofBody_of_append hadded.symm]

/-- The table of a rule of two literals, of which the second is the layer's own. -/
theorem layered_of_appending_item : ∃ t,
    (ParseTable.ofLayers [.item, .changedItem (.extension [.lit "b"])]).outcome = .ok t ∧
    t.rules.get? "item" = some (.ofAlternatives
      [.ofProduction "item" 0 false (.lit "a"), .ofProduction "item" 1 true (.lit "b")]) := by
  have hbuild : ((ParseTable.ofLayers
      [.item, .changedItem (.extension [.lit "b"])]).outcome.toOption.any fun t =>
        decide (t.grammar.rules.get? "item" = some (.choice [.lit "a", .lit "b"]))) = true := by
    decide +kernel
  obtain ⟨t, ht, hbody⟩ := Traced.exists_of_any hbuild
  refine ⟨t, ht, ?_⟩
  obtain ⟨effective, added, heffective, halternatives, htable⟩ :=
    layered_of_appending (p := .lit "a") ht
      (List.mem_cons_self : ("item", RuleEntry.body (.lit "a")) ∈ [_])
      (List.forall_mem_singleton.2 fun q hq => nomatch
        congrArg Prod.snd (List.mem_singleton.1 hq))
      (List.forall_mem_singleton.2 fun c hc template htemplate => by
        cases List.mem_singleton.1 hc
        cases htemplate
        rfl)
  rw [of_decide_eq_true hbody] at heffective
  cases heffective
  cases List.append_cancel_left halternatives
  exact htable

/-- A change that puts its alternative first is taken for the base layer's, and the alternative of the
base layer for an added one. -/
theorem layered_by_prepending : ∃ t,
    (ParseTable.ofLayers [.item, .changedItem (.choice [.fixed (.lit "b"), .inherited])]).outcome =
      .ok t ∧
    t.rules.get? "item" = some (.ofAlternatives
      [.ofProduction "item" 0 false (.lit "b"), .ofProduction "item" 1 true (.lit "a")]) := by
  have hbuild : ((ParseTable.ofLayers
      [.item, .changedItem (.choice [.fixed (.lit "b"), .inherited])]).outcome.toOption.any fun t =>
        decide (t.rules.get? "item" = some (.ofAlternatives
          [.ofProduction "item" 0 false (.lit "b"), .ofProduction "item" 1 true (.lit "a")]))) =
      true := by
    decide +kernel
  obtain ⟨t, ht, htable⟩ := Traced.exists_of_any hbuild
  exact ⟨t, ht, of_decide_eq_true htable⟩

end ParseTable

end LayeredGrammar
