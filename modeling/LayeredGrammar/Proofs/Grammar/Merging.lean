import LayeredGrammar.Grammar.ParseTable
import Mathlib.Data.List.Nodup

/-!
# What merging does

The steps of a merge are inverted once each: what holds if one of them ends in a value, and which
value that is (`Merged.addToken_eq_ok`, `Merged.addBody_eq_ok`, `Merged.applyChange_eq_ok`,
`Merged.addLayer_eq_ok`). `Merged.Added` says all that a layer does to those below it, whatever it
declares (`Merged.added_addLayer`); other modules read off it and do not look into the steps.
-/

namespace LayeredGrammar

@[simp] theorem misfit_bind {α β : Type} (fault : ConfigurationFault) (f : α → Building β) :
    (misfit fault >>= f) = misfit fault := rfl

theorem NameTable.set_eq_append {α : Type} {t : NameTable α} {name : String} {a : α}
    (h : name ∉ t.names) : t.set name a = t ++ [(name, a)] := by
  induction t with
  | nil => rfl
  | cons e t ih =>
    obtain ⟨k, b⟩ := e
    obtain ⟨hk, ht⟩ := List.ne_and_not_mem_of_not_mem_cons h
    simp only [set]
    rw [if_neg (Ne.symm hk), ih ht]
    rfl

namespace Merged

variable {l : Layer} {layer name : String} {aboveBase : Bool} {below : FirstSets} {m m' : Merged}

/-! ## Single steps -/

theorem addToken_eq_ok {t : String × Token} (h : (addToken layer m t).outcome = .ok m') :
    m.tokens.has t.1 = false ∧ m.rules.has t.1 = false ∧
      m' = { m with tokens := m.tokens.set t.1 t.2 } := by
  unfold addToken at h
  split at h
  · cases h
  · rename_i hused
    cases h
    rw [Bool.not_eq_true, Bool.or_eq_false_iff] at hused
    exact ⟨hused.1, hused.2, rfl⟩

theorem addBody_eq_ok {p : Production} (h : (m.addBody layer aboveBase name p).outcome = .ok m') :
    (m.rules.has name = true → name ∈ m.extensionPoints) ∧
      m' = { m with
        rules := m.rules.set name p
        tableRules := if aboveBase then m.tableRules ++ [name] else m.tableRules } := by
  unfold addBody at h
  simp only at h
  split at h
  · split at h
    · rw [misfit_bind] at h
      cases h
    · rename_i hpoint
      cases h
      exact ⟨fun _ => by simpa using hpoint, rfl⟩
  · rename_i hnew
    cases h
    exact ⟨fun hold => absurd hold hnew, rfl⟩

/-- The first of the entries that are added has a new name; it is a body, or left for later. -/
theorem exists_of_addRules {seen : List String} {entry : RuleEntry}
    {rest : List (String × RuleEntry)}
    (h : (addRules layer aboveBase seen m ((name, entry) :: rest)).outcome = .ok m') :
    (name ∉ seen ∧ m.tokens.has name = false) ∧ ∃ next,
      ((∃ p, entry = .body p ∧ (m.addBody layer aboveBase name p).outcome = .ok next) ∨
        ∃ c, entry = .change c ∧ next = m) ∧
      (addRules layer aboveBase (name :: seen) next rest).outcome = .ok m' := by
  unfold addRules at h
  simp only at h
  split at h
  · rw [misfit_bind] at h
    cases h
  · rename_i hseen
    split at h
    · rw [misfit_bind] at h
      cases h
    · rename_i htoken
      refine ⟨⟨by simpa using hseen, by simpa using htoken⟩, ?_⟩
      cases entry with
      | change c => exact ⟨m, Or.inr ⟨c, rfl, rfl⟩, h⟩
      | body p =>
        obtain ⟨next, hnext, h⟩ := Traced.outcome_bind.1 h
        exact ⟨next, Or.inl ⟨p, rfl, hnext⟩, h⟩

theorem applyChange_eq_ok {c : Override}
    (h : (m.applyChange layer below name c).outcome = .ok m') :
    ∃ body template, m.rules.get? name = some body ∧
      (c.outcome = .ok (some template) ∧ name ∈ m.extensionPoints ∧
        template.keepsInherited = true) ∧
      m' = { m with
        rules := m.rules.set name (template.fill body)
        overrides := m.overrides ++ [⟨name, layer, body, template.added body⟩]
        below := m.below.set name below } := by
  unfold applyChange at h
  split at h
  · rename_i body hbody
    simp only at h
    split at h
    · rw [misfit_bind] at h
      cases h
    · rename_i hpoint
      obtain ⟨found, hfound, h⟩ := Traced.outcome_bind.1 h
      split at h
      · rename_i template
        split at h
        · rw [misfit_bind] at h
          cases h
        · rename_i hkeeps
          cases h
          exact ⟨body, template, hbody,
            ⟨Traced.outcome_embed hfound, by simpa using hpoint, by simpa using hkeeps⟩, rfl⟩
      · cases h
  · cases h

/-- The stages of a layer: its tokens, its bodies, its changes and what it declares at the end. -/
theorem addLayer_eq_ok (h : (addLayer aboveBase m l).outcome = .ok m') :
    ∃ withTokens withRules changed,
      (l.tokens.foldlM (addToken l.name) m).outcome = .ok withTokens ∧
      (addRules l.name aboveBase (l.tokens.map (·.1)) withTokens l.rules).outcome = .ok withRules ∧
      (applyChanges l.name
        (if aboveBase && l.rules.any (·.2.isChange) then m.firstSets else ⟨[], []⟩)
        withRules l.rules).outcome = .ok changed ∧
      m' = { changed with
        extensionPoints := changed.extensionPoints ++ l.extensionPoints
        conflicts := changed.conflicts ++ l.conflicts
        baseRules := if aboveBase then changed.baseRules else changed.rules.names } := by
  unfold addLayer at h
  obtain ⟨withTokens, htokens, h⟩ := Traced.outcome_bind.1 h
  obtain ⟨withRules, hrules, h⟩ := Traced.outcome_bind.1 h
  obtain ⟨changed, hchanged, h⟩ := Traced.outcome_bind.1 h
  split at h
  · cases h
  · cases h
    exact ⟨withTokens, withRules, changed, htokens, hrules, hchanged, rfl⟩

/-! ## The stages of a layer -/

/-- The overrides of a rule. -/
def overridesOf (m : Merged) (name : String) : List AppliedOverride :=
  m.overrides.filter (·.rule == name)

theorem mem_overrides_of_recorded {o : AppliedOverride}
    (h : m'.overridesOf name = m.overridesOf name ++ [o]) : o ∈ m'.overrides := by
  have hmem : o ∈ m'.overridesOf name := h ▸ List.mem_append_right _ List.mem_cons_self
  exact List.mem_of_mem_filter hmem

/-- Two stages of a merge that differ in their rules only. -/
structure SameBut (m m' : Merged) : Prop where
  tokens : m'.tokens = m.tokens
  extensionPoints : m'.extensionPoints = m.extensionPoints
  conflicts : m'.conflicts = m.conflicts
  baseRules : m'.baseRules = m.baseRules

theorem SameBut.trans {m₁ m₂ m₃ : Merged} (h : SameBut m₁ m₂) (h' : SameBut m₂ m₃) :
    SameBut m₁ m₃ :=
  ⟨h'.tokens.trans h.tokens, h'.extensionPoints.trans h.extensionPoints,
    h'.conflicts.trans h.conflicts, h'.baseRules.trans h.baseRules⟩

/-- A rule keeps its body, its overrides and the first sets noted for it. -/
structure Untouched (name : String) (m m' : Merged) : Prop where
  rule : m'.rules.get? name = m.rules.get? name
  overrides : m'.overridesOf name = m.overridesOf name
  noted : m'.below.get? name = m.below.get? name

theorem Untouched.trans {m₁ m₂ m₃ : Merged} (h : Untouched name m₁ m₂)
    (h' : Untouched name m₂ m₃) : Untouched name m₁ m₃ :=
  ⟨h'.rule.trans h.rule, h'.overrides.trans h.overrides, h'.noted.trans h.noted⟩

/-- A rule is changed once: its body takes the inherited place of a template, and the change is
recorded with the first sets noted for it. -/
structure Changed (layer : String) (below : FirstSets) (name : String) (body : Production)
    (template : Template) (m m' : Merged) : Prop where
  inherited : m.rules.get? name = some body
  extensionPoint : name ∈ m.extensionPoints
  keeps : template.keepsInherited = true
  filled : m'.rules.get? name = some (template.fill body)
  recorded : m'.overridesOf name =
    m.overridesOf name ++ [⟨name, layer, body, template.added body⟩]
  noted : m'.below.get? name = some below

namespace Changed

variable {body : Production} {template : Template} {m₁ m₂ m₃ : Merged}

theorem before (h : Changed layer below name body template m₂ m₃) (h' : Untouched name m₁ m₂)
    (hpoints : m₂.extensionPoints = m₁.extensionPoints) :
    Changed layer below name body template m₁ m₃ :=
  ⟨h'.rule ▸ h.inherited, hpoints ▸ h.extensionPoint, h.keeps, h.filled,
    h'.overrides ▸ h.recorded, h.noted⟩

theorem after (h : Changed layer below name body template m₁ m₂) (h' : Untouched name m₂ m₃) :
    Changed layer below name body template m₁ m₃ :=
  ⟨h.inherited, h.extensionPoint, h.keeps, h'.rule.trans h.filled, h'.overrides.trans h.recorded,
    h'.noted.trans h.noted⟩

end Changed

/-- Adding tokens, the names of which are new. -/
theorem addTokens_eq_ok : ∀ (ts : List (String × Token)) (m m' : Merged),
    (ts.foldlM (addToken layer) m).outcome = .ok m' →
    m' = { m with tokens := m.tokens ++ ts } ∧ (m.tokens.names.Nodup → m'.tokens.names.Nodup)
  | [], m, m', h => by
    cases h
    simp
  | t :: ts, m, m', h => by
    rw [List.foldlM_cons] at h
    obtain ⟨next, hnext, h⟩ := Traced.outcome_bind.1 h
    obtain ⟨hused, _, rfl⟩ := addToken_eq_ok hnext
    rw [NameTable.has_eq_false] at hused
    obtain ⟨rfl, hnodup⟩ := addTokens_eq_ok ts _ m' h
    simp only [NameTable.set_eq_append hused, List.append_assoc, List.singleton_append] at hnodup ⊢
    refine ⟨trivial, fun hnames => hnodup ?_⟩
    simp only [NameTable.names, List.map_append, List.map_cons, List.map_nil] at hused hnames ⊢
    exact List.nodup_append'.2 ⟨hnames, List.nodup_singleton _, by simpa using hused⟩

/-- Adding the bodies of a layer: no name is used twice, each body is there afterwards and took the
place of an earlier one at extension points only, and all other rules are as before. -/
theorem addRules_eq_ok :
    ∀ (rest : List (String × RuleEntry)) (seen : List String) (m m' : Merged),
    (addRules layer aboveBase seen m rest).outcome = .ok m' →
    SameBut m m' ∧ (m'.overrides = m.overrides ∧ m'.below = m.below) ∧
    ((rest.map (·.1)).Nodup ∧ ∀ e ∈ rest, e.1 ∉ seen) ∧
    (∀ name, (∀ p, (name, RuleEntry.body p) ∉ rest) → m'.rules.get? name = m.rules.get? name) ∧
    ∀ name p, (name, RuleEntry.body p) ∈ rest →
      m'.rules.get? name = some p ∧ (name ∈ m.rules.names → name ∈ m.extensionPoints)
  | [], _, m, m', h => by
    cases h
    exact ⟨⟨rfl, rfl, rfl, rfl⟩, ⟨rfl, rfl⟩, ⟨.nil, List.forall_mem_nil _⟩, fun _ _ => rfl,
      fun _ _ hp => absurd hp List.not_mem_nil⟩
  | (name, entry) :: rest, seen, m, m', h => by
    obtain ⟨⟨hseen, _⟩, next, hnext, h⟩ := exists_of_addRules h
    obtain ⟨hsame, hover, ⟨hnodup, hfresh⟩, hothers, hbodies⟩ :=
      addRules_eq_ok rest (name :: seen) next m' h
    have hname : name ∉ rest.map (·.1) := by
      intro hmem
      obtain ⟨e, he, heq⟩ := List.mem_map.1 hmem
      exact hfresh e he (heq ▸ List.mem_cons_self)
    have hrest : ∀ p, (name, RuleEntry.body p) ∉ rest :=
      fun p hp => hname (List.mem_map.2 ⟨_, hp, rfl⟩)
    have hunused : (((name, entry) :: rest).map (·.1)).Nodup ∧
        ∀ e ∈ (name, entry) :: rest, e.1 ∉ seen := by
      refine ⟨List.nodup_cons.2 ⟨hname, hnodup⟩, List.forall_mem_cons.2 ⟨hseen, ?_⟩⟩
      exact fun e he hmem => hfresh e he (List.mem_cons_of_mem _ hmem)
    rcases hnext with ⟨q, rfl, hnext⟩ | ⟨c, rfl, rfl⟩
    · obtain ⟨hopen, rfl⟩ := addBody_eq_ok hnext
      refine ⟨⟨hsame.tokens, hsame.extensionPoints, hsame.conflicts, hsame.baseRules⟩, hover,
        hunused, fun n hn => ?_, fun n p hp => ?_⟩
      · have hne : n ≠ name := fun heq => hn q (heq ▸ List.mem_cons_self)
        rw [hothers n fun p hp => hn p (List.mem_cons_of_mem _ hp), NameTable.get?_set, if_neg hne]
      · rcases List.mem_cons.1 hp with heq | hp
        · cases heq
          rw [hothers name hrest, NameTable.get?_set, if_pos rfl]
          exact ⟨rfl, fun hold => hopen (NameTable.has_iff.2 hold)⟩
        · obtain ⟨hbody, hopen'⟩ := hbodies n p hp
          exact ⟨hbody, fun hn => hopen' (NameTable.mem_names_set.2 (Or.inr hn))⟩
    · refine ⟨hsame, hover, hunused, fun n hn => ?_, fun n p hp => ?_⟩
      · exact hothers n fun p hp => hn p (List.mem_cons_of_mem _ hp)
      · refine hbodies n p ((List.mem_cons.1 hp).resolve_left ?_)
        exact fun heq => RuleEntry.noConfusion (Prod.mk.inj heq).2

/-- A change of a rule changes it and leaves all others alone. -/
theorem changed_applyChange {c : Override}
    (h : (m.applyChange layer below name c).outcome = .ok m') :
    (∃ body template, c.outcome = .ok (some template) ∧
      Changed layer below name body template m m') ∧
    ∀ n, n ≠ name → Untouched n m m' := by
  obtain ⟨body, template, hbody, ⟨hc, hpoint, hkeeps⟩, rfl⟩ := applyChange_eq_ok h
  refine ⟨⟨body, template, hc, hbody, hpoint, hkeeps, ?_, ?_, ?_⟩, fun n hne => ⟨?_, ?_, ?_⟩⟩
  · rw [NameTable.get?_set, if_pos rfl]
  · simp [overridesOf]
  · rw [NameTable.get?_set, if_pos rfl]
  · rw [NameTable.get?_set, if_neg hne]
  · simp [overridesOf, Ne.symm hne]
  · rw [NameTable.get?_set, if_neg hne]

/-- What applying changes does, no two of which are of one rule. -/
structure Changes (layer : String) (below : FirstSets) (entries : List (String × RuleEntry))
    (m m' : Merged) : Prop where
  same : SameBut m m'
  overrides : m.overrides <+: m'.overrides
  noted : ∀ e ∈ m'.below, e ∈ m.below ∨
    (∃ c, (e.1, RuleEntry.change c) ∈ entries) ∧ e.2 = below
  untouched : ∀ name, (∀ c, (name, RuleEntry.change c) ∉ entries) → Untouched name m m'
  changed : ∀ name c, (name, RuleEntry.change c) ∈ entries → ∃ body template,
    c.outcome = .ok (some template) ∧ Changed layer below name body template m m'

theorem changes_applyChanges : ∀ (entries : List (String × RuleEntry)) (m m' : Merged),
    (entries.map (·.1)).Nodup → (applyChanges layer below m entries).outcome = .ok m' →
    Changes layer below entries m m'
  | [], m, m', _, h => by
    cases h
    exact ⟨⟨rfl, rfl, rfl, rfl⟩, List.prefix_refl _, fun _ => Or.inl, fun _ _ => ⟨rfl, rfl, rfl⟩,
      nofun⟩
  | (name, .body p) :: rest, m, m', hnodup, h => by
    have hrest := changes_applyChanges rest m m' (List.nodup_cons.1 hnodup).2 h
    refine ⟨hrest.same, hrest.overrides, fun e he => ?_, fun n hn => ?_, fun n c hc => ?_⟩
    · refine (hrest.noted e he).imp_right fun ⟨⟨c, hc⟩, hbelow⟩ => ⟨⟨c, ?_⟩, hbelow⟩
      exact List.mem_cons_of_mem _ hc
    · exact hrest.untouched n fun c hc => hn c (List.mem_cons_of_mem _ hc)
    · refine hrest.changed n c ((List.mem_cons.1 hc).resolve_left ?_)
      exact fun heq => nomatch (Prod.mk.inj heq).2
  | (name, .change c) :: rest, m, m', hnodup, h => by
    obtain ⟨hname, hnodup⟩ := List.nodup_cons.1 hnodup
    unfold applyChanges at h
    obtain ⟨next, hnext, h⟩ := Traced.outcome_bind.1 h
    have hrest := changes_applyChanges rest next m' hnodup h
    obtain ⟨⟨body, template, hc, hchanged⟩, hothers⟩ := changed_applyChange hnext
    obtain ⟨_, _, _, _, rfl⟩ := applyChange_eq_ok hnext
    -- the rule is not changed again, and the rules changed later are not this one
    have hagain : ∀ d, (name, RuleEntry.change d) ∉ rest :=
      fun d hd => hname (List.mem_map.2 ⟨_, hd, rfl⟩)
    have hlater : ∀ {n d}, (n, RuleEntry.change d) ∈ rest → n ≠ name :=
      fun hd heq => hname (List.mem_map.2 ⟨_, hd, heq⟩)
    refine ⟨⟨hrest.same.tokens, hrest.same.extensionPoints, hrest.same.conflicts,
      hrest.same.baseRules⟩, (List.prefix_append _ _).trans hrest.overrides, fun e he => ?_,
      fun n hn => ?_, fun n d hd => ?_⟩
    · rcases hrest.noted e he with he | ⟨⟨d, hd⟩, hbelow⟩
      · rcases NameTable.mem_set he with rfl | he
        · exact Or.inr ⟨⟨c, List.mem_cons_self⟩, rfl⟩
        · exact Or.inl he
      · exact Or.inr ⟨⟨d, List.mem_cons_of_mem _ hd⟩, hbelow⟩
    · have hne : n ≠ name := fun heq => hn c (heq ▸ List.mem_cons_self)
      exact (hothers n hne).trans (hrest.untouched n fun d hd => hn d (List.mem_cons_of_mem _ hd))
    · rcases List.mem_cons.1 hd with heq | hd
      · cases heq
        exact ⟨body, template, hc, hchanged.after (hrest.untouched name hagain)⟩
      · obtain ⟨body', template', hd', hchanged'⟩ := hrest.changed n d hd
        exact ⟨body', template', hd', hchanged'.before (hothers n (hlater hd)) rfl⟩

/-! ## Layers -/

/-- What a layer does to those below it. -/
structure Extended (l : Layer) (m m' : Merged) : Prop where
  tokens : m'.tokens = m.tokens ++ l.tokens
  distinct : m.tokens.names.Nodup → m'.tokens.names.Nodup
  extensionPoints : m'.extensionPoints = m.extensionPoints ++ l.extensionPoints
  /-- No rule has two entries in a layer. -/
  entries : (l.rules.map (·.1)).Nodup
  /-- A rule with a body has that body afterwards; if there was one before, it was an extension
  point. -/
  defined : ∀ name p, (name, RuleEntry.body p) ∈ l.rules →
    m'.rules.get? name = some p ∧ (name ∈ m.rules.names → name ∈ m.extensionPoints)
  /-- A changed rule was an extension point, and its body is kept in the new one. -/
  changed : ∀ name c, (name, RuleEntry.change c) ∈ l.rules → ∃ body template,
    m.rules.get? name = some body ∧
    (c.outcome = .ok (some template) ∧ name ∈ m.extensionPoints ∧
      template.keepsInherited = true) ∧
    m'.rules.get? name = some (template.fill body)
  /-- All other rules are as before. -/
  others : ∀ name, name ∉ l.rules.map (·.1) → m'.rules.get? name = m.rules.get? name

/-- All that a layer does to those below it. The first sets noted for the rules it changes are those
below it, or none at the base. -/
structure Added (aboveBase : Bool) (l : Layer) (m m' : Merged) : Prop extends Extended l m m' where
  conflicts : m'.conflicts = m.conflicts ++ l.conflicts
  baseRules : m'.baseRules = if aboveBase then m.baseRules else m'.rules.names
  overrides : m.overrides <+: m'.overrides
  noted : ∀ e ∈ m'.below, e ∈ m.below ∨ e.2 = if aboveBase then m.firstSets else ⟨[], []⟩
  /-- A change is recorded once, with the first sets noted for its rule. -/
  recorded : ∀ name c, (name, RuleEntry.change c) ∈ l.rules → ∀ body template,
    m.rules.get? name = some body → c.outcome = .ok (some template) →
    m'.overridesOf name = m.overridesOf name ++ [⟨name, l.name, body, template.added body⟩] ∧
    m'.below.get? name = some (if aboveBase then m.firstSets else ⟨[], []⟩)
  /-- Nothing is recorded or noted for a rule that is not changed. -/
  unchanged : ∀ name, (∀ c, (name, RuleEntry.change c) ∉ l.rules) →
    m'.overridesOf name = m.overridesOf name ∧ m'.below.get? name = m.below.get? name

/-- **What a layer does to those below it.** -/
theorem added_addLayer (h : (addLayer aboveBase m l).outcome = .ok m') : Added aboveBase l m m' := by
  obtain ⟨withTokens, withRules, changed, htokens, hrules, hchanges, rfl⟩ := addLayer_eq_ok h
  obtain ⟨rfl, hdistinct⟩ := addTokens_eq_ok _ _ _ htokens
  obtain ⟨hsame, ⟨hover, hbelow⟩, ⟨hnodup, _⟩, hothers, hbodies⟩ := addRules_eq_ok _ _ _ _ hrules
  have hchanges := changes_applyChanges _ _ _ hnodup hchanges
  have hall := hsame.trans hchanges.same
  -- a rule has one entry, so one with a body is not changed, nor the other way round
  have hone : ∀ {name : String} {e e' : RuleEntry}, (name, e) ∈ l.rules → (name, e') ∈ l.rules →
      e = e' := fun he he' => congrArg Prod.snd (List.inj_on_of_nodup_map hnodup he he' rfl)
  have hbelow' : ∀ {name : String} {c : Override}, (name, RuleEntry.change c) ∈ l.rules →
      (if aboveBase && l.rules.any (·.2.isChange) then m.firstSets else ⟨[], []⟩) =
        if aboveBase then m.firstSets else ⟨[], []⟩ := by
    intro name c hc
    have hany : l.rules.any (·.2.isChange) = true := List.any_eq_true.2 ⟨_, hc, rfl⟩
    rw [hany, Bool.and_true]
  have hrecords : ∀ name, withRules.overridesOf name = m.overridesOf name :=
    fun _ => congrArg (List.filter _) hover
  have huntouched : ∀ name, (∀ p, (name, RuleEntry.body p) ∉ l.rules) → Untouched name m withRules :=
    fun name hname => ⟨hothers name hname, hrecords name, congrArg (·.get? name) hbelow⟩
  have hchanged : ∀ name c, (name, RuleEntry.change c) ∈ l.rules → ∃ body template,
      c.outcome = .ok (some template) ∧
      Changed l.name (if aboveBase then m.firstSets else ⟨[], []⟩) name body template m changed := by
    intro name c hc
    obtain ⟨body, template, houtcome, h⟩ := hchanges.changed name c hc
    rw [hbelow' hc] at h
    exact ⟨body, template, houtcome,
      h.before (huntouched name fun p hp => nomatch hone hp hc) hsame.extensionPoints⟩
  exact {
    tokens := hall.tokens
    distinct := fun hnames => hall.tokens ▸ hdistinct hnames
    extensionPoints := congrArg (· ++ l.extensionPoints) hall.extensionPoints
    entries := hnodup
    defined := by
      intro name p hp
      have hkept := hchanges.untouched name fun c hc => nomatch hone hp hc
      exact ⟨hkept.rule.trans (hbodies name p hp).1, (hbodies name p hp).2⟩
    changed := by
      intro name c hc
      obtain ⟨body, template, houtcome, h⟩ := hchanged name c hc
      exact ⟨body, template, h.inherited, ⟨houtcome, h.extensionPoint, h.keeps⟩, h.filled⟩
    others := by
      intro name hname
      have hmem : ∀ e, (name, e) ∉ l.rules := fun e he => hname (List.mem_map.2 ⟨_, he, rfl⟩)
      have hkept := hchanges.untouched name fun c => hmem _
      exact ((huntouched name fun p => hmem _).trans hkept).rule
    conflicts := congrArg (· ++ l.conflicts) hall.conflicts
    baseRules := by
      cases aboveBase with
      | true => exact hall.baseRules
      | false => rfl
    overrides := hover ▸ hchanges.overrides
    noted := by
      intro e he
      rcases hchanges.noted e he with he | ⟨⟨c, hc⟩, heq⟩
      · exact Or.inl (hbelow ▸ he)
      · exact Or.inr (heq.trans (hbelow' hc))
    recorded := by
      intro name c hc body template hbody houtcome
      obtain ⟨body', template', houtcome', h⟩ := hchanged name c hc
      cases hbody.symm.trans h.inherited
      cases houtcome.symm.trans houtcome'
      exact ⟨h.recorded, h.noted⟩
    unchanged := by
      intro name hname
      have hkept := hchanges.untouched name hname
      exact ⟨hkept.overrides.trans (hrecords name),
        hkept.noted.trans (congrArg (·.get? name) hbelow)⟩ }

theorem extended_addLayer (h : (addLayer aboveBase m l).outcome = .ok m') : Extended l m m' :=
  (added_addLayer h).toExtended

end Merged

end LayeredGrammar
