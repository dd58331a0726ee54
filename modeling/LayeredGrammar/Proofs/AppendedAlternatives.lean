import LayeredGrammar.Proofs.LayeredAlternatives

/-!
# Extensions append

A rule that layers above the one that defines it do no more than extend keeps what it had, in the same
places, with all that is new behind it (`ParseTable.appended_alternatives`). Each extension puts a choice
around the body below it; the recorded overrides show the bodies in between (`Chained`), and
flattening the outermost choice gives the alternatives of the first body, followed by those that were
added, layer by layer (`Chained.alternatives`).

In the table of the rule the alternatives are sorted into groups by the way they begin, which keeps their
order (`RuleAlternatives.Continues`). Only those with the rule itself on the left go by precedence
first; as their sort is stable, the older of two of one precedence stands first
(`RuleAlternatives.continues_append`).
-/

namespace LayeredGrammar

/-! ## Stable sorting -/

/-- Sorting keeps the order of elements that the test does not tell apart: in a list with one order,
sorted by a test, a finer order holds in which that order decides between them. -/
theorem pairwise_sortBy_of_pairwise {α : Type} {le : α → α → Bool} {q r : α → α → Prop}
    (hle : ∀ a b, le a b = true → q a b → r a b) (hgt : ∀ a b, le a b = false → r b a)
    (htrans : ∀ a b c, r a b → r b c → r a c) {l : List α} (h : l.Pairwise q) :
    (sortBy le l).Pairwise r := by
  have hinsert : ∀ (a : α) (l : List α), (∀ b ∈ l, q a b) → l.Pairwise r →
      (insertBy le a l).Pairwise r := by
    intro a l ha h
    induction l with
    | nil => exact List.pairwise_singleton r a
    | cons b l ih =>
      rw [List.forall_mem_cons] at ha
      obtain ⟨hb, hl⟩ := List.pairwise_cons.1 h
      simp only [insertBy]
      split
      · rename_i hab
        have hfirst := hle a b hab ha.1
        refine List.pairwise_cons.2 ⟨List.forall_mem_cons.2 ⟨hfirst, fun c hc => ?_⟩, h⟩
        exact htrans a b c hfirst (hb c hc)
      · rename_i hab
        refine List.pairwise_cons.2 ⟨fun c hc => ?_, ih ha.2 hl⟩
        rcases mem_insertBy.1 hc with rfl | hc
        · exact hgt _ b (by simpa using hab)
        · exact hb c hc
  induction l with
  | nil => exact .nil
  | cons a l ih =>
    obtain ⟨ha, hl⟩ := List.pairwise_cons.1 h
    exact hinsert a _ (fun b hb => ha b (mem_sortBy.1 hb)) (ih hl)

theorem perm_sortBy {α : Type} (le : α → α → Bool) (l : List α) : (sortBy le l).Perm l := by
  have hinsert : ∀ (a : α) (l : List α), (insertBy le a l).Perm (a :: l) := by
    intro a l
    induction l with
    | nil => exact List.Perm.refl _
    | cons b l ih =>
      simp only [insertBy]
      split
      · exact List.Perm.refl _
      · exact (ih.cons b).trans (List.Perm.swap a b l)
  induction l with
  | nil => exact List.Perm.refl _
  | cons a l ih => exact (hinsert a _).trans (ih.cons a)

/-! ## Extensions of a rule -/

namespace Layer

variable {l : Layer} {name : String}

/-- The alternatives of each extension by which a layer extends a rule. -/
def extensionsOf (name : String) (l : Layer) : List (List Production) :=
  (l.extensions.filter (·.1 == name)).map (·.2)

/-- What layers add to a rule by extensions, each with the name of its layer. -/
def appended (name : String) (layers : List Layer) : List (String × List Production) :=
  layers.flatMap fun l => (l.extensionsOf name).map (l.name, ·)

/-- Whatever a layer declares for a rule are extensions. -/
def OnlyExtendsRule (name : String) (l : Layer) : Prop :=
  ∀ member ∈ l.members, ∀ entry, ruleOf? member = some (name, entry) →
    (extensionOf? member).isSome = true

/-- The entries for a rule that a layer only extends are those of its extensions. -/
theorem OnlyExtendsRule.rules_eq (h : l.OnlyExtendsRule name) :
    l.rules.filter (·.1 == name) = (l.extensionsOf name).map fun alternatives =>
      (name, .change (pure (some (.extension alternatives)))) := by
  unfold OnlyExtendsRule at h
  unfold extensionsOf extensions rules
  generalize l.members = members at h
  induction members with
  | nil => rfl
  | cons member members ih =>
    rw [List.forall_mem_cons] at h
    replace ih := ih h.2
    obtain ⟨key, declaration⟩ := member
    cases declaration with
    | token given t => exact ih
    | extension given alternatives =>
      simp only [List.filterMap_cons, ruleOf?, extensionOf?, List.filter_cons]
      by_cases hname : nameOr key given = name
      · simp [hname, ih]
      · simp [hname, ih]
    | rule given p =>
      have hname : nameOr key given ≠ name := fun hn => nomatch h.1 (.body p) (hn ▸ rfl)
      simp [List.filterMap_cons, ruleOf?, extensionOf?, hname, ih]
    | override given change =>
      have hname : given.getD key ≠ name := fun hn => nomatch h.1 (.change change) (hn ▸ rfl)
      simp [List.filterMap_cons, ruleOf?, extensionOf?, hname, ih]

theorem OnlyExtendsRule.not_mem_rules (h : l.OnlyExtendsRule name) (p : Production) :
    (name, RuleEntry.body p) ∉ l.rules := by
  intro hp
  have hmem : (name, RuleEntry.body p) ∈ l.rules.filter (·.1 == name) :=
    List.mem_filter.2 ⟨hp, beq_self_eq_true name⟩
  rw [h.rules_eq] at hmem
  obtain ⟨_, _, heq⟩ := List.mem_map.1 hmem
  cases heq

end Layer

namespace Template

theorem fill_extension (body : Production) (alternatives : List Production) :
    (extension alternatives).fill body = .choice (body :: alternatives) := by
  unfold extension
  rw [fill, fillAll, fillAll_fixed, fill]

theorem added_extension (body : Production) (alternatives : List Production) :
    (extension alternatives).added body = alternatives := by
  have hfixed : ((.inherited :: alternatives.map .fixed).filter (!·.isInherited) : List Template) =
      alternatives.map .fixed := by
    rw [List.filter_cons_of_neg (by simp [isInherited])]
    exact List.filter_eq_self.2 (List.forall_mem_map.2 fun _ _ => rfl)
  unfold extension
  rw [added, hfixed, fillAll_fixed]

end Template

/-- Extensions of a rule, one after another, lead from one body to another; each override that is
recorded has the body that the one before it left. -/
inductive Chained (name : String) : Production → List (String × List Production) →
    List AppliedOverride → Production → Prop
  | done {body} : Chained name body [] [] body
  | step {body layer alternatives more recorded effective}
    (h : Chained name (.choice (body :: alternatives)) more recorded effective) :
    Chained name body ((layer, alternatives) :: more)
      (⟨name, layer, body, alternatives⟩ :: recorded) effective

/-- Extensions put their alternatives behind those of the first body, in order. -/
theorem Chained.alternatives {name : String} {body effective : Production}
    {more : List (String × List Production)} {recorded : List AppliedOverride}
    (h : Chained name body more recorded effective) : effective.alternatives =
      body.alternatives ++ more.flatMap fun e => Production.alternativesAll e.2 := by
  induction h with
  | done => simp
  | step _ ih =>
    rw [ih, Production.alternatives, Production.alternativesAll, List.flatMap_cons, List.append_assoc]

/-! ## What is recorded -/

namespace Merged

variable {l : Layer} {m m' : Merged} {name : String} {body : Production}

/-- What a layer records of its changes. -/
structure Records (l : Layer) (m m' : Merged) : Prop where
  same : ∀ name, (∀ c, (name, RuleEntry.change c) ∉ l.rules) →
    m'.overridesOf name = m.overridesOf name
  changed : ∀ name c, (name, RuleEntry.change c) ∈ l.rules → ∃ body template,
    m.rules.get? name = some body ∧ c.outcome = .ok (some template) ∧
    m'.overridesOf name = m.overridesOf name ++ [⟨name, l.name, body, template.added body⟩]

theorem records_addLayer {aboveBase : Bool} (h : (addLayer aboveBase m l).outcome = .ok m') :
    Records l m m' := by
  have hadded := added_addLayer h
  refine ⟨fun name hname => (hadded.unchanged name hname).1, fun name c hc => ?_⟩
  obtain ⟨body, template, hbody, ⟨houtcome, _⟩, _⟩ := hadded.changed name c hc
  exact ⟨body, template, hbody, houtcome,
    (hadded.recorded name c hc body template hbody houtcome).1⟩

/-- A layer that only extends a rule leaves it alone, or puts a choice around its body and records
that. -/
theorem extends_addLayer {aboveBase : Bool} (h : (addLayer aboveBase m l).outcome = .ok m')
    (hl : l.OnlyExtendsRule name) (hbody : m.rules.get? name = some body) :
    (l.extensionsOf name = [] ∧ m'.rules.get? name = some body ∧
      m'.overridesOf name = m.overridesOf name) ∨
    ∃ alternatives, l.extensionsOf name = [alternatives] ∧
      m'.rules.get? name = some (.choice (body :: alternatives)) ∧
      m'.overridesOf name = m.overridesOf name ++ [⟨name, l.name, body, alternatives⟩] := by
  have hextended := extended_addLayer h
  have hrecords := records_addLayer h
  have hentries := hl.rules_eq
  cases hadded : l.extensionsOf name with
  | nil =>
    rw [hadded, List.map_nil, List.filter_eq_nil_iff] at hentries
    have hnone : ∀ e, (name, e) ∉ l.rules := fun e he => hentries _ he (beq_self_eq_true name)
    refine Or.inl ⟨rfl, ?_, hrecords.same name fun c => hnone _⟩
    rw [hextended.others name fun hmem => ?_, hbody]
    obtain ⟨⟨n, e⟩, he, rfl⟩ := List.mem_map.1 hmem
    exact hnone e he
  | cons alternatives more =>
    rw [hadded, List.map_cons] at hentries
    have hmem : (name, RuleEntry.change (pure (some (.extension alternatives)))) ∈ l.rules :=
      (List.mem_filter.1 (hentries ▸ List.mem_cons_self)).1
    -- no name has two entries in a layer
    rw [NameTable.filter_eq_singleton hextended.entries hmem] at hentries
    have hmore : more = [] := List.map_eq_nil_iff.1 (List.cons.inj hentries).2.symm
    subst hmore
    refine Or.inr ⟨alternatives, rfl, ?_, ?_⟩
    · obtain ⟨previous, template, hprevious, ⟨hc, _⟩, hfilled⟩ := hextended.changed name _ hmem
      cases hbody.symm.trans hprevious
      cases hc
      rw [hfilled, Template.fill_extension]
    · obtain ⟨previous, template, hprevious, hc, hrecorded⟩ := hrecords.changed name _ hmem
      cases hbody.symm.trans hprevious
      cases hc
      rw [hrecorded, Template.added_extension]

/-- Layers that only extend a rule chain the bodies that it had on the way. -/
theorem chained_foldlM : ∀ (ls : List Layer) (m m' : Merged) (body : Production),
    (ls.foldlM (addLayer true) m).outcome = .ok m' → (∀ l ∈ ls, l.OnlyExtendsRule name) →
    m.rules.get? name = some body → ∃ recorded effective,
      m'.rules.get? name = some effective ∧
      m'.overridesOf name = m.overridesOf name ++ recorded ∧
      Chained name body (Layer.appended name ls) recorded effective
  | [], _, _, body, h, _, hbody => by
    cases h
    exact ⟨[], body, hbody, (List.append_nil _).symm, .done⟩
  | l :: ls, m, m', body, h, hls, hbody => by
    rw [List.forall_mem_cons] at hls
    rw [List.foldlM_cons] at h
    obtain ⟨next, hnext, h⟩ := Traced.outcome_bind.1 h
    rcases extends_addLayer hnext hls.1 hbody with
      ⟨hnone, hsame, hover⟩ | ⟨alternatives, hone, hfilled, hover⟩
    · obtain ⟨recorded, effective, heffective, hrecorded, hchained⟩ :=
        chained_foldlM ls next m' body h hls.2 hsame
      refine ⟨recorded, effective, heffective, hrecorded.trans (by rw [hover]), ?_⟩
      rw [Layer.appended, List.flatMap_cons, hnone]
      exact hchained
    · obtain ⟨recorded, effective, heffective, hrecorded, hchained⟩ :=
        chained_foldlM ls next m' _ h hls.2 hfilled
      refine ⟨⟨name, l.name, body, alternatives⟩ :: recorded, effective, heffective, ?_, ?_⟩
      · rw [hrecorded, hover, List.append_assoc]
        rfl
      · rw [Layer.appended, List.flatMap_cons, hone]
        exact .step hchained

/-- A layer without a body for a rule that is not there records nothing of it. -/
theorem absent_addLayer {aboveBase : Bool} (h : (addLayer aboveBase m l).outcome = .ok m')
    (hl : ∀ p, (name, RuleEntry.body p) ∉ l.rules) (hnone : m.rules.get? name = none) :
    m'.rules.get? name = none ∧ m'.overridesOf name = m.overridesOf name := by
  have hextended := extended_addLayer h
  have hunchanged : ∀ c, (name, RuleEntry.change c) ∉ l.rules := by
    intro c hc
    obtain ⟨_, _, hbody, _⟩ := hextended.changed name c hc
    cases hnone.symm.trans hbody
  refine ⟨?_, (records_addLayer h).same name hunchanged⟩
  rw [hextended.others name fun hmem => ?_, hnone]
  obtain ⟨⟨n, e⟩, he, rfl⟩ := List.mem_map.1 hmem
  cases e with
  | body p => exact hl p he
  | change c => exact hunchanged c he

theorem absent_foldlM : ∀ (ls : List Layer) (m m' : Merged),
    (ls.foldlM (addLayer true) m).outcome = .ok m' →
    (∀ l ∈ ls, ∀ p, (name, RuleEntry.body p) ∉ l.rules) → m.rules.get? name = none →
    m'.overridesOf name = m.overridesOf name
  | [], _, _, h, _, _ => by
    cases h
    rfl
  | l :: ls, m, m', h, hls, hnone => by
    rw [List.forall_mem_cons] at hls
    rw [List.foldlM_cons] at h
    obtain ⟨next, hnext, h⟩ := Traced.outcome_bind.1 h
    obtain ⟨hnone', hover⟩ := absent_addLayer hnext hls.1 hnone
    rw [absent_foldlM ls next m' h hls.2 hnone', hover]

/-- A layer that gives a rule its body records nothing of it. -/
theorem overridesOf_of_body {aboveBase : Bool} (h : (addLayer aboveBase m l).outcome = .ok m')
    {p : Production} (hp : (name, RuleEntry.body p) ∈ l.rules) :
    m'.overridesOf name = m.overridesOf name := by
  refine (records_addLayer h).same name fun c hc => ?_
  cases List.inj_on_of_nodup_map (extended_addLayer h).entries hp hc rfl

/-- The first layer that gives a rule a body has no overrides of it below. -/
theorem overridesOf_eq_nil {below : List Layer} (h : (ofLayers (below ++ [l])).outcome = .ok m)
    (hbelow : ∀ l' ∈ below, ∀ p, (name, RuleEntry.body p) ∉ l'.rules) {p : Production}
    (hp : (name, RuleEntry.body p) ∈ l.rules) : m.overridesOf name = [] := by
  cases below with
  | nil =>
    obtain ⟨first, hfirst, h⟩ := Traced.outcome_bind.1 h
    cases h
    exact overridesOf_of_body hfirst hp
  | cons base below =>
    rw [List.forall_mem_cons] at hbelow
    rw [List.cons_append] at h
    obtain ⟨first, hfirst, h⟩ := Traced.outcome_bind.1 h
    rw [List.foldlM_append] at h
    obtain ⟨under, hunder, h⟩ := Traced.outcome_bind.1 h
    rw [List.foldlM_cons] at h
    obtain ⟨top, htop, h⟩ := Traced.outcome_bind.1 h
    cases h
    obtain ⟨hnone, hover⟩ := absent_addLayer hfirst hbelow.1 rfl
    rw [overridesOf_of_body htop hp, absent_foldlM below first under hunder hbelow.2 hnone, hover]
    rfl

end Merged

/-! ## Groups of alternatives -/

namespace RuleAlternatives

/-- The groups of a rule that has more alternatives than before. -/
structure Continues (own : RuleAlternatives) (added : List Alternative) (whole : RuleAlternatives) :
    Prop where
  plain : whole.plain = own.plain ++ (ofAlternatives added).plain
  prefixed : whole.prefixed = own.prefixed ++ (ofAlternatives added).prefixed
  postfixed : whole.postfixed = own.postfixed ++ (ofAlternatives added).postfixed
  leftRec : whole.leftRec.Perm (own.leftRec ++ (ofAlternatives added).leftRec)
  /-- Left-recursive alternatives go by precedence, and then by their position in the rule. -/
  ranked : whole.leftRec.Pairwise fun a b =>
    b.rank < a.rank ∨ a.rank = b.rank ∧ a.index < b.index
  older : ∀ a ∈ own.leftRec, ∀ b ∈ (ofAlternatives added).leftRec, a.index < b.index

/-- Alternatives sorted into groups, each in its order. -/
theorem ofAlternatives_eq (alts : List Alternative) : ofAlternatives alts =
    ⟨alts.filter fun a => !a.startsWithSelf && !(a.unary == some .prefixOp),
      alts.filter fun a => !a.startsWithSelf && a.unary == some .prefixOp,
      alts.filter fun a => a.startsWithSelf && a.unary == some .postfixOp,
      sortBy (fun a b => b.rank ≤ a.rank)
        (alts.filter fun a => a.startsWithSelf && !(a.unary == some .postfixOp))⟩ := by
  unfold ofAlternatives
  simp only [List.partition_eq_filter_filter, List.filter_filter, Function.comp_def, Bool.and_comm]

theorem continues_append {alts added : List Alternative}
    (h : (alts ++ added).Pairwise fun a b => a.index < b.index) :
    (ofAlternatives alts).Continues added (ofAlternatives (alts ++ added)) := by
  refine ⟨?_, ?_, ?_, ?_, ?_, ?_⟩ <;> simp only [ofAlternatives_eq, List.filter_append]
  · exact (perm_sortBy _ _).trans ((perm_sortBy _ _).append (perm_sortBy _ _)).symm
  · rw [← List.filter_append]
    refine pairwise_sortBy_of_pairwise ?_ ?_ ?_ (h.filter _)
    · intro a b hab hlt
      rw [decide_eq_true_eq] at hab
      omega
    · intro a b hab
      rw [decide_eq_false_iff_not] at hab
      omega
    · intro a b c hab hbc
      omega
  · intro a ha b hb
    have ha := (List.mem_filter.1 (mem_sortBy.1 ha)).1
    have hb := (List.mem_filter.1 (mem_sortBy.1 hb)).1
    exact (List.pairwise_append.1 h).2.2 a ha b hb

/-- The entries of alternatives from a position on, of which those before a limit belong to the base. -/
def entries (rule : String) (limit : Nat) (alternatives : List Production) (start : Nat) :
    List Alternative :=
  (alternatives.zipIdx start).map fun (p, i) =>
    Alternative.ofProduction rule i (decide (limit ≤ i)) p

theorem ofBody_continues {rule : String} {body effective : Production} {added : List Production}
    (h : effective.alternatives = body.alternatives ++ added) (limit : Nat) :
    (ofBody rule body limit).Continues (entries rule limit added body.alternatives.length)
      (ofBody rule effective limit) := by
  have hsplit : entries rule limit effective.alternatives 0 =
      entries rule limit body.alternatives 0 ++
        entries rule limit added body.alternatives.length := by
    unfold entries
    rw [h, List.zipIdx_append, List.map_append, Nat.zero_add]
  have hindex : (entries rule limit effective.alternatives 0).Pairwise
      fun a b => a.index < b.index := by
    have hrange := List.pairwise_lt_range' (s := 0) (n := effective.alternatives.length)
    rw [← List.zipIdx_map_snd 0 effective.alternatives, List.pairwise_map] at hrange
    exact List.pairwise_map.2 hrange
  rw [hsplit] at hindex
  have hcontinues := continues_append hindex
  rw [← hsplit] at hcontinues
  exact hcontinues

end RuleAlternatives

namespace ParseTable

/-- **Extensions append.** In a grammar that builds, let a layer give a rule the body `p` and those
above it do no more to the rule than extend it. Then the alternatives of the rule are those of `p`,
followed by those that the extensions add, layer by layer in declared order; the recorded overrides of the
rule end with one for each extension, each with the body that the one before it left. In the parse table
the entries of the alternatives of `p` are those that they have without the layers above, and all others
come behind them, except that left-recursive ones go by precedence first. -/
theorem appended_alternatives {below above : List Layer} {l : Layer} {g : Grammar} {name : String}
    {p : Production} (hg : (Grammar.ofLayers (below ++ l :: above)).outcome = .ok g)
    (hl : (name, RuleEntry.body p) ∈ l.rules) (habove : ∀ l' ∈ above, l'.OnlyExtendsRule name) :
    ∃ effective limit earlier recorded,
      let appended := Layer.appended name above
      let added := appended.flatMap fun e => Production.alternativesAll e.2
      g.rules.get? name = some effective ∧
      effective.alternatives = p.alternatives ++ added ∧
      g.overrides.filter (·.rule == name) = earlier ++ recorded ∧
      ((∀ l' ∈ below, ∀ q, (name, RuleEntry.body q) ∉ l'.rules) → earlier = []) ∧
      Chained name p appended recorded effective ∧
      (ofGrammar g).rules.get? name = some (.ofBody name effective limit) ∧
      (∀ g', (Grammar.ofLayers (below ++ [l])).outcome = .ok g' →
        (ofGrammar g').rules.get? name = some (.ofBody name p limit)) ∧
      (RuleAlternatives.ofBody name p limit).Continues
        (RuleAlternatives.entries name limit added p.alternatives.length)
        (.ofBody name effective limit) := by
  obtain ⟨m, hm, ⟨hrules, hover⟩, hrows⟩ := get?_rules_ofGrammar hg
  rw [show below ++ l :: above = (below ++ [l]) ++ above by simp] at hm
  obtain ⟨lower, hlower, _⟩ := Merged.ofLayers_split (by simp) hm
  have hfold := Merged.foldlM_of_ofLayers hlower hm
  have hown : lower.rules.get? name = some p := by
    obtain ⟨_, _, hstep⟩ := (Merged.climbs_ofLayers hlower).split
    cases hstep with
    | step hextended hdone =>
      cases hdone
      exact (hextended.defined name p hl).1
  obtain ⟨recorded, effective, heffective, hrecorded, hchained⟩ :=
    Merged.chained_foldlM above lower m p hfold habove hown
  have hbase : m.baseBody name effective = lower.baseBody name p :=
    Merged.baseBody_of_unreplaced above lower m p hfold hown
      (fun l' hl' => (habove l' hl').not_mem_rules) effective heffective
  refine ⟨effective, _, lower.overridesOf name, recorded, hrules ▸ heffective,
    hchained.alternatives, ?_, fun hbelow => Merged.overridesOf_eq_nil hlower hbelow hl, hchained,
    hrows name effective heffective, fun g' hg' => ?_,
    RuleAlternatives.ofBody_continues hchained.alternatives _⟩
  · rw [hover]
    exact hrecorded
  · obtain ⟨lower', hlower', _, hrows'⟩ := get?_rules_ofGrammar hg'
    cases hlower.symm.trans hlower'
    rw [hrows' name p hown, hbase, Merged.baseRules_foldlM above lower m hfold]

end ParseTable

/-- An operation of a precedence. -/
def Production.operation (operator : String) (precedence : Int) : Production :=
  .prec precedence (.seq [.ref "expr", .lit operator, .ref "expr"]) .left none

/-- Expressions, open for changes. -/
def Layer.expressions : Layer where
  name := "Base"
  start := some (some "expr")
  word := some none
  extensionPoints := ["expr"]
  conflicts := [.between ["expr"]]
  members := [("expr", .rule none (.choice [.operation "+" 1, .lit "a"]))]

/-- Two layers that extend expressions, the first of them by a choice too. -/
def Layer.moreExpressions : List Layer :=
  [{ name := "Second"
     members :=
       [("expr", .extension none [.choice [.operation "*" 2, .lit "b"], .operation "-" 1])] },
   { name := "Third", members := [("operand", .extension (some "expr") [.lit "c"])] }]

/-- The operation of the higher precedence overtakes the one of the base layer; the other operation,
of the same precedence, and the literals stay behind those that were there. -/
theorem ParseTable.appended_alternatives_expressions : ∃ g effective recorded rule,
    (Grammar.ofLayers (.expressions :: Layer.moreExpressions)).outcome = .ok g ∧
    (∀ l ∈ Layer.moreExpressions, l.OnlyExtendsRule "expr") ∧
    g.rules.get? "expr" = some effective ∧
    effective.alternatives = [.operation "+" 1, .lit "a", .operation "*" 2, .lit "b",
      .operation "-" 1, .lit "c"] ∧
    g.overrides.filter (·.rule == "expr") = recorded ∧
    Chained "expr" (.choice [.operation "+" 1, .lit "a"])
      [("Second", [.choice [.operation "*" 2, .lit "b"], .operation "-" 1]), ("Third", [.lit "c"])]
      recorded effective ∧
    (ofGrammar g).rules.get? "expr" = some rule ∧
    rule.plain.map (·.index) = [1, 3, 5] ∧ rule.leftRec.map (·.index) = [2, 0, 4] := by
  have hrun : ((Grammar.ofLayers (.expressions :: Layer.moreExpressions)).outcome.toOption.any
      fun g => ((ofGrammar g).rules.get? "expr").any fun rule =>
        decide (rule.plain.map (·.index) = [1, 3, 5] ∧ rule.leftRec.map (·.index) = [2, 0, 4])) =
      true := by
    decide +kernel
  obtain ⟨g, hg, hrun⟩ := Traced.exists_of_any hrun
  obtain ⟨rule, hrule, hrun⟩ := (Option.any_eq_true _ _).1 hrun
  obtain ⟨hplain, hleft⟩ := of_decide_eq_true hrun
  have hextends : ∀ l ∈ Layer.moreExpressions, l.OnlyExtendsRule "expr" := by
    refine List.forall_mem_cons.2 ⟨?_, List.forall_mem_singleton.2 ?_⟩
    · exact List.forall_mem_singleton.2 fun _ _ => rfl
    · exact List.forall_mem_singleton.2 fun _ _ => rfl
  obtain ⟨effective, limit, earlier, recorded, heffective, halternatives, hrecorded, hnone, hchained,
    _⟩ := @appended_alternatives [] _ _ _ _ _ hg (List.mem_singleton.2 rfl) hextends
  cases hnone (List.forall_mem_nil _)
  exact ⟨g, effective, recorded, rule, hg, hextends, heffective, halternatives, hrecorded, hchained,
    hrule, hplain, hleft⟩

end LayeredGrammar
