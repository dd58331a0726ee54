import LayeredGrammar.Proofs.Grammar.Overriding

/-!
# Which grammar an override is compared with

The overlap analysis reads the body that an override extends with the first sets that are noted for
its rule, and a layer that changes a rule notes those of the layers below it. They are noted by rule,
so that a later layer that changes the rule again replaces them for all overrides of the rule.

* `Merged.Noted` — what a layer adds to the overrides and to the first sets noted for them, with
  `Merged.noted_foldlM` for the layers above a given one.
* `Merged.overlapsOf_eq` — the overrides of a rule are compared with the layers below the last one
  that changes it. That is the layer of the override itself unless a later one changes the rule again;
  `Grammar.overlap_by_later_change` is a stack in which one does.
-/

namespace LayeredGrammar

namespace Merged

variable {l : Layer} {m m' : Merged}

/-- What an override contributes to the findings. -/
def overlapsOf (m : Merged) (s : Settings) (first : FirstSets) (o : AppliedOverride) :
    List Finding :=
  Finding.ofOverride o.rule o.previous o.added ((m.below.get? o.rule).getD first) first (m.overlap s)

theorem overrideFindings_eq (m : Merged) (s : Settings) (first : FirstSets) :
    m.overrideFindings s first = m.overrides.flatMap (m.overlapsOf s first) :=
  rfl

/-! ## Changes of a layer -/

/-- What a layer adds to the overrides of those below it, and what it notes for them. -/
structure Noted (l : Layer) (m m' : Merged) : Prop where
  overrides : m.overrides <+: m'.overrides
  others : ∀ name, (∀ c, (name, RuleEntry.change c) ∉ l.rules) →
    m'.below.get? name = m.below.get? name
  changed : ∀ name c, (name, RuleEntry.change c) ∈ l.rules →
    m'.below.get? name = some m.firstSets ∧ ∃ body template, m.rules.get? name = some body ∧
      c.outcome = .ok (some template) ∧ ⟨name, l.name, body, template.added body⟩ ∈ m'.overrides

theorem noted_addLayer (h : (addLayer true m l).outcome = .ok m') : Noted l m m' := by
  have hadded := added_addLayer h
  refine ⟨hadded.overrides, fun name hname => (hadded.unchanged name hname).2, fun name c hc => ?_⟩
  obtain ⟨body, template, hbody, ⟨houtcome, _⟩, _⟩ := hadded.changed name c hc
  obtain ⟨hrecorded, hnoted⟩ := hadded.recorded name c hc body template hbody houtcome
  exact ⟨hnoted, body, template, hbody, houtcome, mem_overrides_of_recorded hrecorded⟩

/-! ## Layers above -/

/-- Layers that do not change a rule leave its overrides and what is noted for them. -/
theorem noted_foldlM {rule : String} : ∀ (ls : List Layer) (m m' : Merged),
    (ls.foldlM (addLayer true) m).outcome = .ok m' →
    (∀ l ∈ ls, ∀ c, (rule, RuleEntry.change c) ∉ l.rules) →
    m.overrides <+: m'.overrides ∧ m'.below.get? rule = m.below.get? rule
  | [], _, _, h, _ => by
    cases h
    exact ⟨List.prefix_refl _, rfl⟩
  | l :: ls, m, m', h, hls => by
    rw [List.forall_mem_cons] at hls
    rw [List.foldlM_cons] at h
    obtain ⟨next, hnext, h⟩ := Traced.outcome_bind.1 h
    have hnoted := noted_addLayer hnext
    obtain ⟨hover, hbelow⟩ := noted_foldlM ls next m' h hls.2
    exact ⟨hnoted.overrides.trans hover, hbelow.trans (hnoted.others rule hls.1)⟩

/-- **The overrides of a rule are compared with the layers below the last one that changes it.** In
layers that merge, let `l` change a rule and no layer above `l` do so. Then the override that `l`
makes of the rule, and every other override of the rule, contributes the overlaps of its new
alternatives, read with the first sets of all the layers, with the body it extends, read with the first
sets of the layers below `l`. -/
theorem overlapsOf_eq {under above : List Layer} {lower top : Merged}
    (hlower : (ofLayers under).outcome = .ok lower)
    (htop : (ofLayers (under ++ l :: above)).outcome = .ok top) {rule : String} {c : Override}
    (hl : (rule, RuleEntry.change c) ∈ l.rules)
    (habove : ∀ l' ∈ above, ∀ c', (rule, RuleEntry.change c') ∉ l'.rules) :
    (∃ body template, lower.rules.get? rule = some body ∧ c.outcome = .ok (some template) ∧
      ⟨rule, l.name, body, template.added body⟩ ∈ top.overrides) ∧
    ∀ o ∈ top.overrides, o.rule = rule → ∀ s first, top.overlapsOf s first o =
      Finding.ofOverride rule o.previous o.added lower.firstSets first (top.overlap s) := by
  have hfold := foldlM_of_ofLayers hlower htop
  rw [List.foldlM_cons] at hfold
  obtain ⟨next, hnext, hfold⟩ := Traced.outcome_bind.1 hfold
  obtain ⟨hnoted, body, template, hbody, hc, hmem⟩ := (noted_addLayer hnext).changed rule c hl
  obtain ⟨hover, hbelow⟩ := noted_foldlM above next top hfold habove
  refine ⟨⟨body, template, hbody, hc, hover.subset hmem⟩, ?_⟩
  rintro o _ rfl s first
  unfold overlapsOf
  rw [hbelow, hnoted]
  rfl

end Merged

/-- Sums that start with a sum. -/
def Layer.sums : Layer where
  name := "Sums"
  start := some (some "sum")
  word := some none
  extensionPoints := ["sum"]
  members := [("sum", .rule none (.choice [.seq [.ref "sum", .lit "+"], .lit "a"]))]

/-- A layer that adds an alternative to sums. -/
def Layer.moreSums (name alternative : String) : Layer where
  name := name
  members := [("sum", .extension none [.lit alternative])]

/-- A layer that adds a rule. -/
def Layer.products : Layer where
  name := "Products"
  members := [("product", .rule none (.lit "c"))]

/-- The one override of a stack whose upper layer only adds a rule. -/
theorem Merged.overlapsOf_eq_sums : ∃ lower top, (ofLayers [.sums]).outcome = .ok lower ∧
    (ofLayers [.sums, .moreSums "Second" "b", .products]).outcome = .ok top ∧
    top.overrides.length = 1 ∧ ∀ o ∈ top.overrides, o.rule = "sum" → ∀ s first,
      top.overlapsOf s first o =
        Finding.ofOverride "sum" o.previous o.added lower.firstSets first (top.overlap s) := by
  have hlower : (ofLayers [.sums]).outcome.toOption.any (fun _ => true) = true := by decide +kernel
  have htop : ((ofLayers [.sums, .moreSums "Second" "b", .products]).outcome.toOption.any fun top =>
      decide (top.overrides.length = 1)) = true := by decide +kernel
  obtain ⟨lower, hlower, _⟩ := Traced.exists_of_any hlower
  obtain ⟨top, htop, hone⟩ := Traced.exists_of_any htop
  refine ⟨lower, top, hlower, htop, of_decide_eq_true hone, ?_⟩
  refine (overlapsOf_eq (l := .moreSums "Second" "b") hlower htop List.mem_cons_self ?_).2
  intro l hl c hc
  cases List.mem_singleton.1 hl
  exact absurd (congrArg Prod.snd (List.mem_singleton.1 hc)) nofun

/-- Sums that two layers add alternatives to. -/
def Layer.sumStack : List Layer := [.sums, .moreSums "Second" "b", .moreSums "Third" "c"]

/-- A stack in which the override of the second layer is compared with the grammar below the third, which
has the alternative it adds: the second layer builds on its own, but not under the third. -/
theorem Grammar.overlap_by_later_change : ∃ lower top o,
    (Merged.ofLayers (Layer.sumStack.take 1)).outcome = .ok lower ∧
    (Merged.ofLayers Layer.sumStack).outcome = .ok top ∧
    o ∈ top.overrides ∧ o.layer = "Second" ∧
    Finding.ofOverride "sum" o.previous o.added lower.firstSets top.firstSets
      (top.overlap (.ofLayers Layer.sumStack)) = [] ∧
    top.overlapsOf (.ofLayers Layer.sumStack) top.firstSets o ≠ [] ∧
    (Grammar.ofLayers (Layer.sumStack.take 2)).outcome.isOk = true ∧
    (Grammar.ofLayers Layer.sumStack).outcome.isOk = false := by
  have hrun : ((Merged.ofLayers (Layer.sumStack.take 1)).outcome.toOption.any fun lower =>
      (Merged.ofLayers Layer.sumStack).outcome.toOption.any fun top => top.overrides.any fun o =>
        decide (o.layer = "Second" ∧
          Finding.ofOverride "sum" o.previous o.added lower.firstSets top.firstSets
            (top.overlap (.ofLayers Layer.sumStack)) = [] ∧
          top.overlapsOf (.ofLayers Layer.sumStack) top.firstSets o ≠ [])) = true := by
    decide +kernel
  obtain ⟨lower, hlower, hrun⟩ := Traced.exists_of_any hrun
  obtain ⟨top, htop, hrun⟩ := Traced.exists_of_any hrun
  obtain ⟨o, ho, hrun⟩ := List.any_eq_true.1 hrun
  obtain ⟨hlayer, hnone, hsome⟩ := of_decide_eq_true hrun
  exact ⟨lower, top, o, hlower, htop, ho, hlayer, hnone, hsome, by decide +kernel,
    by decide +kernel⟩

end LayeredGrammar
