import LayeredGrammar.Proofs.Analysis.OpenEnds
import LayeredGrammar.Proofs.Grammar.Stacked

/-!
# Layers whose ambiguities are declared

A stack of layers builds only if declared conflicts excuse all ambiguities that the analysis finds.
This can be seen without computing first sets (`Merged.Clear`): an alternative that a layer adds, and
a repetition that stays open, is either covered by a conflict or begins in another way than what
stands next to it. Then the layers build whatever they would build without the analysis
(`Grammar.outcome_ofLayers`).
-/

namespace LayeredGrammar

/-! ## Checks on open repetitions -/

namespace Production

mutual

/-- Whether all repetitions that a production stays open into pass a test, given which rules do. -/
def endsPass (empties : List String) (test : String → Production → Bool) (ruleEnds : String → Bool)
    (owner : String) : Production → Bool
  | .rep p _ _ => test owner p && endsPass empties test ruleEnds owner p
  | .seq items => endsPassInRow empties test ruleEnds owner items
  | .choice members => endsPassAll empties test ruleEnds owner members
  | .opt p => endsPass empties test ruleEnds owner p
  | .field _ p => endsPass empties test ruleEnds owner p
  | .renamed p _ => endsPass empties test ruleEnds owner p
  | .prec _ p _ _ => endsPass empties test ruleEnds owner p
  | .ref name => ruleEnds name
  | .lit _ => true
  | .blank => true

/-- The same for items in a row, of which those count that only items follow which may be empty. -/
def endsPassInRow (empties : List String) (test : String → Production → Bool)
    (ruleEnds : String → Bool) (owner : String) : List Production → Bool
  | [] => true
  | p :: ps => endsPassInRow empties test ruleEnds owner ps &&
    (!ps.all (mayVanish empties) || endsPass empties test ruleEnds owner p)

/-- The same for each of several productions. -/
def endsPassAll (empties : List String) (test : String → Production → Bool)
    (ruleEnds : String → Bool) (owner : String) : List Production → Bool
  | [] => true
  | p :: ps => endsPass empties test ruleEnds owner p &&
    endsPassAll empties test ruleEnds owner ps

end

theorem endsPass_of_mem {empties : List String} {test : String → Production → Bool}
    {ruleEnds : String → Bool} {owner : String} {p : Production} {ps : List Production}
    (h : endsPassAll empties test ruleEnds owner ps = true) (hp : p ∈ ps) :
    p.endsPass empties test ruleEnds owner = true := by
  induction ps with
  | nil => cases hp
  | cons q ps ih =>
    rw [endsPassAll, Bool.and_eq_true] at h
    rcases List.mem_cons.1 hp with rfl | hp
    · exact h.1
    · exact ih h.2 hp

end Production

namespace TailAnalysis

/-- Whether all repetitions that a rule stays open into pass a test. No more than `n` rules are
looked into, one inside the other; if that does not suffice, the test fails. -/
def ruleEndsPass (rules : NameTable Production) (tableRules empties : List String)
    (test : String → Production → Bool) : Nat → String → Bool
  | 0, _ => false
  | n + 1, name => !tableRules.contains name ||
    (rules.get? name).all
      (Production.endsPass empties test (ruleEndsPass rules tableRules empties test n) name)

/-- A repetition that a production stays open into passes the test. -/
theorem OpensInto.passes {a : TailAnalysis} {empties : List String}
    {test : String → Production → Bool}
    (hvanish : ∀ p, a.first.nullable p = true → p.mayVanish empties = true) {owner holder : String}
    {p content : Production} (h : a.OpensInto owner p holder content) (n : Nat)
    (hpass : p.endsPass empties test (ruleEndsPass a.rules a.tableRules empties test n) owner = true) :
    test holder content = true := by
  induction h generalizing n with
  | here =>
    rw [Production.endsPass, Bool.and_eq_true] at hpass
    exact hpass.1
  | inside _ ih =>
    rw [Production.endsPass, Bool.and_eq_true] at hpass
    exact ih n hpass.2
  | before hps _ ih =>
    rw [Production.endsPass, Production.endsPassInRow, Bool.and_eq_true, Bool.or_eq_true] at hpass
    refine ih n (hpass.2.resolve_left fun hnot => ?_)
    have hall := List.all_eq_true.2 fun q hq => hvanish q (hps q hq)
    rw [hall] at hnot
    cases hnot
  | later _ ih =>
    rw [Production.endsPass, Production.endsPassInRow, Bool.and_eq_true] at hpass
    exact ih n hpass.1
  | choice hp _ ih => exact ih n (Production.endsPass_of_mem hpass hp)
  | opt _ ih => exact ih n hpass
  | field _ ih => exact ih n hpass
  | renamed _ ih => exact ih n hpass
  | prec _ ih => exact ih n hpass
  | rule hn hb _ ih =>
    cases n with
    | zero => cases hpass
    | succ n =>
      rw [Production.endsPass, ruleEndsPass, Bool.or_eq_true, hb] at hpass
      refine ih n (hpass.resolve_left fun hnot => ?_)
      rw [List.contains_iff_mem.2 hn] at hnot
      cases hnot

end TailAnalysis

/-! ## Repetitions next to what follows them -/

namespace FirstSets

variable {f : FirstSets} {p : Production} {a : Sequence}

theorem mem_first_single (h : a ∈ f.first (.seq [p])) : ∃ y ∈ f.first p, a = y.take lookahead := by
  rw [first, firstSeq, if_neg (by decide), firstSeq, SequenceSet.mem_concat] at h
  rcases h with ⟨hmem, hfull⟩ | ⟨x, hx, _, y, hy, rfl⟩
  · rw [SequenceSet.mem_singleton.1 hmem] at hfull
    cases hfull
  · rw [SequenceSet.mem_singleton.1 hx]
    exact ⟨y, hy, rfl⟩

theorem mem_first_pair {value : String} (h : a ∈ f.first (.seq [.lit value, p])) :
    ∃ y ∈ f.first p, a = (litTerminal value :: y).take lookahead := by
  have honly : ∀ {x : Sequence}, x ∈ (SequenceSet.singleton []).concat (f.first (.lit value)) →
      x = [litTerminal value] := by
    intro x hx
    rcases SequenceSet.mem_concat.1 hx with ⟨hmem, hfull⟩ | ⟨_, hnil, _, y, hy, rfl⟩
    · rw [SequenceSet.mem_singleton.1 hmem] at hfull
      cases hfull
    · rw [first] at hy
      rw [SequenceSet.mem_singleton.1 hnil, SequenceSet.mem_singleton.1 hy]
      rfl
  rw [first, firstSeq, if_neg (by decide), firstSeq] at h
  split at h
  · rename_i hfull
    have hone := List.all_eq_true.1 hfull a h
    rw [honly h] at hone
    cases hone
  · rw [firstSeq, SequenceSet.mem_concat] at h
    rcases h with ⟨hmem, hfull⟩ | ⟨x, hx, _, y, hy, rfl⟩
    · rw [honly hmem] at hfull
      cases hfull
    · rw [honly hx]
      exact ⟨y, hy, rfl⟩

end FirstSets

namespace Overlap

/-- Whether another round of a repetition begins in another way than what follows. Where both begin
with the same literal, the next terminal tells them apart. -/
def clears (o : Overlap) (empties : List String) (rare : NameTable (List String))
    (content : Production) (rest : List Production) : Bool :=
  o.apart empties rare content (.seq rest) ||
    match content, rest with
    | .seq [.lit _, p], [.opt (.seq [.lit _, q])] =>
      !p.mayVanish empties && !q.mayVanish empties && o.apart empties rare p q
    | _, _ => false

variable {o : Overlap} {rules : NameTable Production} {empties : List String}
  {rare : NameTable (List String)}

/-- First sets of what clears a repetition do not overlap those of its rounds. -/
theorem sequences_of_clears (htokens : ∀ token ∈ o.tokens.names, isLiteral token = false)
    (hrules : ∀ r ∈ rules, r.2.isQuiet empties rare r.1 = true) {content : Production}
    {rest : List Production} (h : o.clears empties rare content rest = true) {a b : Sequence}
    (ha : a ∈ (FirstSets.ofRules rules o.tokens.names).first content)
    (hb : b ∈ (FirstSets.ofRules rules o.tokens.names).first (.seq rest)) :
    o.sequences a b = false := by
  unfold clears at h
  rcases Bool.or_eq_true_iff.1 h with h | h
  · refine sequences_of_heads fun t ht u hu => terminals_of_begins htokens hrules h ?_ ?_
    · exact ht ▸ FirstSets.begins_ofRules ha
    · exact hu ▸ FirstSets.begins_ofRules hb
  · split at h
    · rw [Bool.and_eq_true, Bool.and_eq_true, Bool.not_eq_true', Bool.not_eq_true'] at h
      obtain ⟨⟨hp, hq⟩, hapart⟩ := h
      -- neither of the two is empty after its literal
      have hcons : ∀ {p : Production} {y : Sequence}, p.mayVanish empties = false →
          y ∈ (FirstSets.ofRules rules o.tokens.names).first p →
          ∃ t y', y = t :: y' ∧ Begins rules o.tokens.names p (some t) := by
        intro p y hp hy
        have hbegins := FirstSets.begins_ofRules hy
        cases y with
        | nil =>
          rw [hbegins.mayVanish hrules] at hp
          cases hp
        | cons t y' => exact ⟨t, y', rfl, hbegins⟩
      obtain ⟨y, hy, rfl⟩ := FirstSets.mem_first_pair ha
      obtain ⟨z, hz, rfl⟩ := FirstSets.mem_first_single hb
      rw [FirstSets.first] at hz
      rcases SequenceSet.mem_insert.1 hz with rfl | hz
      · simp [sequences]
      · obtain ⟨z, hz', rfl⟩ := FirstSets.mem_first_pair hz
        obtain ⟨t, y', rfl, ht⟩ := hcons hp hy
        obtain ⟨u, z', rfl, hu⟩ := hcons hq hz'
        simp [sequences, lookahead, terminals_of_begins htokens hrules hapart ht hu]
    · cases h

end Overlap

/-! ## Layers -/

namespace Merged

variable {m below : Merged} {s : Settings} {empties : List String}
  {rare rareBelow : NameTable (List String)} {depth : Nat}

/-- Whether all repetitions that an item stays open into are covered by a conflict, or cleared by
what follows the item. -/
def itemPasses (m : Merged) (s : Settings) (empties : List String)
    (rare : NameTable (List String)) (depth : Nat) (place : String) (p : Production)
    (rest : List Production) : Bool :=
  let test := fun holder content => ConflictRegistry.covers m.conflicts [holder] ||
    (m.overlap s).clears empties rare content rest
  p.endsPass empties test
    (TailAnalysis.ruleEndsPass m.rules (sortedNames m.tableRules) empties test depth) place

/-- Whether all items of a sequence pass, each with those that follow it. -/
def itemsPass (m : Merged) (s : Settings) (empties : List String)
    (rare : NameTable (List String)) (depth : Nat) (place : String) : List Production → Bool
  | [] => true
  | p :: rest => m.itemPasses s empties rare depth place p rest &&
    itemsPass m s empties rare depth place rest

/-- Whether all sequences of a production pass. -/
def sequencesPass (m : Merged) (s : Settings) (empties : List String)
    (rare : NameTable (List String)) (depth : Nat) (r : String × Production) : Bool :=
  r.2.walk.all fun
    | .seq items => m.itemsPass s empties rare depth r.1 items
    | _ => true

/-- Whether an alternative that an override adds is covered by a conflict, or is a rule that begins
with literals only, each in another way than the body below. -/
def alternativePasses (m : Merged) (s : Settings) (empties : List String)
    (rareBelow : NameTable (List String)) (o : AppliedOverride) (p : Production) : Bool :=
  ConflictRegistry.covers m.conflicts (sortedNames [o.rule, Finding.labelOr o.rule p]) ||
    match p with
    | .ref name => !m.tokens.names.contains name && (m.rules.get? name).any fun body =>
      (body.leaders empties).all fun l => l.litValue?.isSome &&
        (o.previous.leaders empties).all ((m.overlap s).leadersApart rareBelow l)
    | _ => false

/-- A certificate that declared conflicts excuse all ambiguities between a layer and those below it.
It names the rules that can be empty, and literals with the only rules that begin with them, below the
layer and with it. -/
structure Clear (m below : Merged) (s : Settings) (empties : List String)
    (rare rareBelow : NameTable (List String)) (depth : Nat) : Prop where
  tokens : ∀ token ∈ m.tokens.names, Overlap.isLiteral token = false
  quiet : ∀ r ∈ m.rules, r.2.isQuiet empties rare r.1 = true
  quietBelow : ∀ r ∈ below.rules, r.2.isQuiet empties rareBelow r.1 = true
  unnoted : below.below = []
  noted : ∀ o ∈ m.overrides, o.rule ∈ m.below.names
  alternatives : ∀ o ∈ m.overrides, ∀ p ∈ o.added,
    m.alternativePasses s empties rareBelow o p = true
  sequences : ∀ r ∈ m.scanned, m.sequencesPass s empties rare depth r = true

theorem itemPasses_of_suffix {place : String} {items : List Production} {p : Production}
    {rest : List Production} (h : m.itemsPass s empties rare depth place items = true)
    (hsuffix : p :: rest <:+ items) : m.itemPasses s empties rare depth place p rest = true := by
  induction items with
  | nil => cases List.suffix_nil.1 hsuffix
  | cons q items ih =>
    rw [itemsPass, Bool.and_eq_true] at h
    rcases List.suffix_cons_iff.1 hsuffix with heq | hsuffix
    · cases heq
      exact h.1
    · exact ih h.2 hsuffix

/-- Every open repetition is covered by a conflict. -/
theorem Clear.repetitions (h : Clear m below s empties rare rareBelow depth) {f : Finding}
    (hf : f ∈ m.repetitionFindings s m.firstSets) : f.isCovered m.conflicts = true := by
  let a : TailAnalysis := ⟨m.rules, sortedNames m.tableRules, m.firstSets, m.overlap s⟩
  have hvanish : ∀ p, a.first.nullable p = true → p.mayVanish empties = true := by
    intro p hp
    have hbegins := FirstSets.begins_ofRules (of_decide_eq_true hp)
    exact hbegins.mayVanish h.quiet
  have hknown : a.Known {} := fun e he => by cases he
  obtain ⟨fs, hfs, hf⟩ := List.mem_flatten.1 hf
  have hscans := Keeps.mapM (l := m.scanned) (fun r _ => TailAnalysis.keeps_scan (a := a) r.2 r.1)
  obtain ⟨r, hr, hscan⟩ := (hscans {} hknown).1 fs hfs
  obtain ⟨items, hitems, p, rest, hsuffix, holder, t, t', hrules, ⟨content, hopens, ht, _⟩, ht',
    hoverlap⟩ := hscan f hf
  have hpass := itemPasses_of_suffix (List.all_eq_true.1 (h.sequences r hr) _ hitems) hsuffix
  have htest := hopens.passes hvanish depth hpass
  rcases Bool.or_eq_true_iff.1 htest with hcovers | hclears
  · unfold Finding.isCovered
    rw [hrules]
    exact hcovers
  · rw [Overlap.sequences_of_clears h.tokens h.quiet hclears ht ht'] at hoverlap
    cases hoverlap

/-- The first sets noted for an override are those below the layer. -/
theorem Clear.firstSets_below (h : Clear m below s empties rare rareBelow depth) {x : Layer}
    (hlayer : (addLayer true below x).outcome = .ok m) {o : AppliedOverride}
    (ho : o ∈ m.overrides) : m.below.get? o.rule = some below.firstSets := by
  cases hget : m.below.get? o.rule with
  | none => exact absurd (h.noted o ho) (NameTable.get?_eq_none.1 hget)
  | some f =>
    rcases (added_addLayer hlayer).noted _ (NameTable.mem_of_get? hget) with hmem | heq
    · rw [h.unnoted] at hmem
      cases hmem
    · exact congrArg some heq

/-- An alternative that passes without a conflict does not overlap the body below. -/
theorem Clear.sequences_of_alternative (h : Clear m below s empties rare rareBelow depth)
    (htokens : m.tokens = below.tokens) (hnodup : m.rules.names.Nodup) {body previous : Production}
    {name : String} (hname : name ∉ m.tokens.names) (hbody : m.rules.get? name = some body)
    (hpass : ∀ l ∈ body.leaders empties, l.litValue?.isSome = true ∧
      ∀ r ∈ previous.leaders empties, (m.overlap s).leadersApart rareBelow l r = true)
    {a b : Sequence} (ha : a ∈ m.firstSets.first (.ref name))
    (hb : b ∈ below.firstSets.first previous) : (m.overlap s).sequences a b = false := by
  refine Overlap.sequences_of_heads fun t ht u hu => ?_
  have hbegins := FirstSets.begins_ofRules ha
  have hbegins' := FirstSets.begins_ofRules hb
  rw [ht] at hbegins
  rw [hu, ← htokens] at hbegins'
  cases hbegins with
  | token hn => exact absurd hn hname
  | rule _ hmem hbegins =>
    rw [NameTable.get?_of_mem hnodup hmem] at hbody
    cases hbody
    obtain ⟨l, hl, hleads⟩ := hbegins.leads h.quiet
    obtain ⟨r, hr, hleads'⟩ := hbegins'.leads h.quietBelow
    obtain ⟨hlit, hapart⟩ := hpass l hl
    cases hleads with
    | lit => exact Overlap.terminals_of_lit_apart h.tokens (hapart r hr) hleads'
    | _ => cases hlit

/-- Every overlap of an override is covered by a conflict. -/
theorem Clear.overlaps (h : Clear m below s empties rare rareBelow depth) {x : Layer}
    (hx : x.onlyExtends = true) (hlayer : (addLayer true below x).outcome = .ok m)
    (hnodup : m.rules.names.Nodup) {f : Finding}
    (hf : f ∈ m.overrideFindings s m.firstSets) : f.isCovered m.conflicts = true := by
  obtain ⟨o, ho, hf⟩ := List.mem_flatMap.1 hf
  obtain ⟨p, hp, hf⟩ := List.mem_filterMap.1 hf
  obtain ⟨⟨t, t'⟩, hhit, rfl⟩ := Option.map_eq_some_iff.1 hf
  obtain ⟨t₀, ht, hpair⟩ := List.mem_flatMap.1 (List.mem_of_head? hhit)
  obtain ⟨t₁, ht', heq⟩ := List.mem_map.1 hpair
  cases heq
  obtain ⟨ht', hoverlap⟩ := List.mem_filter.1 ht'
  rcases Bool.or_eq_true_iff.1 (h.alternatives o ho p hp) with hcovers | hpasses
  · exact hcovers
  · exfalso
    rw [h.firstSets_below hlayer ho] at ht'
    cases p with
    | ref name =>
      obtain ⟨hname, hbody⟩ := Bool.and_eq_true_iff.1 hpasses
      obtain ⟨body, hbody, hpass⟩ := (Option.any_eq_true _ _).1 hbody
      have htokens := (added_addLayer hlayer).tokens_eq hx
      rw [h.sequences_of_alternative htokens hnodup (by simpa using hname) hbody
        (by simpa using hpass) ht ht'] at hoverlap
      cases hoverlap
    | _ => cases hpasses

end Merged

/-! ## Grammars -/

theorem outcome_excuseFindings {registry : ConflictRegistry} {findings : List Finding}
    (h : ∀ f ∈ findings, f.isCovered registry = true) :
    (excuseFindings registry findings).outcome = .ok () := by
  have hnotes : ∀ fs : List Finding,
      (fs.forM fun f => (Traced.note (.excused f) : Building Unit)).outcome = .ok () := by
    intro fs
    induction fs with
    | nil => rfl
    | cons f fs ih => exact Traced.outcome_bind.2 ⟨(), rfl, ih⟩
  have hnone : Ambiguity.of? registry findings = none := by
    unfold Ambiguity.of?
    have hfilter : findings.filter (!·.isCovered registry) = [] := by
      rw [List.filter_eq_nil_iff]
      intro f hf
      rw [h f hf]
      decide
    rw [hfilter]
  refine Traced.outcome_bind.2 ⟨(), hnotes _, ?_⟩
  rw [hnone]
  rfl

/-- **Layers build what they merge into**, if their expressions are understood, they pass the checks and
declared conflicts excuse all ambiguities. -/
theorem Grammar.outcome_ofLayers {layers : List Layer} {m : Merged} {start : String} {extras : Extras}
    (hread : (readExpressions layers (Settings.ofLayers layers)).outcome = .ok extras)
    (hm : (Merged.ofLayers layers).outcome = .ok m)
    (hcheck : (m.check (Settings.ofLayers layers)).outcome = .ok start)
    (hcovered : ∀ f ∈ m.findings (Settings.ofLayers layers) m.firstSets,
      f.isCovered m.conflicts = true) :
    (Grammar.ofLayers layers).outcome =
      .ok (m.toGrammar (Settings.ofLayers layers) start extras) :=
  Traced.outcome_bind.2 ⟨extras, hread, Traced.outcome_bind.2 ⟨m, hm,
    Traced.outcome_bind.2 ⟨start, hcheck,
      Traced.outcome_bind.2 ⟨(), outcome_excuseFindings hcovered, rfl⟩⟩⟩⟩

/-- A layer of new rules and extensions whose ambiguities are declared builds on top of others. -/
theorem Merged.Clear.outcome {layers : List Layer} {x : Layer} {m below : Merged} {start : String}
    {extras : Extras} {empties : List String} {rare rareBelow : NameTable (List String)} {depth : Nat}
    (h : Clear m below (Settings.ofLayers (layers ++ [x])) empties rare rareBelow depth)
    (hx : x.onlyExtends = true)
    (hread : (readExpressions (layers ++ [x]) (Settings.ofLayers (layers ++ [x]))).outcome = .ok extras)
    (hbelow : (Merged.ofLayers layers).outcome = .ok below)
    (hm : (Merged.ofLayers (layers ++ [x])).outcome = .ok m)
    (hcheck : (m.check (Settings.ofLayers (layers ++ [x]))).outcome = .ok start) :
    (Grammar.ofLayers (layers ++ [x])).outcome =
      .ok (m.toGrammar (Settings.ofLayers (layers ++ [x])) start extras) := by
  refine Grammar.outcome_ofLayers hread hm hcheck fun f hf => ?_
  have hlayer := ofLayers_append hbelow hm
  rcases List.mem_append.1 hf with hf | hf
  · exact h.overlaps hx hlayer (reached_ofLayers hm).nodup hf
  · exact h.repetitions hf

end LayeredGrammar
