import LayeredGrammar.Catalog.Grammars
import LayeredGrammar.Proofs.Analysis.Visits
import LayeredGrammar.Proofs.Grammar.Alternatives

/-!
# Open repetitions and what was asked before

The analysis of open repetitions remembers the tails of rules from one request to the next, and what it
remembers for a rule that it has looked at inside another one can be incomplete.

* `TailAnalysis.tail_after` — asked first, the analysis finds exactly what a production stays open into;
  asked later it finds no more, and the same as long as no two rules lead to each other.
* `TailAnalysis.scan_after`, `Merged.repetitionFindings_eq` — then also the open repetitions that are
  reported do not depend on the order in which productions are scanned.
* `Catalog.repetitionFindings_objc` — no rules of the Objective-C layer lead to each other
  (`TailAnalysis.acyclic_of_rank`).
* `Merged.repetition_missed` — rules that do, in a stack where an open repetition is not reported.
-/

namespace LayeredGrammar

namespace TailAnalysis

variable {a : TailAnalysis} {α β : Type}

/-! ## Requests -/

/-- Whatever passes from steps to their sequence and holds of single tails holds of a scan. -/
theorem scan_induction {motive : ∀ {α : Type}, StateM Progress α → Prop}
    (hpure : ∀ {α : Type} (x : α), motive (pure x : StateM Progress α))
    (hbind : ∀ {α β : Type} {x : StateM Progress α} {f : α → StateM Progress β},
      motive x → (∀ v, motive (f v)) → motive (x >>= f))
    (htail : ∀ p owner, motive (a.tail p owner)) (p : Production) (place : String) :
    motive (a.scan p place) := by
  have hitems : ∀ items, motive (a.scanItems place items) := by
    intro items
    fun_induction scanItems a place items with
    | case1 | case2 => exact hpure _
    | case3 p q rest ih =>
      refine hbind (hbind (htail p place) fun tails => ?_) fun _ => hbind ih fun _ => hpure _
      split <;> exact hpure _
  have hwalk : ∀ ps : List Production, motive (ps.mapM (a.scanOne place)) := by
    intro ps
    induction ps with
    | nil => exact hpure _
    | cons q ps ih =>
      rw [List.mapM_cons]
      refine hbind ?_ fun _ => hbind ih fun _ => hpure _
      cases q with
      | seq items => exact hitems items
      | _ => exact hpure _
  exact hbind (hwalk p.walk) fun _ => hpure _

/-- What the analysis can be asked for. -/
inductive Request where
  | tail (p : Production) (owner : String)
  | rule (name : String)
  | scan (p : Production) (place : String)

/-- What is remembered after a request. -/
def ask (a : TailAnalysis) (st : Progress) : Request → Progress
  | .tail p owner => ((a.tail p owner).run st).2
  | .rule name => ((a.ruleTail name).run st).2
  | .scan p place => ((a.scan p place).run st).2

/-- What is remembered after requests that were made one after another. -/
def after (a : TailAnalysis) (history : List Request) : Progress := history.foldl a.ask {}

theorem Resting.ask {st : Progress} (h : a.Resting st) (r : Request) : a.Resting (a.ask st r) := by
  cases r with
  | tail p owner => exact (visit_tail h p owner).resting h
  | rule name => exact (visit_ruleTail h name name).resting h
  | scan p place =>
    have hscan : ∀ st, a.Resting st → a.Resting ((a.scan p place).run st).2 :=
      scan_induction (motive := fun x => ∀ st, a.Resting st → a.Resting (x.run st).2)
        (fun _ _ hst => hst) (fun hx hf st hst => hf _ _ (hx st hst))
        (fun p owner st hst => (visit_tail hst p owner).resting hst) p place
    exact hscan st h

theorem resting_after (history : List Request) : a.Resting (a.after history) := by
  have hfold : ∀ (history : List Request) (st : Progress), a.Resting st →
      a.Resting (history.foldl a.ask st) := by
    intro history
    induction history with
    | nil => exact fun _ hst => hst
    | cons r history ih => exact fun st hst => ih _ (hst.ask r)
  exact hfold history {} (resting_empty a)

/-- A computation that ends in the same way whatever is remembered. -/
def Steady (a : TailAnalysis) (x : StateM Progress α) : Prop :=
  ∀ st, a.Resting st → (x.run st).1 = (x.run {}).1 ∧ a.Resting (x.run st).2

namespace Steady

protected theorem pure (v : α) : a.Steady (pure v : StateM Progress α) := fun _ hst => ⟨rfl, hst⟩

protected theorem bind {x : StateM Progress α} {f : α → StateM Progress β} (hx : a.Steady x)
    (hf : ∀ v, a.Steady (f v)) : a.Steady (x >>= f) := by
  intro st hst
  obtain ⟨heq, hrest⟩ := hx st hst
  obtain ⟨_, hempty⟩ := hx {} (resting_empty a)
  obtain ⟨hleft, hleft'⟩ := hf (x.run st).1 _ hrest
  obtain ⟨hright, _⟩ := hf (x.run {}).1 _ hempty
  refine ⟨?_, hleft'⟩
  show ((f (x.run st).1).run (x.run st).2).1 = ((f (x.run {}).1).run (x.run {}).2).1
  rw [hleft, hright, heq]

/-- One computation for each element of a list. -/
protected theorem mapM {f : β → StateM Progress α} (hf : ∀ v, a.Steady (f v)) (l : List β)
    (st : Progress) (hst : a.Resting st) :
    ((l.mapM f).run st).1 = l.map fun v => ((f v).run {}).1 := by
  induction l generalizing st with
  | nil => rfl
  | cons v l ih =>
    obtain ⟨heq, hrest⟩ := hf v st hst
    rw [List.mapM_cons, List.map_cons, ← heq, ← ih _ hrest]
    rfl

end Steady

/-! ## Tails -/

theorem steady_tail (h : a.Acyclic) (p : Production) (owner : String) :
    a.Steady (a.tail p owner) := by
  intro st hst
  have hfresh := visit_tail (resting_empty a) p owner
  have hfound := visit_tail hst p owner
  refine ⟨hfound.sorted.ext hfresh.sorted fun holder s => ?_, hfound.resting hst⟩
  rw [holds_iff_shows hfresh]
  exact ⟨hfound.sound holder s, holds_of_shows h hst hfound⟩

/-- **Open tails and what was asked before.** Asked first, the analysis finds what a production stays
open into, and nothing else. Asked after any requests it finds no more than that. As long as no two
rules lead to each other it finds the same. -/
theorem tail_after (a : TailAnalysis) (history : List Request) (p : Production) (owner : String) :
    (∀ holder s, ((a.tail p owner).run {}).1.Holds holder s ↔
      ∃ content, a.OpensInto owner p holder content ∧
        ∀ x ∈ s, x ∈ (a.first.first content).nonempty) ∧
    (∀ holder s, ((a.tail p owner).run (a.after history)).1.Holds holder s →
      ((a.tail p owner).run {}).1.Holds holder s) ∧
    (a.Acyclic →
      ((a.tail p owner).run (a.after history)).1 = ((a.tail p owner).run {}).1) := by
  have hresting := resting_after (a := a) history
  have hfresh := visit_tail (resting_empty a) p owner
  have hfound := visit_tail hresting p owner
  refine ⟨fun holder s => ?_, fun holder s hs => ?_, fun hacyclic => ?_⟩
  · rw [holds_iff_shows hfresh, shows_tips_iff]
  · exact (holds_iff_shows hfresh).2 (hfound.sound holder s hs)
  · exact (steady_tail hacyclic p owner _ hresting).1

/-- **What is scanned first does not matter** as long as no two rules lead to each other. -/
theorem scan_after (h : a.Acyclic) (history : List Request) (p : Production) (place : String) :
    ((a.scan p place).run (a.after history)).1 = ((a.scan p place).run {}).1 :=
  (scan_induction (motive := a.Steady) Steady.pure Steady.bind (steady_tail h) p place _
    (resting_after history)).1

/-! ## Rules that do not lead to each other -/

theorem exists_tip_of_tipsSeq {t : Tip} {ps : List Production} (h : t ∈ a.tipsSeq ps) :
    ∃ p ∈ ps, t ∈ a.tips p := by
  induction ps with
  | nil => cases h
  | cons p ps ih =>
    rcases List.mem_append.1 h with h | h
    · obtain ⟨q, hq, ht⟩ := ih h
      exact ⟨q, List.mem_cons_of_mem _ hq, ht⟩
    · split at h
      · exact ⟨p, List.mem_cons_self, h⟩
      · cases h

/-- References at open ends are references. -/
theorem mem_references_of_tip {n : String} (p : Production) (h : .rule n ∈ a.tips p) :
    n ∈ p.references := by
  rw [Production.mem_references]
  induction p using Production.induction_children with
  | step p ih =>
    have hbelow : ∀ q ∈ p.children, .rule n ∈ a.tips q → .ref n ∈ p.walk :=
      fun q hq ht => Production.walk_of_child hq (ih q hq ht)
    cases p with
    | ref m =>
      cases List.mem_singleton.1 h
      exact Production.mem_walk_self _
    | rep q => exact hbelow q List.mem_cons_self ((List.mem_cons.1 h).resolve_left nofun)
    | opt q | field _ q | renamed q | prec _ q => exact hbelow q List.mem_cons_self h
    | seq items =>
      obtain ⟨q, hq, ht⟩ := exists_tip_of_tipsSeq h
      exact hbelow q hq ht
    | choice members =>
      obtain ⟨q, hq, ht⟩ := mem_tipsAny.1 h
      exact hbelow q hq ht
    | lit | blank => cases h

/-- How deep the references of a rule into other rules nest, up to a bound. -/
def nesting (a : TailAnalysis) : Nat → String → Nat
  | 0, _ => 0
  | bound + 1, n =>
    match a.bodyOf? n with
    | some body => (body.references.map (a.nesting bound)).foldl max 0 + 1
    | none => 0

/-- Rules whose references always go down in some order do not lead to each other. -/
theorem acyclic_of_rank (rank : String → Nat) (h : ∀ n ∈ a.tableRules,
    ∀ body ∈ a.rules.get? n, ∀ m ∈ body.references, rank m < rank n) : a.Acyclic := by
  have hreaches : ∀ m n, a.Reaches m n → m = n ∨ rank n < rank m := by
    intro m n hmn
    induction hmn with
    | refl => exact Or.inl rfl
    | tail _ hstep ih =>
      obtain ⟨body, hbody, htip, _⟩ := hstep
      obtain ⟨htable, hrule⟩ := bodyOf?_eq_some.1 hbody
      have hlt := h _ htable body hrule _ (mem_references_of_tip body htip)
      rcases ih with rfl | hdown
      · exact Or.inr hlt
      · exact Or.inr (Nat.lt_trans hlt hdown)
  intro m n hmn hnm
  rcases hreaches m n hmn with heq | hlt
  · exact heq
  · rcases hreaches n m hnm with heq | hgt
    · exact heq.symm
    · exact absurd hgt (Nat.lt_asymm hlt)

end TailAnalysis

/-! ## Reports -/

/-- The analysis of the open repetitions of merged layers. -/
def Merged.tailAnalysis (m : Merged) (s : Settings) (first : FirstSets) : TailAnalysis :=
  ⟨m.rules, sortedNames m.tableRules, first, m.overlap s⟩

/-- The open repetitions that layers report are those of each production on its own, as long as no two
rules lead to each other. -/
theorem Merged.repetitionFindings_eq (m : Merged) (s : Settings) (first : FirstSets)
    (h : (m.tailAnalysis s first).Acyclic) : m.repetitionFindings s first =
      m.scanned.flatMap fun r => (((m.tailAnalysis s first).scan r.2 r.1).run {}).1 := by
  have hscan : ∀ r : String × Production,
      (m.tailAnalysis s first).Steady ((m.tailAnalysis s first).scan r.2 r.1) := fun r =>
    TailAnalysis.scan_induction (motive := (m.tailAnalysis s first).Steady) TailAnalysis.Steady.pure
      TailAnalysis.Steady.bind (TailAnalysis.steady_tail h) r.2 r.1
  unfold repetitionFindings
  show ((m.scanned.mapM fun r => (m.tailAnalysis s first).scan r.2 r.1).run {}).1.flatten = _
  rw [TailAnalysis.Steady.mapM hscan _ _ (TailAnalysis.resting_empty _), List.flatMap_def]

open Catalog in
/-- The rules of the Objective-C layer do not lead to each other, so what is reported of their open
repetitions does not depend on their order. -/
theorem Catalog.repetitionFindings_objc : ∃ m, (Merged.ofLayers objcLayers).outcome = .ok m ∧
    ∀ s first, m.repetitionFindings s first =
      m.scanned.flatMap fun r => (((m.tailAnalysis s first).scan r.2 r.1).run {}).1 := by
  -- the settings and the first sets play no part in which rules a rule refers to
  have hcheck : ((Merged.ofLayers objcLayers).outcome.toOption.any fun m =>
      let a : TailAnalysis := m.tailAnalysis (.ofLayers objcLayers) ⟨[], []⟩
      decide (∀ n ∈ a.tableRules, ∀ body ∈ a.rules.get? n, ∀ k ∈ body.references,
        a.nesting 9 k < a.nesting 9 n)) = true := by
    decide +kernel
  obtain ⟨m, hm, hcheck⟩ := Traced.exists_of_any hcheck
  refine ⟨m, hm, fun s first => m.repetitionFindings_eq s first ?_⟩
  exact TailAnalysis.acyclic_of_rank _ (of_decide_eq_true hcheck)

/-- A layer of one rule, and a layer with two rules that lead to each other and uses of each. -/
def Layer.crossing : List Layer :=
  [{ name := "Base"
     start := some (some "source")
     word := some none
     members := [("source", .rule none (.lit "s"))] },
   { name := "Crossing"
     members :=
       [("a_first", .rule none (.seq [.ref "left", .lit ";"])),
        ("left", .rule none (.choice [.ref "right", .rep (.lit "x") 0 false])),
        ("right", .rule none (.choice [.ref "left", .rep (.lit "y") 0 false])),
        ("use", .rule none (.seq [.ref "right", .lit "x"]))] }]

/-- What is found for `right` while `left` is looked at lacks the repetition of `left`, and this is
remembered. As `a_first` has `left` looked at first, the open repetition in `use` is not reported, and
the layers build. -/
theorem Merged.repetition_missed : ∃ m a, (ofLayers Layer.crossing).outcome = .ok m ∧
    m.tailAnalysis (.ofLayers Layer.crossing) m.firstSets = a ∧
    (((a.tail (.ref "right") "use").run {}).1.map (·.1) = ["left", "right"] ∧
      ((a.tail (.ref "right") "use").run (a.after [.rule "left"])).1.map (·.1) = ["right"]) ∧
    (m.repetitionFindings (.ofLayers Layer.crossing) m.firstSets = [] ∧
      (m.scanned.flatMap fun r => ((a.scan r.2 r.1).run {}).1) ≠ []) ∧
    (ParseTable.ofLayers Layer.crossing).outcome.isOk = true := by
  have hrun : ((ofLayers Layer.crossing).outcome.toOption.any fun m =>
      let a := m.tailAnalysis (.ofLayers Layer.crossing) m.firstSets
      decide ((((a.tail (.ref "right") "use").run {}).1.map (·.1) = ["left", "right"] ∧
        ((a.tail (.ref "right") "use").run (a.after [.rule "left"])).1.map (·.1) = ["right"]) ∧
      (m.repetitionFindings (.ofLayers Layer.crossing) m.firstSets = [] ∧
        (m.scanned.flatMap fun r => ((a.scan r.2 r.1).run {}).1) ≠ []))) = true := by
    decide +kernel
  obtain ⟨m, hm, hrun⟩ := Traced.exists_of_any hrun
  obtain ⟨htails, hfindings⟩ := of_decide_eq_true hrun
  exact ⟨m, _, hm, rfl, htails, hfindings, by decide +kernel⟩

end LayeredGrammar
