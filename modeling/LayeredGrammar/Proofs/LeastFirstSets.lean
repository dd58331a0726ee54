import LayeredGrammar.Proofs.Analysis.Settling
import Mathlib.Logic.Function.Iterate

/-!
# First sets are the least

First sets are found by updating the rules in place, one after another, until a sweep over all of
them changes nothing. This ends (`FirstSets.settled_ofRules`) at the least sets that are the first
sets of their bodies, which are therefore the same for every order of the rules
(`FirstSets.ofRules_least`).

Two things hold after every single update, wherever in a sweep it is: the sets are no smaller than
before (`FirstSets.Rising.below_update`), and they are within every solution
(`FirstSets.Below.update`). The first bounds the number of sweeps, as a sweep that changes something
adds a sequence; with the second, the end is within every solution and is one.
-/

namespace LayeredGrammar

namespace FirstSets

variable {f g : FirstSets} {rules rules' : NameTable Production} {tokens : List String}

/-! ## Solutions -/

namespace Settled

theorem update_eq (hf : f.Settled rules) {r : String × Production} (hr : r ∈ rules) :
    f.update r = f := by
  unfold update
  rw [NameTable.set_eq_self (hf r hr)]

theorem sweep_eq (hf : f.Settled rules) : f.sweep rules = f :=
  List.foldlRecOn rules update (motive := (· = f)) rfl fun _ hb _ hr => hb.symm ▸ hf.update_eq hr

theorem of_perm (hf : f.Settled rules) (h : rules'.Perm rules) : f.Settled rules' :=
  fun r hr => hf r (h.mem_iff.1 hr)

end Settled

/-- Below a solution, an update stays below it. -/
theorem Below.update (h : f.Below g) (hg : g.Settled rules) {r : String × Production}
    (hr : r ∈ rules) : (f.update r).Below g := by
  refine ⟨h.tokens, fun name a ha => ?_⟩
  rw [known_update] at ha
  split at ha
  · rename_i hn
    exact mem_known.2 ⟨_, hn ▸ hg r hr, h.first r.2 a ha⟩
  · exact h.known name a ha

theorem below_initial {f : FirstSets} (hf : f.tokens = tokens) : (initial rules tokens).Below f := by
  refine ⟨hf.symm, fun name a ha => ?_⟩
  rw [initial, known_empty] at ha
  exact absurd ha (SequenceSet.not_mem_empty a)

/-- **The sets that sweeping ends with are within every solution.** -/
theorem below_ofRules (hg : g.Settled rules) (htokens : g.tokens = tokens) :
    (ofRules rules tokens).Below g :=
  settle_keeps (motive := fun f => f.Below g) (fun _ hr _ hf => hf.update hg hr)
    (below_initial htokens) (sweepBound rules)

/-- Two solutions that are within each other agree on the rules. -/
theorem Settled.get?_eq (hf : f.Settled rules) (hg : g.Settled rules) (hfg : f.Below g)
    (hgf : g.Below f) {r : String × Production} (hr : r ∈ rules) :
    f.table.get? r.1 = g.table.get? r.1 := by
  rw [hf r hr, hg r hr]
  exact congrArg some (SequenceSet.ext_mem fun a => ⟨hfg.first r.2 a, hgf.first r.2 a⟩)

/-! ## Sweeps -/

/-- Sweeping ends after some sweeps, each of which but the last changed the table. -/
theorem exists_settle_eq_iterate (rules : NameTable Production) (n : Nat) (f : FirstSets) :
    ∃ k ≤ n, settle rules n f = (sweep rules)^[k] f ∧
      ∀ j < k, (sweep rules)^[j + 1] f ≠ (sweep rules)^[j] f := by
  induction n generalizing f with
  | zero => exact ⟨0, Nat.le_refl 0, rfl, nofun⟩
  | succ n ih =>
    rw [settle]
    split
    · exact ⟨0, Nat.zero_le _, rfl, nofun⟩
    · rename_i hne
      obtain ⟨k, hk, heq, hchanges⟩ := ih (f.sweep rules)
      refine ⟨k + 1, Nat.succ_le_succ hk, heq, fun j hj => ?_⟩
      cases j with
      | zero => exact fun hsame => hne (congrArg table hsame)
      | succ j => exact hchanges j (Nat.lt_of_succ_lt_succ hj)

namespace Rising

theorem foldl_update (hf : f.Rising rules) (hnames : rules.names.Nodup)
    {rest : List (String × Production)} (hrest : ∀ r ∈ rest, r ∈ rules) :
    (rest.foldl FirstSets.update f).Rising rules :=
  List.foldlRecOn rest FirstSets.update hf fun _ hb r hr => hb.update hnames (hrest r hr)

theorem iterate (hf : f.Rising rules) (hnames : rules.names.Nodup) (n : Nat) :
    ((FirstSets.sweep rules)^[n] f).Rising rules := by
  induction n with
  | zero => exact hf
  | succ n ih =>
    rw [Function.iterate_succ_apply']
    exact (ih.sweep hnames).1

/-- Each sweep that changes something adds a sequence. -/
theorem le_size_iterate (hf : f.Rising rules) (hnames : rules.names.Nodup) {n : Nat}
    (hchanges : ∀ k < n, (FirstSets.sweep rules)^[k + 1] f ≠ (FirstSets.sweep rules)^[k] f) :
    n ≤ ((FirstSets.sweep rules)^[n] f).size := by
  induction n with
  | zero => exact Nat.zero_le _
  | succ n ih =>
    have hsize := ih fun k hk => hchanges k (Nat.lt_succ_of_lt hk)
    have hchange := hchanges n (Nat.lt_succ_self n)
    rw [Function.iterate_succ_apply'] at hchange ⊢
    rcases ((hf.iterate hnames n).sweep hnames).2 with ⟨_, hsame⟩ | hlt
    · exact absurd hsame hchange
    · omega

end Rising

theorem names_ofRules (hnames : rules.names.Nodup) (tokens : List String) :
    (ofRules rules tokens).table.names = rules.names := by
  obtain ⟨n, _, hn, _⟩ :=
    exists_settle_eq_iterate rules (sweepBound rules) (initial rules tokens)
  exact (congrArg (fun f => f.table.names) hn).trans
    ((rising_initial rules tokens).iterate hnames n).names

/-- The sets of a rule are the same for every order of the rules. -/
theorem get?_ofRules_of_perm (hnames : rules.names.Nodup) (hperm : rules'.Perm rules)
    (tokens : List String) (name : String) :
    (ofRules rules' tokens).table.get? name = (ofRules rules tokens).table.get? name := by
  have hperm_names : rules'.names.Perm rules.names := hperm.map Prod.fst
  have hnames' := hperm_names.nodup_iff.2 hnames
  by_cases hname : name ∈ rules.names
  · obtain ⟨r, hr, rfl⟩ := List.mem_map.1 hname
    have hsettled := settled_ofRules hnames tokens
    have hsettled' := (settled_ofRules hnames' tokens).of_perm hperm.symm
    refine hsettled'.get?_eq hsettled ?_ ?_ hr
    · exact below_ofRules (hsettled.of_perm hperm) (tokens_ofRules rules tokens)
    · exact below_ofRules hsettled' (tokens_ofRules rules' tokens)
  · have hname' : name ∉ rules'.names := fun h => hname (hperm_names.mem_iff.1 h)
    rw [← names_ofRules hnames tokens] at hname
    rw [← names_ofRules hnames' tokens] at hname'
    rw [NameTable.get?_eq_none.2 hname, NameTable.get?_eq_none.2 hname']

/-- **First sets are the least solution, whatever the order of the rules.** For rules with different
names, sweeping stops: after fewer sweeps than the bound, each of which changed something, one more
changes nothing. The sets it ends with are the first sets of the bodies of the rules and are within
all sets of which this is true, so rules in another order have the same sets. No update on the way
takes a sequence away. -/
theorem ofRules_least (hnames : rules.names.Nodup) (tokens : List String) :
    (∃ n < sweepBound rules,
      ofRules rules tokens = (sweep rules)^[n] (initial rules tokens) ∧
      sweep rules (ofRules rules tokens) = ofRules rules tokens ∧
      ∀ k < n, (sweep rules)^[k + 1] (initial rules tokens) ≠
        (sweep rules)^[k] (initial rules tokens)) ∧
    ((ofRules rules tokens).tokens = tokens ∧
      (ofRules rules tokens).table.names = rules.names ∧ (ofRules rules tokens).Settled rules) ∧
    (∀ g : FirstSets, g.tokens = tokens → g.Settled rules → (ofRules rules tokens).Below g) ∧
    (∀ rules' : NameTable Production, rules'.Perm rules → ∀ name,
      (ofRules rules' tokens).table.get? name = (ofRules rules tokens).table.get? name) ∧
    ∀ n before r after, rules = before ++ r :: after →
      let f := before.foldl update ((sweep rules)^[n] (initial rules tokens))
      f.Below (f.update r) := by
  have hsettled := settled_ofRules hnames tokens
  have hrising := fun n => (rising_initial rules tokens).iterate hnames n
  obtain ⟨n, _, hn, hchanges⟩ :=
    exists_settle_eq_iterate rules (sweepBound rules) (initial rules tokens)
  replace hn : ofRules rules tokens = (sweep rules)^[n] (initial rules tokens) := hn
  have hlt : n < sweepBound rules :=
    Nat.lt_of_le_of_lt ((rising_initial rules tokens).le_size_iterate hnames hchanges)
      ((hrising n).size_lt hnames)
  refine ⟨⟨n, hlt, hn, hsettled.sweep_eq, hchanges⟩,
    ⟨tokens_ofRules rules tokens, names_ofRules hnames tokens, hsettled⟩,
    fun g htokens hg => below_ofRules hg htokens,
    fun rules' hperm name => get?_ofRules_of_perm hnames hperm tokens name, ?_⟩
  rintro m before r after rfl f
  have hbefore : ∀ q ∈ before, q ∈ before ++ r :: after := fun q hq => List.mem_append_left _ hq
  exact ((hrising m).foldl_update hnames hbefore).below_update (by simp)

/-- Two rules that begin with each other. -/
def spiral : NameTable Production :=
  [("inner", .choice [.seq [.ref "outer", .lit ")"], .lit "a"]),
   ("outer", .choice [.ref "inner", .blank])]

/-- Sets for `spiral` that support each other in one sequence too many. -/
def spiralExcess : FirstSets :=
  let inner : List Sequence :=
    [["'a'"], ["')'"], ["'a'", "')'"], ["')'", "')'"], ["'x'", "'y'"]]
  ⟨[], [("inner", .ofList inner), ("outer", .ofList ([] :: inner))]⟩

/-- The excess solves the equations of `spiral` as well, and is not the least solution, which the
other order of the two rules leads to in the same way. -/
theorem spiral_least :
    spiral.names.Nodup ∧ spiralExcess.Settled spiral ∧
      (ofRules spiral []).Below spiralExcess ∧ ¬spiralExcess.Below (ofRules spiral []) ∧
      (ofRules spiral.reverse []).table.get? "outer" = (ofRules spiral []).table.get? "outer" := by
  have hnames : spiral.names.Nodup := by decide
  have hsettled : spiralExcess.Settled spiral := by
    unfold Settled
    decide +kernel
  obtain ⟨_, _, hleast, horder, _⟩ := ofRules_least hnames []
  refine ⟨hnames, hsettled, hleast spiralExcess rfl hsettled, fun h => ?_,
    horder spiral.reverse (List.reverse_perm spiral) "outer"⟩
  have hexcess := h.known "inner" ["'x'", "'y'"] (by decide +kernel)
  exact absurd hexcess (by decide +kernel)

end FirstSets

end LayeredGrammar
