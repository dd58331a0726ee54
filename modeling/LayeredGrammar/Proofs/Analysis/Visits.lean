import LayeredGrammar.Proofs.Analysis.OpenEnds
import Mathlib.Data.List.Nodup
import Mathlib.Logic.Relation

/-!
# Looking at open ends

The analysis comes to the open ends of a production one after another (`TailAnalysis.tips`): a
repetition contributes its rounds, and a reference leads into a rule, which is looked at in the same way
and then remembered, unless it is being looked at already.

* `TailAnalysis.Visit` — what looking at open ends does to the memory and what it finds, for a
  production (`TailAnalysis.visit_openTail`), for a rule (`TailAnalysis.visit_ruleTailWithin`), and for
  open ends one after another (`TailAnalysis.Visit.append`).
* `TailAnalysis.Sane` — what holds of the memory at all times. What is remembered for a rule comes from
  rules that it leads to; it is all of that where no two rules lead to each other
  (`TailAnalysis.Entry`). If they do, one of them is looked at inside the other, without what the other
  contributes.
* `TailAnalysis.holds_iff_shows` — without a memory the analysis finds everything: whatever a rule
  leads to is looked at meanwhile, so that it contributes to what is found even if it is missing from
  what is remembered.
* `TailAnalysis.shows_tips_iff` — in terms of what the production stays open into.
-/

namespace LayeredGrammar

/-! ## What tails hold -/

namespace Tails

/-- Tails hold an owner, and one of its sequences if one is given. -/
def Holds (tails : Tails) (holder : String) (s : Option Sequence) : Prop :=
  ∃ seqs, (holder, seqs) ∈ tails ∧ ∀ x ∈ s, x ∈ seqs

/-- Tails with their owners in order, each once. -/
def Sorted (tails : Tails) : Prop := tails.Pairwise fun e e' => e.1 < e'.1

variable {tails : Tails} {owner holder : String} {t : SequenceSet} {s : Option Sequence}

theorem not_holds_nil : ¬Holds [] holder s := nofun

theorem holds_cons {e : String × SequenceSet} :
    Holds (e :: tails) holder s ↔ (holder = e.1 ∧ ∀ x ∈ s, x ∈ e.2) ∨ tails.Holds holder s := by
  unfold Holds
  constructor
  · rintro ⟨seqs, hmem, hs⟩
    rcases List.mem_cons.1 hmem with rfl | hmem
    · exact Or.inl ⟨rfl, hs⟩
    · exact Or.inr ⟨seqs, hmem, hs⟩
  · rintro (⟨rfl, hs⟩ | ⟨seqs, hmem, hs⟩)
    · exact ⟨e.2, List.mem_cons_self, hs⟩
    · exact ⟨seqs, List.mem_cons_of_mem _ hmem, hs⟩

theorem holds_add : (add owner t tails).Holds holder s ↔
    (holder = owner ∧ ∀ x ∈ s, x ∈ t) ∨ tails.Holds holder s := by
  induction tails with
  | nil => exact holds_cons
  | cons e rest ih =>
    obtain ⟨o, t'⟩ := e
    simp only [add]
    split
    · rename_i heq
      subst heq
      have hunion : (∀ x ∈ s, x ∈ t'.union t) ↔ (∀ x ∈ s, x ∈ t) ∨ ∀ x ∈ s, x ∈ t' := by
        cases s with
        | none => simp
        | some x => simp [or_comm]
      rw [holds_cons, holds_cons, hunion, and_or_left, or_assoc]
    · split
      · rw [holds_cons]
      · rw [holds_cons, ih, holds_cons, or_left_comm]

theorem holds_union {a b : Tails} :
    (union a b).Holds holder s ↔ a.Holds holder s ∨ b.Holds holder s := by
  unfold union
  induction b generalizing a with
  | nil => simp [not_holds_nil]
  | cons e b ih => rw [List.foldl_cons, ih, holds_add, holds_cons, or_assoc, or_left_comm]

theorem fst_mem_add {e : String × SequenceSet} (h : e ∈ add owner t tails) :
    e.1 = owner ∨ ∃ e' ∈ tails, e'.1 = e.1 := by
  obtain ⟨o, t'⟩ := e
  have hholds : (add owner t tails).Holds o none := ⟨t', h, nofun⟩
  rcases holds_add.1 hholds with ⟨heq, _⟩ | ⟨seqs, hmem, _⟩
  · exact Or.inl heq
  · exact Or.inr ⟨_, hmem, rfl⟩

theorem Sorted.add (h : tails.Sorted) : (add owner t tails).Sorted := by
  induction tails with
  | nil => exact List.pairwise_singleton _ _
  | cons e rest ih =>
    obtain ⟨o, t'⟩ := e
    obtain ⟨hfirst, hrest⟩ := List.pairwise_cons.1 h
    simp only [Tails.add]
    split
    · exact List.pairwise_cons.2 ⟨hfirst, hrest⟩
    · rename_i hne
      split
      · rename_i hlt
        refine List.pairwise_cons.2 ⟨?_, h⟩
        exact List.forall_mem_cons.2 ⟨hlt, fun e he => String.lt_trans hlt (hfirst e he)⟩
      · rename_i hnlt
        have hlt : o < owner := by
          rcases Std.lt_trichotomy owner o with h | h | h
          · exact absurd h hnlt
          · exact absurd h hne
          · exact h
        refine List.pairwise_cons.2 ⟨fun e he => ?_, ih hrest⟩
        rcases fst_mem_add he with heq | ⟨e', he', heq⟩
        · exact heq ▸ hlt
        · exact heq ▸ hfirst e' he'

theorem Sorted.union {a b : Tails} (h : a.Sorted) : (union a b).Sorted := by
  unfold Tails.union
  induction b generalizing a with
  | nil => exact h
  | cons e b ih => exact ih h.add

theorem Sorted.nodup (h : tails.Sorted) : (tails.map (·.1)).Nodup :=
  List.pairwise_map.2 (h.imp fun hlt => Std.ne_of_lt hlt)

/-- In sorted tails every owner has one entry. -/
theorem Sorted.holds_iff (h : tails.Sorted) {seqs : SequenceSet} (hmem : (holder, seqs) ∈ tails) :
    tails.Holds holder s ↔ ∀ x ∈ s, x ∈ seqs := by
  refine ⟨fun ⟨seqs', hmem', hs⟩ => ?_, fun hs => ⟨seqs, hmem, hs⟩⟩
  cases List.inj_on_of_nodup_map h.nodup hmem' hmem rfl
  exact hs

/-- Sorted tails that hold the same are equal. -/
theorem Sorted.ext {a b : Tails} (ha : a.Sorted) (hb : b.Sorted)
    (h : ∀ holder s, a.Holds holder s ↔ b.Holds holder s) : a = b := by
  have hsub : ∀ {a b : Tails}, a.Sorted → b.Sorted →
      (∀ holder s, a.Holds holder s ↔ b.Holds holder s) → ∀ e ∈ a, e ∈ b := by
    rintro a b ha hb h ⟨holder, seqs⟩ he
    obtain ⟨seqs', he', _⟩ := (h holder none).1 ⟨seqs, he, nofun⟩
    have hsame : seqs = seqs' := by
      refine SequenceSet.ext_mem fun x => ?_
      have hx := h holder (some x)
      rw [ha.holds_iff he, hb.holds_iff he'] at hx
      simpa using hx
    exact hsame ▸ he'
  refine List.Perm.eq_of_pairwise (fun e e' _ _ hlt hlt' => ?_) ha hb ?_
  · exact absurd (String.lt_trans hlt hlt') (String.lt_irrefl _)
  · refine (List.perm_ext_iff_of_nodup ?_ ?_).2 fun e => ⟨hsub ha hb h e, hsub hb ha ?_ e⟩
    · exact ha.nodup.of_map _
    · exact hb.nodup.of_map _
    · exact fun holder s => (h holder s).symm

end Tails

namespace TailAnalysis

/-! ## The open ends of a production -/

/-- An open end of a production: a repetition of some content, or a reference. -/
inductive Tip where
  | round (content : Production)
  | rule (name : String)

mutual

/-- The open ends of a production, in the order in which the analysis comes to them. -/
def tips (a : TailAnalysis) : Production → List Tip
  | .rep p _ _ => .round p :: tips a p
  | .seq items => tipsSeq a items
  | .choice members => tipsAny a members
  | .opt p => tips a p
  | .field _ p => tips a p
  | .renamed p _ => tips a p
  | .prec _ p _ _ => tips a p
  | .ref n => [.rule n]
  | .lit _ => []
  | .blank => []

/-- The open ends of items in a row. -/
def tipsSeq (a : TailAnalysis) : List Production → List Tip
  | [] => []
  | p :: ps => tipsSeq a ps ++ if ps.all a.first.nullable then tips a p else []

/-- The open ends of all members. -/
def tipsAny (a : TailAnalysis) : List Production → List Tip
  | [] => []
  | p :: ps => tips a p ++ tipsAny a ps

end

/-- The body of a rule that references lead into. -/
def bodyOf? (a : TailAnalysis) (name : String) : Option Production :=
  if a.tableRules.contains name then a.rules.get? name else none

/-- A rule has a reference to another one at an open end. -/
def Step (a : TailAnalysis) (m n : String) : Prop :=
  ∃ body, a.bodyOf? m = some body ∧ .rule n ∈ a.tips body ∧ (a.bodyOf? n).isSome = true

/-- A rule leads to another one through references at open ends. -/
abbrev Reaches (a : TailAnalysis) : String → String → Prop := Relation.ReflTransGen a.Step

/-- No two different rules lead to each other through references at open ends. -/
def Acyclic (a : TailAnalysis) : Prop := ∀ m n, a.Reaches m n → a.Reaches n m → m = n

/-- What the repetitions among open ends inside `owner` contribute to tails. -/
def Rounds (a : TailAnalysis) (owner : String) (ts : List Tip) (holder : String)
    (s : Option Sequence) : Prop :=
  holder = owner ∧ ∃ p, .round p ∈ ts ∧ ∀ x ∈ s, x ∈ (a.first.first p).nonempty

/-- What the repetitions at the open ends of a rule contribute. -/
def Gives (a : TailAnalysis) (n holder : String) (s : Option Sequence) : Prop :=
  ∃ body, a.bodyOf? n = some body ∧ a.Rounds n (a.tips body) holder s

/-- What open ends inside `owner` contribute, with the rules that their references lead to. -/
def Shows (a : TailAnalysis) (owner : String) (ts : List Tip) (holder : String)
    (s : Option Sequence) : Prop :=
  a.Rounds owner ts holder s ∨
    ∃ n, .rule n ∈ ts ∧ ∃ q, a.Reaches n q ∧ a.Gives q holder s

variable {a : TailAnalysis} {owner holder : String} {s : Option Sequence} {ts ts' : List Tip}

theorem rounds_append : a.Rounds owner (ts ++ ts') holder s ↔
    a.Rounds owner ts holder s ∨ a.Rounds owner ts' holder s := by
  simp only [Rounds, List.mem_append, or_and_right, exists_or, and_or_left]

theorem shows_append : a.Shows owner (ts ++ ts') holder s ↔
    a.Shows owner ts holder s ∨ a.Shows owner ts' holder s := by
  simp only [Shows, rounds_append, List.mem_append, or_and_right, exists_or]
  exact or_or_or_comm

/-- A rule that leads to one with something to contribute has a body. -/
theorem isSome_of_reaches {n q : String} (h : a.Reaches n q) (hg : a.Gives q holder s) :
    (a.bodyOf? n).isSome = true := by
  rcases h.cases_head with rfl | ⟨_, ⟨body, hbody, _⟩, _⟩
  · obtain ⟨body, hbody, _⟩ := hg
    rw [hbody]
    rfl
  · rw [hbody]
    rfl

/-! ## Visits -/

/-- Tails that are remembered for a rule. What they hold comes from rules that it leads to, and they hold
all of that unless rules lead to each other. -/
structure Entry (a : TailAnalysis) (n : String) (tails : Tails) : Prop where
  sorted : tails.Sorted
  sound : ∀ holder s, tails.Holds holder s → ∃ q, a.Reaches n q ∧ a.Gives q holder s
  exact : a.Acyclic → ∀ q, a.Reaches n q → ∀ holder s, a.Gives q holder s → tails.Holds holder s

/-- What holds of the memory at all times. -/
structure Sane (a : TailAnalysis) (st : Progress) : Prop where
  nodup : st.active.Nodup
  table : ∀ n ∈ st.active, n ∈ a.tableRules
  /-- A rule that is being looked at is not remembered yet. -/
  apart : ∀ n ∈ st.active, st.known.get? n = none
  /-- A remembered rule leads to rules that are remembered or being looked at. -/
  closed : ∀ m x, st.known.get? m = some x → ∀ n, a.Step m n →
    n ∈ st.active ∨ ∃ y, st.known.get? n = some y
  entries : ∀ m x, st.known.get? m = some x → a.Entry m x

/-- What looking at open ends inside `owner` does to the memory, and what it finds. -/
structure Visit (a : TailAnalysis) (owner : String) (ts : List Tip) (st : Progress) (found : Tails)
    (st' : Progress) : Prop where
  sane : a.Sane st'
  active : st'.active = st.active
  known : ∀ n x, st.known.get? n = some x → st'.known.get? n = some x
  sorted : found.Sorted
  sound : ∀ holder s, found.Holds holder s → a.Shows owner ts holder s
  rounds : ∀ holder s, a.Rounds owner ts holder s → found.Holds holder s
  /-- A rule that was not being looked at is remembered afterwards, and its tails are among those
  found. -/
  rules : ∀ n, .rule n ∈ ts → (a.bodyOf? n).isSome = true → n ∈ st.active ∨
    ∃ x, st'.known.get? n = some x ∧ ∀ holder s, x.Holds holder s → found.Holds holder s
  /-- The contributions of all rules that have come to be remembered are among those found. -/
  fresh : ∀ n x, st.known.get? n = none → st'.known.get? n = some x →
    ∀ holder s, a.Gives n holder s → found.Holds holder s

namespace Visit

variable {st st₁ st₂ : Progress} {found found' : Tails}

theorem nil (h : a.Sane st) : a.Visit owner [] st [] st where
  sane := h
  active := rfl
  known _ _ hx := hx
  sorted := .nil
  sound _ _ hs := absurd hs Tails.not_holds_nil
  rounds _ _ := fun ⟨_, _, hp, _⟩ => absurd hp List.not_mem_nil
  rules _ hn := absurd hn List.not_mem_nil
  fresh _ _ hnone hsome := nomatch hnone.symm.trans hsome

theorem round (h : a.Sane st) (p : Production) :
    a.Visit owner [.round p] st [(owner, (a.first.first p).nonempty)] st := by
  have hholds : ∀ holder s, Tails.Holds [(owner, (a.first.first p).nonempty)] holder s ↔
      a.Rounds owner [.round p] holder s := by
    intro holder s
    rw [Tails.holds_cons, or_iff_left Tails.not_holds_nil]
    simp [Rounds]
  exact {
    sane := h
    active := rfl
    known := fun _ _ hx => hx
    sorted := List.pairwise_singleton _ _
    sound := fun holder s hs => Or.inl ((hholds holder s).1 hs)
    rounds := fun holder s hs => (hholds holder s).2 hs
    rules := fun _ hn => nomatch List.mem_singleton.1 hn
    fresh := fun _ _ hnone hsome => nomatch hnone.symm.trans hsome }

/-- Looking at open ends one after another. -/
theorem append (h : a.Visit owner ts st found st₁) (h' : a.Visit owner ts' st₁ found' st₂) :
    a.Visit owner (ts ++ ts') st (found.union found') st₂ where
  sane := h'.sane
  active := h'.active.trans h.active
  known n x hx := h'.known n x (h.known n x hx)
  sorted := h.sorted.union
  sound holder s hs := by
    rw [shows_append]
    exact (Tails.holds_union.1 hs).imp (h.sound holder s) (h'.sound holder s)
  rounds holder s hs :=
    Tails.holds_union.2 ((rounds_append.1 hs).imp (h.rounds holder s) (h'.rounds holder s))
  rules n hn hbody := by
    rcases List.mem_append.1 hn with hn | hn
    · refine (h.rules n hn hbody).imp id fun ⟨x, hx, hsub⟩ => ⟨x, h'.known n x hx, ?_⟩
      exact fun holder s hs => Tails.holds_union.2 (Or.inl (hsub holder s hs))
    · refine (h'.rules n hn hbody).imp (fun hactive => h.active ▸ hactive)
        fun ⟨x, hx, hsub⟩ => ⟨x, hx, ?_⟩
      exact fun holder s hs => Tails.holds_union.2 (Or.inr (hsub holder s hs))
  fresh n x hnone hsome holder s hs := by
    rw [Tails.holds_union]
    cases hmid : st₁.known.get? n with
    | none => exact Or.inr (h'.fresh n x hmid hsome holder s hs)
    | some y => exact Or.inl (h.fresh n y hnone hmid holder s hs)

end Visit

/-- A way of looking at rules visits those among some open ends, as long as the given rules are being
looked at. -/
def Visits (a : TailAnalysis) (ruleTail : String → StateM Progress Tails) (active : List String)
    (ts : List Tip) : Prop :=
  ∀ n, .rule n ∈ ts → ∀ owner st, a.Sane st → st.active = active →
    a.Visit owner [.rule n] st ((ruleTail n).run st).1 ((ruleTail n).run st).2

variable {ruleTail : String → StateM Progress Tails} {active : List String}

theorem Visits.of_subset (h : a.Visits ruleTail active ts) (hsub : ts' ⊆ ts) :
    a.Visits ruleTail active ts' :=
  fun n hn => h n (hsub hn)

mutual

/-- The analysis visits the open ends of a production. -/
theorem visit_openTail (owner : String) : ∀ (p : Production), a.Visits ruleTail active (a.tips p) →
    ∀ st, a.Sane st → st.active = active →
    a.Visit owner (a.tips p) st ((a.openTail ruleTail owner p).run st).1
      ((a.openTail ruleTail owner p).run st).2
  | .rep p _ _, hv, st, hst, hactive => by
    unfold openTail tips at *
    have hinner := visit_openTail owner p (hv.of_subset (List.subset_cons_self _ _)) st hst hactive
    exact (Visit.round hst p).append hinner
  | .seq items, hv, st, hst, hactive => by
    unfold openTail tips at *
    exact (visit_openTailSeq owner items hv st hst hactive).1
  | .choice members, hv, st, hst, hactive => by
    unfold openTail tips at *
    exact visit_openTailAny owner members hv st hst hactive
  | .opt p, hv, st, hst, hactive | .field _ p, hv, st, hst, hactive
  | .renamed p _, hv, st, hst, hactive | .prec _ p _ _, hv, st, hst, hactive => by
    unfold openTail tips at *
    exact visit_openTail owner p hv st hst hactive
  | .ref n, hv, st, hst, hactive => by
    unfold openTail tips at *
    exact hv n List.mem_cons_self owner st hst hactive
  | .lit _, _, st, hst, _ | .blank, _, st, hst, _ => by
    unfold openTail tips
    exact .nil hst

theorem visit_openTailSeq (owner : String) : ∀ (ps : List Production),
    a.Visits ruleTail active (a.tipsSeq ps) → ∀ st, a.Sane st → st.active = active →
    a.Visit owner (a.tipsSeq ps) st ((a.openTailSeq ruleTail owner ps).run st).1.1
      ((a.openTailSeq ruleTail owner ps).run st).2 ∧
    ((a.openTailSeq ruleTail owner ps).run st).1.2 = ps.all a.first.nullable
  | [], _, st, hst, _ => by
    unfold openTailSeq tipsSeq
    exact ⟨.nil hst, rfl⟩
  | p :: ps, hv, st, hst, hactive => by
    unfold openTailSeq tipsSeq at *
    obtain ⟨hlater, hreached⟩ :=
      visit_openTailSeq owner ps (hv.of_subset (List.subset_append_left _ _)) st hst hactive
    cases hrun : (a.openTailSeq ruleTail owner ps).run st with
    | mk found mid =>
      obtain ⟨tails, reached⟩ := found
      rw [hrun] at hlater hreached
      simp only [StateT.run_bind, hrun]
      cases reached with
      | false =>
        rw [if_neg (by rw [← hreached]; nofun), List.append_nil, List.all_cons, ← hreached,
          Bool.and_false]
        exact ⟨hlater, rfl⟩
      | true =>
        rw [if_pos hreached.symm] at hv ⊢
        rw [List.all_cons, ← hreached, Bool.and_true]
        refine ⟨hlater.append ?_, rfl⟩
        exact visit_openTail owner p (hv.of_subset (List.subset_append_right _ _)) mid hlater.sane
          (hlater.active.trans hactive)

theorem visit_openTailAny (owner : String) : ∀ (ps : List Production),
    a.Visits ruleTail active (a.tipsAny ps) → ∀ st, a.Sane st → st.active = active →
    a.Visit owner (a.tipsAny ps) st ((a.openTailAny ruleTail owner ps).run st).1
      ((a.openTailAny ruleTail owner ps).run st).2
  | [], _, st, hst, _ => by
    unfold openTailAny tipsAny
    exact .nil hst
  | p :: ps, hv, st, hst, hactive => by
    unfold openTailAny tipsAny at *
    have hfirst := visit_openTail owner p (hv.of_subset (List.subset_append_left _ _)) st hst hactive
    exact hfirst.append (visit_openTailAny owner ps (hv.of_subset (List.subset_append_right _ _)) _
      hfirst.sane (hfirst.active.trans hactive))

end

/-! ## Looking at a rule -/

variable {st st₂ : Progress} {n : String} {body : Production} {found : Tails}

/-- A rule that references do not lead into has no tails. -/
theorem Visit.outside (h : a.Sane st) (hn : a.bodyOf? n = none) :
    a.Visit owner [.rule n] st [] st :=
  { (Visit.nil h : a.Visit owner [] st [] st) with
    sound := fun _ _ hs => absurd hs Tails.not_holds_nil
    rounds := fun _ _ ⟨_, _, hp, _⟩ => nomatch List.mem_singleton.1 hp
    rules := fun m hm hbody => by
      cases List.mem_singleton.1 hm
      rw [hn] at hbody
      cases hbody }

/-- A rule that is being looked at has no tails. -/
theorem Visit.blocked (h : a.Sane st) (hn : n ∈ st.active) : a.Visit owner [.rule n] st [] st :=
  { (Visit.nil h : a.Visit owner [] st [] st) with
    sound := fun _ _ hs => absurd hs Tails.not_holds_nil
    rounds := fun _ _ ⟨_, _, hp, _⟩ => nomatch List.mem_singleton.1 hp
    rules := fun m hm _ => by
      cases List.mem_singleton.1 hm
      exact Or.inl hn }

/-- A rule that is remembered has the tails that are remembered for it. -/
theorem Visit.remembered (h : a.Sane st) (hn : st.known.get? n = some found) :
    a.Visit owner [.rule n] st found st where
  sane := h
  active := rfl
  known _ _ hx := hx
  sorted := (h.entries n found hn).sorted
  sound holder s hs := Or.inr ⟨n, List.mem_cons_self, (h.entries n found hn).sound holder s hs⟩
  rounds _ _ := fun ⟨_, _, hp, _⟩ => nomatch List.mem_singleton.1 hp
  rules m hm _ := by
    cases List.mem_singleton.1 hm
    exact Or.inr ⟨found, hn, fun _ _ hs => hs⟩
  fresh _ _ hnone hsome := nomatch hnone.symm.trans hsome

theorem bodyOf?_eq_some : a.bodyOf? n = some body ↔
    n ∈ a.tableRules ∧ a.rules.get? n = some body := by
  unfold bodyOf?
  split
  · rename_i hmem
    rw [and_iff_right (List.contains_iff_mem.1 hmem)]
  · rename_i hmem
    rw [List.contains_iff_mem] at hmem
    simp [hmem]

/-- How a rule is looked at. -/
theorem run_ruleTailWithin (fuel : Nat) (hbody : a.bodyOf? n = some body) (st : Progress) :
    (a.ruleTailWithin (fuel + 1) n).run st = match st.known.get? n with
      | some tails => (tails, st)
      | none =>
        if st.active.contains n then ([], st)
        else
          let inner := (a.openTail (a.ruleTailWithin fuel) n body).run
            { st with active := n :: st.active }
          (inner.1, ⟨inner.2.known.set n inner.1, inner.2.active.erase n⟩) := by
  obtain ⟨htable, hrule⟩ := bodyOf?_eq_some.1 hbody
  unfold ruleTailWithin
  rw [List.contains_iff_mem.2 htable, hrule]
  simp only [Bool.not_true, Bool.false_eq_true, if_false, StateT.run_bind, StateT.run_get, pure_bind]
  cases st.known.get? n with
  | some tails => rfl
  | none =>
    simp only
    split <;> rfl

theorem run_ruleTailWithin_outside (fuel : Nat) (hn : a.bodyOf? n = none) (st : Progress) :
    (a.ruleTailWithin fuel n).run st = ([], st) := by
  cases fuel with
  | zero => rfl
  | succ fuel =>
    unfold bodyOf? at hn
    unfold ruleTailWithin
    cases htable : a.tableRules.contains n with
    | false => rfl
    | true =>
      rw [htable, if_pos rfl] at hn
      rw [hn]
      rfl

theorem Sane.enter (h : a.Sane st) (hbody : a.bodyOf? n = some body) (hn : n ∉ st.active)
    (hnone : st.known.get? n = none) : a.Sane { st with active := n :: st.active } where
  nodup := List.nodup_cons.2 ⟨hn, h.nodup⟩
  table := List.forall_mem_cons.2 ⟨(bodyOf?_eq_some.1 hbody).1, h.table⟩
  apart := List.forall_mem_cons.2 ⟨hnone, h.apart⟩
  closed m x hx k hk := (h.closed m x hx k hk).imp (List.mem_cons_of_mem _) id
  entries := h.entries

/-- What the open ends of the body of a rule have contributed is remembered for the rule. Where rules do
not lead to each other none of those that are being looked at was left out. -/
theorem Entry.of_visit (hbody : a.bodyOf? n = some body)
    (hv : a.Visit n (a.tips body) { st with active := n :: st.active } found st₂)
    (hn : n ∉ st.active) (hchain : ∀ r ∈ st.active, a.Reaches r n) : a.Entry n found where
  sorted := hv.sorted
  sound holder s hs := by
    rcases hv.sound holder s hs with hs | ⟨m, hm, q, hq, hs⟩
    · exact ⟨n, .refl, body, hbody, hs⟩
    · exact ⟨q, .head ⟨body, hbody, hm, isSome_of_reaches hq hs⟩ hq, hs⟩
  exact hacyclic q hq holder s hs := by
    have hfrom : ∀ m, a.Reaches m q → m = n → found.Holds holder s := by
      intro m hm
      induction hm using Relation.ReflTransGen.head_induction_on with
      | refl =>
        rintro rfl
        obtain ⟨body', hbody', hs⟩ := hs
        cases hbody.symm.trans hbody'
        exact hv.rounds holder s hs
      | @head m k hstep hrest ih =>
        rintro rfl
        by_cases hk : k = m
        · exact ih hk
        · obtain ⟨body', hbody', htip, hsome⟩ := id hstep
          cases hbody.symm.trans hbody'
          rcases hv.rules k htip hsome with hactive | ⟨x, hx, hsub⟩
          · have hmem := (List.mem_cons.1 hactive).resolve_left hk
            exact absurd (hacyclic k m (hchain k hmem) (.single hstep)) hk
          · exact hsub holder s ((hv.sane.entries k x hx).exact hacyclic q hrest holder s hs)
    exact hfrom n hq rfl

theorem known_of_set {known : NameTable Tails} {m : String} {x : Tails}
    (hx : (known.set n found).get? m = some x) : (m = n ∧ x = found) ∨ known.get? m = some x := by
  rw [NameTable.get?_set] at hx
  split at hx
  · rename_i heq
    cases hx
    exact Or.inl ⟨heq, rfl⟩
  · exact Or.inr hx

/-- Leaving a rule, its tails are remembered. What it leads to was remembered or looked at inside it. -/
theorem Sane.leave (hbody : a.bodyOf? n = some body)
    (hv : a.Visit n (a.tips body) { st with active := n :: st.active } found st₂)
    (hentry : a.Entry n found) : a.Sane ⟨st₂.known.set n found, st.active⟩ := by
  have hactive : st₂.active = n :: st.active := hv.active
  obtain ⟨hn, hnodup⟩ := List.nodup_cons.1 (hactive ▸ hv.sane.nodup)
  have hkeep : ∀ m, (m ∈ st₂.active ∨ ∃ y, st₂.known.get? m = some y) →
      m ∈ st.active ∨ ∃ y, (st₂.known.set n found).get? m = some y := by
    intro m hm
    rw [NameTable.get?_set]
    by_cases heq : m = n
    · exact Or.inr ⟨found, if_pos heq⟩
    · rw [if_neg heq]
      exact hm.imp (fun hmem => (List.mem_cons.1 (hactive ▸ hmem)).resolve_left heq) id
  exact {
    nodup := hnodup
    table := fun m hm => hv.sane.table m (hactive ▸ List.mem_cons_of_mem _ hm)
    apart := fun m hm => by
      have hne : m ≠ n := fun heq => hn (heq ▸ hm)
      rw [NameTable.get?_set, if_neg hne]
      exact hv.sane.apart m (hactive ▸ List.mem_cons_of_mem _ hm)
    closed := fun m x hx k hk => by
      refine hkeep k ?_
      rcases known_of_set hx with ⟨rfl, rfl⟩ | hx
      · obtain ⟨body', hbody', htip, hsome⟩ := hk
        cases hbody.symm.trans hbody'
        rw [hactive]
        exact (hv.rules k htip hsome).imp id fun ⟨y, hy, _⟩ => ⟨y, hy⟩
      · exact hv.sane.closed m x hx k hk
    entries := fun m x hx => by
      rcases known_of_set hx with ⟨rfl, rfl⟩ | hx
      · exact hentry
      · exact hv.sane.entries m x hx }

/-- What was found for the body of a rule is found for references to it. -/
theorem Visit.leave (hbody : a.bodyOf? n = some body) (hnone : st.known.get? n = none)
    (hv : a.Visit n (a.tips body) { st with active := n :: st.active } found st₂)
    (hentry : a.Entry n found) :
    a.Visit owner [.rule n] st found ⟨st₂.known.set n found, st₂.active.erase n⟩ := by
  have hactive : st₂.active = n :: st.active := hv.active
  rw [hactive, List.erase_cons_head]
  exact {
    sane := .leave hbody hv hentry
    active := rfl
    known := fun m x hx => by
      have hne : m ≠ n := fun heq => nomatch (heq ▸ hnone).symm.trans hx
      rw [NameTable.get?_set, if_neg hne]
      exact hv.known m x hx
    sorted := hv.sorted
    sound := fun holder s hs => Or.inr ⟨n, List.mem_cons_self, hentry.sound holder s hs⟩
    rounds := fun _ _ ⟨_, _, hp, _⟩ => nomatch List.mem_singleton.1 hp
    rules := fun m hm _ => by
      cases List.mem_singleton.1 hm
      exact Or.inr ⟨found, by rw [NameTable.get?_set, if_pos rfl], fun _ _ hs => hs⟩
    fresh := fun m x hm hx holder s hs => by
      rcases known_of_set hx with ⟨rfl, rfl⟩ | hx
      · obtain ⟨body', hbody', hs⟩ := hs
        cases hbody.symm.trans hbody'
        exact hv.rounds holder s hs
      · exact hv.fresh m x hm hx holder s hs }

/-- **Looking at a rule.** As many rules inside each other as there are rules to look into are enough:
those that are being looked at are different ones. -/
theorem visit_ruleTailWithin (fuel : Nat) (n owner : String) (st : Progress) (hst : a.Sane st)
    (hfuel : a.tableRules.length < st.active.length + fuel)
    (hchain : (a.bodyOf? n).isSome = true → ∀ r ∈ st.active, a.Reaches r n) :
    a.Visit owner [.rule n] st ((a.ruleTailWithin fuel n).run st).1
      ((a.ruleTailWithin fuel n).run st).2 := by
  induction fuel generalizing n owner st with
  | zero =>
    have := hst.nodup.length_le_of_subset hst.table
    omega
  | succ fuel ih =>
    cases hbody : a.bodyOf? n with
    | none =>
      rw [run_ruleTailWithin_outside _ hbody]
      exact .outside hst hbody
    | some body =>
      have hchain := hchain (by rw [hbody]; rfl)
      rw [run_ruleTailWithin fuel hbody]
      cases hknown : st.known.get? n with
      | some tails => exact .remembered hst hknown
      | none =>
        simp only
        split
        · rename_i hactive
          exact .blocked hst (List.contains_iff_mem.1 hactive)
        · rename_i hactive
          rw [List.contains_iff_mem] at hactive
          have hvisits : a.Visits (a.ruleTailWithin fuel) (n :: st.active) (a.tips body) := by
            intro m hm owner st' hst' heq
            refine ih m owner st' hst' (by rw [heq, List.length_cons]; omega) fun hm' => ?_
            have hstep : a.Step n m := ⟨body, hbody, hm, hm'⟩
            rw [heq]
            exact List.forall_mem_cons.2 ⟨.single hstep, fun r hr => (hchain r hr).tail hstep⟩
          have hv := visit_openTail n body hvisits _ (hst.enter hbody hactive hknown) rfl
          exact .leave hbody hknown hv (.of_visit hbody hv hactive hchain)

/-- A memory between two requests. -/
structure Resting (a : TailAnalysis) (st : Progress) : Prop extends a.Sane st where
  idle : st.active = []

theorem resting_empty (a : TailAnalysis) : a.Resting {} where
  nodup := .nil
  table := nofun
  apart := nofun
  closed := nofun
  entries := nofun
  idle := rfl

theorem visit_ruleTail (h : a.Resting st) (n owner : String) :
    a.Visit owner [.rule n] st ((a.ruleTail n).run st).1 ((a.ruleTail n).run st).2 := by
  refine visit_ruleTailWithin _ n owner st h.toSane ?_ fun _ r hr => ?_
  · rw [h.idle]
    exact Nat.lt_of_lt_of_le (Nat.lt_succ_self _) (Nat.le_add_left _ _)
  · rw [h.idle] at hr
    cases hr

/-- The analysis visits the open ends of a production. -/
theorem visit_tail (h : a.Resting st) (p : Production) (owner : String) :
    a.Visit owner (a.tips p) st ((a.tail p owner).run st).1 ((a.tail p owner).run st).2 := by
  have hvisits : a.Visits a.ruleTail [] (a.tips p) :=
    fun n _ owner _ hst' heq => visit_ruleTail ⟨hst', heq⟩ n owner
  exact visit_openTail owner p hvisits st h.toSane h.idle

theorem Visit.resting (h : a.Resting st) (hv : a.Visit owner ts st found st₂) : a.Resting st₂ :=
  ⟨hv.sane, hv.active.trans h.idle⟩

/-- A memory between two requests remembers whatever a remembered rule leads to. -/
theorem Resting.known_of_reaches (h : a.Resting st) {q : String} (hq : a.Reaches n q)
    (hn : ∃ x, st.known.get? n = some x) : ∃ x, st.known.get? q = some x := by
  induction hq with
  | refl => exact hn
  | tail _ hstep ih =>
    obtain ⟨x, hx⟩ := ih
    refine (h.closed _ x hx _ hstep).resolve_left ?_
    rw [h.idle]
    exact List.not_mem_nil

/-- **Without anything remembered the analysis finds all that open ends show.** Whatever they lead to is
remembered afterwards, so that it has been looked at meanwhile, and so has contributed. -/
theorem holds_iff_shows (hv : a.Visit owner ts {} found st₂) :
    found.Holds holder s ↔ a.Shows owner ts holder s := by
  refine ⟨hv.sound holder s, ?_⟩
  rintro (hs | ⟨n, hn, q, hq, hs⟩)
  · exact hv.rounds holder s hs
  · have hresting : a.Resting st₂ := hv.resting (resting_empty a)
    obtain ⟨x, hx, _⟩ := (hv.rules n hn (isSome_of_reaches hq hs)).resolve_left List.not_mem_nil
    obtain ⟨y, hy⟩ := hresting.known_of_reaches hq ⟨x, hx⟩
    exact hv.fresh q y rfl hy holder s hs

/-- Where rules do not lead to each other the analysis finds all that open ends show, whatever is
remembered. -/
theorem holds_of_shows (hacyclic : a.Acyclic) (h : a.Resting st)
    (hv : a.Visit owner ts st found st₂) (hs : a.Shows owner ts holder s) :
    found.Holds holder s := by
  rcases hs with hs | ⟨n, hn, q, hq, hs⟩
  · exact hv.rounds holder s hs
  · rcases hv.rules n hn (isSome_of_reaches hq hs) with hactive | ⟨x, hx, hsub⟩
    · rw [h.idle] at hactive
      cases hactive
    · exact hsub holder s ((hv.sane.entries n x hx).exact hacyclic q hq holder s hs)

/-! ## What open ends show -/

theorem Shows.mono (hsub : ts ⊆ ts') (h : a.Shows owner ts holder s) :
    a.Shows owner ts' holder s := by
  rcases h with ⟨rfl, p, hp, hs⟩ | ⟨n, hn, hs⟩
  · exact Or.inl ⟨rfl, p, hsub hp, hs⟩
  · exact Or.inr ⟨n, hsub hn, hs⟩

theorem mem_tipsAny {t : Tip} {ps : List Production} :
    t ∈ a.tipsAny ps ↔ ∃ p ∈ ps, t ∈ a.tips p := by
  induction ps with
  | nil => simp [tipsAny]
  | cons p ps ih => simp [tipsAny, ih]

/-- What an open end inside `owner` stays open into. -/
def Tip.Into (a : TailAnalysis) (owner holder : String) (content : Production) : Tip → Prop
  | .round p => holder = owner ∧ content = p
  | .rule n => ∃ body, a.bodyOf? n = some body ∧ a.OpensInto n body holder content

mutual

/-- A production stays open into what its open ends do. -/
theorem opensInto_of_tip {t : Tip} {content : Production} (h : t.Into a owner holder content) :
    ∀ p : Production, t ∈ a.tips p → a.OpensInto owner p holder content
  | .rep p _ _, ht => by
    rcases List.mem_cons.1 ht with rfl | ht
    · obtain ⟨rfl, rfl⟩ := h
      exact .here
    · exact .inside (opensInto_of_tip h p ht)
  | .seq items, ht => opensInto_of_tipsSeq h items ht
  | .choice members, ht => opensInto_of_tipsAny h members ht
  | .opt p, ht => .opt (opensInto_of_tip h p ht)
  | .field _ p, ht => .field (opensInto_of_tip h p ht)
  | .renamed p _, ht => .renamed (opensInto_of_tip h p ht)
  | .prec _ p _ _, ht => .prec (opensInto_of_tip h p ht)
  | .ref n, ht => by
    cases List.mem_singleton.1 ht
    obtain ⟨body, hbody, hopens⟩ := h
    obtain ⟨htable, hrule⟩ := bodyOf?_eq_some.1 hbody
    exact .rule htable hrule hopens

theorem opensInto_of_tipsSeq {t : Tip} {content : Production} (h : t.Into a owner holder content) :
    ∀ ps : List Production, t ∈ a.tipsSeq ps → a.OpensInto owner (.seq ps) holder content
  | p :: ps, ht => by
    rcases List.mem_append.1 ht with ht | ht
    · exact .later (opensInto_of_tipsSeq h ps ht)
    · split at ht
      · rename_i hall
        exact .before (List.all_eq_true.1 hall) (opensInto_of_tip h p ht)
      · cases ht

theorem opensInto_of_tipsAny {t : Tip} {content : Production} (h : t.Into a owner holder content) :
    ∀ ps : List Production, t ∈ a.tipsAny ps → a.OpensInto owner (.choice ps) holder content
  | p :: ps, ht => by
    rcases List.mem_append.1 ht with ht | ht
    · exact .choice List.mem_cons_self (opensInto_of_tip h p ht)
    · cases opensInto_of_tipsAny h ps ht with
      | choice hp hopens => exact .choice (List.mem_cons_of_mem _ hp) hopens

end

/-- The open ends of what a production stays open into show it. -/
theorem shows_of_opensInto {p content : Production} (h : a.OpensInto owner p holder content)
    (hs : ∀ x ∈ s, x ∈ (a.first.first content).nonempty) : a.Shows owner (a.tips p) holder s := by
  induction h with
  | here => exact Or.inl ⟨rfl, _, List.mem_cons_self, hs⟩
  | inside _ ih => exact (ih hs).mono (List.subset_cons_self _ _)
  | before hps _ ih =>
    refine (ih hs).mono fun t ht => ?_
    simp only [tips, tipsSeq]
    rw [if_pos (List.all_eq_true.2 hps)]
    exact List.mem_append_right _ ht
  | later _ ih => exact (ih hs).mono fun t ht => List.mem_append_left _ ht
  | choice hp _ ih => exact (ih hs).mono fun t ht => mem_tipsAny.2 ⟨_, hp, ht⟩
  | opt _ ih | field _ ih | renamed _ ih | prec _ ih => exact ih hs
  | @rule owner name body holder content hn hb _ ih =>
    have hbody : a.bodyOf? name = some body := bodyOf?_eq_some.2 ⟨hn, hb⟩
    refine Or.inr ⟨name, List.mem_cons_self, ?_⟩
    rcases ih hs with hs | ⟨m, hm, q, hq, hs⟩
    · exact ⟨name, .refl, body, hbody, hs⟩
    · exact ⟨q, .head ⟨body, hbody, hm, isSome_of_reaches hq hs⟩ hq, hs⟩

/-- A rule stays open into the repetitions of the rules that it leads to. -/
theorem exists_opensInto_of_reaches {n q : String} (hq : a.Reaches n q)
    (hg : a.Gives q holder s) : ∃ body content, a.bodyOf? n = some body ∧
      a.OpensInto n body holder content ∧ ∀ x ∈ s, x ∈ (a.first.first content).nonempty := by
  induction hq using Relation.ReflTransGen.head_induction_on with
  | refl =>
    obtain ⟨body, hbody, rfl, content, hmem, hs⟩ := hg
    exact ⟨body, content, hbody, opensInto_of_tip (t := .round content) ⟨rfl, rfl⟩ body hmem, hs⟩
  | head hstep _ ih =>
    obtain ⟨body, hbody, hmem, _⟩ := hstep
    obtain ⟨body', content, hbody', hopens, hs⟩ := ih
    exact ⟨body, content, hbody, opensInto_of_tip (t := .rule _) ⟨body', hbody', hopens⟩ body hmem, hs⟩

/-- **Open ends show what the production stays open into.** -/
theorem shows_tips_iff {p : Production} : a.Shows owner (a.tips p) holder s ↔
    ∃ content, a.OpensInto owner p holder content ∧
      ∀ x ∈ s, x ∈ (a.first.first content).nonempty := by
  constructor
  · rintro (⟨rfl, content, hmem, hs⟩ | ⟨n, hn, q, hq, hs⟩)
    · exact ⟨content, opensInto_of_tip (t := .round content) ⟨rfl, rfl⟩ p hmem, hs⟩
    · obtain ⟨body, content, hbody, hopens, hs⟩ := exists_opensInto_of_reaches hq hs
      exact ⟨content, opensInto_of_tip (t := .rule n) ⟨body, hbody, hopens⟩ p hn, hs⟩
  · rintro ⟨content, hopens, hs⟩
    exact shows_of_opensInto hopens hs

end TailAnalysis

end LayeredGrammar
