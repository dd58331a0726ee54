import LayeredGrammar.Analysis.OpenTail
import LayeredGrammar.Proofs.Analysis.Beginnings

/-!
# Where productions stay open

A production stays open into a repetition that it can end in (`TailAnalysis.OpensInto`). The open
tail that the analysis computes, with its memory of rules looked at before, holds nothing else
(`TailAnalysis.keeps_tail`), so every open repetition that it reports is one between an item of a
sequence and what follows it (`TailAnalysis.keeps_scan`).
-/

namespace LayeredGrammar

/-! ## Invariants of computations with a state -/

/-- A computation keeps an invariant of its state and ends in a value as described. -/
def Keeps {σ α : Type} (inv : σ → Prop) (x : StateM σ α) (post : α → Prop) : Prop :=
  ∀ st, inv st → post (x.run st).1 ∧ inv (x.run st).2

namespace Keeps

variable {σ α β : Type} {inv : σ → Prop}

protected theorem pure {a : α} {post : α → Prop} (h : post a) : Keeps inv (Pure.pure a : StateM σ α) post :=
  fun _ hst => ⟨h, hst⟩

protected theorem bind {x : StateM σ α} {f : α → StateM σ β} {mid : α → Prop} {post : β → Prop}
    (hx : Keeps inv x mid) (hf : ∀ a, mid a → Keeps inv (f a) post) : Keeps inv (x >>= f) post := by
  intro st hst
  obtain ⟨hmid, hst'⟩ := hx st hst
  exact hf _ hmid _ hst'

protected theorem get : Keeps inv (get : StateM σ σ) inv := fun _ hst => ⟨hst, hst⟩

protected theorem set {st : σ} (h : inv st) : Keeps inv (set st : StateM σ PUnit) fun _ => True :=
  fun _ _ => ⟨trivial, h⟩

protected theorem modify {f : σ → σ} (h : ∀ st, inv st → inv (f st)) :
    Keeps inv (modify f : StateM σ PUnit) fun _ => True :=
  fun st hst => ⟨trivial, h st hst⟩

theorem mono {x : StateM σ α} {post post' : α → Prop} (hx : Keeps inv x post)
    (h : ∀ a, post a → post' a) : Keeps inv x post' :=
  fun st hst => ⟨h _ (hx st hst).1, (hx st hst).2⟩

/-- One computation for each element of a list. -/
protected theorem mapM {f : α → StateM σ β} {post : α → β → Prop} {l : List α}
    (h : ∀ a ∈ l, Keeps inv (f a) (post a)) :
    Keeps inv (l.mapM f) fun bs => ∀ b ∈ bs, ∃ a ∈ l, post a b := by
  induction l with
  | nil => exact Keeps.pure nofun
  | cons a l ih =>
    rw [List.forall_mem_cons] at h
    rw [List.mapM_cons]
    refine Keeps.bind h.1 fun b hb => Keeps.bind (ih h.2) fun bs hbs => Keeps.pure ?_
    rw [List.forall_mem_cons]
    refine ⟨⟨a, List.mem_cons_self, hb⟩, fun b' hb' => ?_⟩
    obtain ⟨a', ha', hpost⟩ := hbs b' hb'
    exact ⟨a', List.mem_cons_of_mem _ ha', hpost⟩

end Keeps

/-! ## Open tails -/

namespace Tails

/-- Tails all of whose sequences are as described, for their owner. -/
def Within (tails : Tails) (post : String → Sequence → Prop) : Prop :=
  ∀ e ∈ tails, ∀ s ∈ e.2, post e.1 s

variable {post : String → Sequence → Prop}

theorem within_add {owner : String} {s : SequenceSet} (hs : ∀ a ∈ s, post owner a) {tails : Tails}
    (h : tails.Within post) : (add owner s tails).Within post := by
  induction tails with
  | nil =>
    intro e he
    cases List.mem_singleton.1 he
    exact hs
  | cons e rest ih =>
    obtain ⟨o, t⟩ := e
    obtain ⟨ht, hrest⟩ := List.forall_mem_cons.1 h
    simp only [add]
    split
    · rename_i heq
      subst heq
      refine List.forall_mem_cons.2 ⟨fun a ha => ?_, hrest⟩
      rcases SequenceSet.mem_union.1 ha with ha | ha
      · exact ht a ha
      · exact hs a ha
    · split
      · exact List.forall_mem_cons.2 ⟨hs, h⟩
      · exact List.forall_mem_cons.2 ⟨ht, ih hrest⟩

theorem within_union {a b : Tails} (ha : a.Within post) (hb : b.Within post) :
    (union a b).Within post := by
  unfold union
  induction b generalizing a with
  | nil => exact ha
  | cons e rest ih =>
    obtain ⟨he, hrest⟩ := List.forall_mem_cons.1 hb
    exact ih (within_add he ha) hrest

end Tails

namespace TailAnalysis

/-- A production inside `owner` can end in a repetition of `content` that belongs to `holder`. -/
inductive OpensInto (a : TailAnalysis) : String → Production → String → Production → Prop
  | here {owner p least recover} : OpensInto a owner (.rep p least recover) owner p
  | inside {owner p least recover holder content} (h : OpensInto a owner p holder content) :
    OpensInto a owner (.rep p least recover) holder content
  | before {owner p ps holder content} (hps : ∀ q ∈ ps, a.first.nullable q = true)
    (h : OpensInto a owner p holder content) : OpensInto a owner (.seq (p :: ps)) holder content
  | later {owner p ps holder content} (h : OpensInto a owner (.seq ps) holder content) :
    OpensInto a owner (.seq (p :: ps)) holder content
  | choice {owner members p holder content} (hp : p ∈ members)
    (h : OpensInto a owner p holder content) : OpensInto a owner (.choice members) holder content
  | opt {owner p holder content} (h : OpensInto a owner p holder content) :
    OpensInto a owner (.opt p) holder content
  | field {owner name p holder content} (h : OpensInto a owner p holder content) :
    OpensInto a owner (.field name p) holder content
  | renamed {owner p kind holder content} (h : OpensInto a owner p holder content) :
    OpensInto a owner (.renamed p kind) holder content
  | prec {owner value p assoc unary holder content} (h : OpensInto a owner p holder content) :
    OpensInto a owner (.prec value p assoc unary) holder content
  | rule {owner name body holder content} (hn : name ∈ a.tableRules)
    (hb : a.rules.get? name = some body) (h : OpensInto a name body holder content) :
    OpensInto a owner (.ref name) holder content

/-- A sequence starts another round of a repetition that a production stays open into. -/
def Opens (a : TailAnalysis) (owner : String) (p : Production) (holder : String) (s : Sequence) :
    Prop :=
  ∃ content, a.OpensInto owner p holder content ∧ s ∈ a.first.first content ∧ s ≠ []

/-- The tails known so far are those of their rules. -/
def Known (a : TailAnalysis) (progress : Progress) : Prop :=
  ∀ e ∈ progress.known, ∀ owner, e.2.Within (a.Opens owner (.ref e.1))

variable {a : TailAnalysis} {ruleTail : String → StateM Progress Tails}

theorem Opens.mono {owner : String} {p q : Production}
    (h : ∀ holder content, a.OpensInto owner p holder content →
      a.OpensInto owner q holder content) {holder : String} {s : Sequence}
    (hs : a.Opens owner p holder s) : a.Opens owner q holder s := by
  obtain ⟨content, hopens, hmem⟩ := hs
  exact ⟨content, h holder content hopens, hmem⟩

theorem within_mono {owner : String} {p q : Production} {tails : Tails}
    (hw : tails.Within (a.Opens owner p)) (h : ∀ holder content,
      a.OpensInto owner p holder content → a.OpensInto owner q holder content) :
    tails.Within (a.Opens owner q) :=
  fun e he s hs => (hw e he s hs).mono h

mutual

/-- The open tail of a production holds what the production stays open into. -/
theorem keeps_openTail (hrule : ∀ name owner,
      Keeps a.Known (ruleTail name) fun tails => tails.Within (a.Opens owner (.ref name)))
    (owner : String) : ∀ p : Production,
      Keeps a.Known (a.openTail ruleTail owner p) fun tails => tails.Within (a.Opens owner p)
  | .rep p least recover => by
    unfold openTail
    refine Keeps.bind (keeps_openTail hrule owner p) fun inner hinner => Keeps.pure ?_
    refine Tails.within_union ?_ (within_mono hinner fun _ _ h => .inside h)
    intro e he s hs
    cases List.mem_singleton.1 he
    obtain ⟨hmem, hne⟩ := SequenceSet.mem_filter.1 hs
    exact ⟨p, .here, hmem, by simpa using hne⟩
  | .seq items => by
    unfold openTail
    refine Keeps.bind (keeps_openTailSeq hrule owner items) fun found hfound => Keeps.pure ?_
    exact hfound.1
  | .choice members => by
    unfold openTail
    exact keeps_openTailAny hrule owner members
  | .opt p => by
    unfold openTail
    exact (keeps_openTail hrule owner p).mono fun _ h => within_mono h fun _ _ h => .opt h
  | .field _ p => by
    unfold openTail
    exact (keeps_openTail hrule owner p).mono fun _ h => within_mono h fun _ _ h => .field h
  | .renamed p _ => by
    unfold openTail
    exact (keeps_openTail hrule owner p).mono fun _ h => within_mono h fun _ _ h => .renamed h
  | .prec _ p _ _ => by
    unfold openTail
    exact (keeps_openTail hrule owner p).mono fun _ h => within_mono h fun _ _ h => .prec h
  | .ref name => by
    unfold openTail
    exact hrule name owner
  | .lit _ => by
    unfold openTail
    exact Keeps.pure nofun
  | .blank => by
    unfold openTail
    exact Keeps.pure nofun

theorem keeps_openTailSeq (hrule : ∀ name owner,
      Keeps a.Known (ruleTail name) fun tails => tails.Within (a.Opens owner (.ref name)))
    (owner : String) : ∀ ps : List Production,
      Keeps a.Known (a.openTailSeq ruleTail owner ps) fun found =>
        found.1.Within (a.Opens owner (.seq ps)) ∧
        (found.2 = true → ∀ p ∈ ps, a.first.nullable p = true)
  | [] => by
    unfold openTailSeq
    exact Keeps.pure ⟨nofun, fun _ => nofun⟩
  | p :: ps => by
    unfold openTailSeq
    refine Keeps.bind (keeps_openTailSeq hrule owner ps) fun found hfound => ?_
    obtain ⟨hwithin, hall⟩ := hfound
    have hlater : found.1.Within (a.Opens owner (.seq (p :: ps))) :=
      within_mono hwithin fun _ _ h => .later h
    simp only
    split
    · rename_i hreached
      refine Keeps.bind (keeps_openTail hrule owner p) fun more hmore => Keeps.pure ⟨?_, ?_⟩
      · exact Tails.within_union hlater
          (within_mono hmore fun _ _ h => .before (hall hreached) h)
      · exact fun hp => List.forall_mem_cons.2 ⟨hp, hall hreached⟩
    · exact Keeps.pure ⟨hlater, nofun⟩

theorem keeps_openTailAny (hrule : ∀ name owner,
      Keeps a.Known (ruleTail name) fun tails => tails.Within (a.Opens owner (.ref name)))
    (owner : String) : ∀ ps : List Production,
      Keeps a.Known (a.openTailAny ruleTail owner ps) fun tails =>
        tails.Within (a.Opens owner (.choice ps))
  | [] => by
    unfold openTailAny
    exact Keeps.pure nofun
  | p :: ps => by
    unfold openTailAny
    refine Keeps.bind (keeps_openTail hrule owner p) fun tails htails =>
      Keeps.bind (keeps_openTailAny hrule owner ps) fun more hmore => Keeps.pure ?_
    refine Tails.within_union (within_mono htails fun _ _ h => .choice List.mem_cons_self h)
      (within_mono hmore fun _ _ h => ?_)
    cases h with
    | choice hp h => exact .choice (List.mem_cons_of_mem _ hp) h

end

/-- The open tail of a rule holds what its body stays open into. -/
theorem keeps_ruleTailWithin (n : Nat) (name owner : String) :
    Keeps a.Known (a.ruleTailWithin n name) fun tails =>
      tails.Within (a.Opens owner (.ref name)) := by
  induction n generalizing name owner with
  | zero => exact Keeps.pure nofun
  | succ n ih =>
    unfold ruleTailWithin
    split
    · exact Keeps.pure nofun
    · rename_i htable
      split
      · rename_i body hbody
        refine Keeps.bind Keeps.get fun progress hknown => ?_
        split
        · rename_i tails htails
          exact Keeps.pure (hknown _ (NameTable.mem_of_get? htails) owner)
        · split
          · exact Keeps.pure nofun
          · refine Keeps.bind (Keeps.set hknown) fun _ _ =>
              Keeps.bind (keeps_openTail ih name body) fun tails htails => ?_
            have hrule : ∀ owner, tails.Within (a.Opens owner (.ref name)) := by
              intro owner e he s hs
              obtain ⟨content, hopens, hmem⟩ := htails e he s hs
              exact ⟨content, .rule (by simpa using htable) hbody hopens, hmem⟩
            refine Keeps.bind (Keeps.modify fun st hst e he => ?_) fun _ _ => Keeps.pure (hrule owner)
            rcases NameTable.mem_set he with rfl | he
            · exact hrule
            · exact hst e he
      · exact Keeps.pure nofun

/-- **The open tail of a production holds what it stays open into.** -/
theorem keeps_tail (p : Production) (owner : String) :
    Keeps a.Known (a.tail p owner) fun tails => tails.Within (a.Opens owner p) :=
  keeps_openTail (keeps_ruleTailWithin _) owner p

/-! ## Open repetitions -/

/-- A finding reports that an item stays open while what follows could begin another round. -/
def Reports (a : TailAnalysis) (place : String) (p : Production) (rest : List Production)
    (f : Finding) : Prop :=
  ∃ holder s s', f.rules = [holder] ∧ a.Opens place p holder s ∧
    s' ∈ a.first.first (.seq rest) ∧ a.overlap.sequences s s' = true

theorem keeps_openBetween (place : String) (p : Production) (rest : List Production) :
    Keeps a.Known (a.openBetween place p rest) fun found =>
      ∀ f ∈ found, a.Reports place p rest f := by
  unfold openBetween
  refine Keeps.bind (keeps_tail p place) fun tails htails => ?_
  split
  · exact Keeps.pure nofun
  · refine Keeps.pure fun f hf => ?_
    obtain ⟨⟨holder, seqs⟩, he, hf⟩ := List.mem_filterMap.1 hf
    obtain ⟨⟨s, s'⟩, hhit, rfl⟩ := Option.map_eq_some_iff.1 hf
    obtain ⟨s₀, hs, hpair⟩ := List.mem_flatMap.1 (List.mem_of_head? hhit)
    obtain ⟨s₁, hs', heq⟩ := List.mem_map.1 hpair
    cases heq
    obtain ⟨hfollow, hoverlap⟩ := List.mem_filter.1 hs'
    exact ⟨holder, s, s', rfl, htails _ he s hs, (SequenceSet.mem_filter.1 hfollow).1, hoverlap⟩

theorem keeps_scanItems (place : String) (items : List Production) :
    Keeps a.Known (a.scanItems place items) fun found =>
      ∀ f ∈ found, ∃ p rest, p :: rest <:+ items ∧ a.Reports place p rest f := by
  fun_induction scanItems a place items with
  | case1 => exact Keeps.pure nofun
  | case2 => exact Keeps.pure nofun
  | case3 p q rest ih =>
    refine Keeps.bind (keeps_openBetween place p (q :: rest)) fun found hfound =>
      Keeps.bind ih fun more hmore => Keeps.pure fun f hf => ?_
    rcases List.mem_append.1 hf with hf | hf
    · exact ⟨p, q :: rest, List.suffix_rfl, hfound f hf⟩
    · obtain ⟨p', rest', hsuffix, hreports⟩ := hmore f hf
      exact ⟨p', rest', hsuffix.trans (List.suffix_cons _ _), hreports⟩

/-- **Every reported repetition is open** between an item of a sequence and what follows it. -/
theorem keeps_scan (p : Production) (place : String) :
    Keeps a.Known (a.scan p place) fun found => ∀ f ∈ found, ∃ items, .seq items ∈ p.walk ∧
      ∃ q rest, q :: rest <:+ items ∧ a.Reports place q rest f := by
  unfold scan
  have hone : ∀ q ∈ p.walk, Keeps a.Known (a.scanOne place q) fun found => ∀ f ∈ found,
      ∃ items, q = .seq items ∧ ∃ r rest, r :: rest <:+ items ∧ a.Reports place r rest f := by
    intro q _
    cases q with
    | seq items => exact (keeps_scanItems place items).mono fun _ h f hf => ⟨items, rfl, h f hf⟩
    | _ => exact Keeps.pure nofun
  refine Keeps.bind (Keeps.mapM hone) fun found hfound => Keeps.pure fun f hf => ?_
  obtain ⟨fs, hfs, hf⟩ := List.mem_flatten.1 hf
  obtain ⟨q, hq, hpost⟩ := hfound fs hfs
  obtain ⟨items, rfl, hreports⟩ := hpost f hf
  exact ⟨items, hq, hreports⟩

end TailAnalysis

end LayeredGrammar
