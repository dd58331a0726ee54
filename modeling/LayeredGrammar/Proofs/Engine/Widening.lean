import LayeredGrammar.Proofs.Engine.Requests
import LayeredGrammar.Proofs.Engine.Tracking

/-!
# Sessions with more alternatives

A session widens another one if it reads the same text in the same way and has the same alternatives
for the rules of the other one, together with some that are barred: they start with a literal that
stands nowhere in the text, or with a rule all of whose alternatives do (`Session.Barred`).

The memos of the two sessions differ then, for the second one also remembers that the new rules do
not match. On the rules of the first one they remember corresponding answers (`Session.Linked`), also
while rules are being matched, so that even a rule that is asked for again meanwhile is answered
alike. `Session.Widens.parse_tracks`: the two sessions make corresponding trees.
-/

namespace LayeredGrammar

namespace Session

open Engine (Tracks)

variable {s s' : Session} {b : Pairing} {barred : String → Prop}

/-! ## Linked memos -/

/-- Entries for a rule in two memos that correspond. -/
inductive EntriesPair (b : Pairing) (rule : String) : MemoEntry → MemoEntry → Prop
  | active : EntriesPair b rule .active .active
  | known {m m' : Option Match} (h : Option.Rel (b.Answers rule) m m') :
    EntriesPair b rule (.known m) (.known m')

/-- Memos that remember corresponding answers for the rules that both sessions know; for other rules
the second one remembers no match. -/
structure Linked (b : Pairing) (μ ν : Memo) : Prop where
  inside : ∀ k : MemoKey, b.scope k.rule → Option.Rel (EntriesPair b k.rule) μ[k]? ν[k]?
  outside : ∀ k : MemoKey, ¬b.scope k.rule → ∀ m, ν[k]? ≠ some (.known (some m))

theorem linked_empty : Linked b {} {} := by
  constructor
  · intro k _
    simp
  · intro k _ m h
    simp at h

namespace Linked

variable {μ ν : Memo} {key : MemoKey}

theorem insert (h : Linked b μ ν) (hkey : b.scope key.rule) {e e' : MemoEntry}
    (he : EntriesPair b key.rule e e') : Linked b (μ.insert key e) (ν.insert key e') := by
  constructor
  · intro k hk
    rw [Memo.getElem?_insert_eq, Memo.getElem?_insert_eq]
    split
    · rename_i heq
      exact .some (heq ▸ he)
    · exact h.inside k hk
  · intro k hk m
    rw [Memo.getElem?_insert_eq, if_neg fun heq : key = k => hk (heq ▸ hkey)]
    exact h.outside k hk m

/-- The second session may remember for a rule of its own that it does not match. -/
theorem insert_outside (h : Linked b μ ν) (hkey : ¬b.scope key.rule) {e : MemoEntry}
    (he : ∀ m, e ≠ .known (some m)) : Linked b μ (ν.insert key e) := by
  constructor
  · intro k hk
    rw [Memo.getElem?_insert_eq, if_neg fun heq : key = k => hkey (heq ▸ hk)]
    exact h.inside k hk
  · intro k hk m
    rw [Memo.getElem?_insert_eq]
    split
    · exact fun heq => he m (Option.some.inj heq)
    · exact h.outside k hk m

end Linked

/-! ## Rules and memos -/

/-- What is remembered of a rule that both sessions know corresponds; the computations have to track
each other only where nothing is remembered. -/
theorem remembered_tracks {key : MemoKey} (hkey : b.scope key.rule) {x y : Engine (Option Match)}
    (h : Tracks (Linked b) x y (Option.Rel (b.Answers key.rule))) :
    Tracks (Linked b) (Engine.remembered key x) (Engine.remembered key y)
      (Option.Rel (b.Answers key.rule)) := by
  intro μ ν hlink found found' μ' ν' hμ hν
  have hentry := hlink.inside key hkey
  rw [Engine.remembered_apply] at hμ hν
  generalize μ[key]? = entry at hentry hμ
  generalize ν[key]? = entry' at hentry hν
  cases hentry with
  | none => exact h μ ν hlink found found' μ' ν' hμ hν
  | some hentry =>
    cases hentry with
    | active =>
      cases hμ
      cases hν
      exact ⟨hlink, .none⟩
    | known hm =>
      cases hμ
      cases hν
      exact ⟨hlink, hm⟩

theorem matchFresh_tracks {key : MemoKey} (hkey : b.scope key.rule) {call call' : RuleMatcher}
    (h : Tracks (Linked b) (s.answer call key) (s'.answer call' key)
      (Option.Rel (b.Answers key.rule))) :
    Tracks (Linked b) (s.matchFresh call key) (s'.matchFresh call' key)
      (Option.Rel (b.Answers key.rule)) := by
  intro μ ν hlink found found' μ' ν' hμ hν
  rw [matchFresh_apply] at hμ hν
  split at hμ
  · rename_i m μ₁ hm
    cases hμ
    split at hν
    · rename_i m' ν₁ hm'
      cases hν
      obtain ⟨hlink, hfound⟩ := h _ _ (hlink.insert hkey .active) found found' μ₁ ν₁ hm hm'
      exact ⟨hlink.insert hkey (.known hfound), hfound⟩
    · cases hν
  · cases hμ

/-- What is remembered of a rule of the second session alone is that it does not match. -/
theorem remembered_idle {key : MemoKey} (hkey : ¬b.scope key.rule) {y : Engine (Option Match)}
    (h : Tracks (Linked b) (pure ()) y fun _ found => found = none) :
    Tracks (Linked b) (pure ()) (Engine.remembered key y) fun _ found => found = none := by
  intro μ ν hlink _ found μ' ν' hμ hν
  cases hμ
  rw [Engine.remembered_apply] at hν
  cases hentry : ν[key]? with
  | none =>
    rw [hentry] at hν
    exact h μ ν hlink () found μ ν' rfl hν
  | some entry =>
    rw [hentry] at hν
    cases entry with
    | active =>
      cases hν
      exact ⟨hlink, rfl⟩
    | known m =>
      cases hν
      cases found with
      | none => exact ⟨hlink, rfl⟩
      | some m => exact absurd hentry (hlink.outside key hkey m)

theorem matchFresh_idle {key : MemoKey} (hkey : ¬b.scope key.rule) {call' : RuleMatcher}
    (h : Tracks (Linked b) (pure ()) (s'.answer call' key) fun _ found => found = none) :
    Tracks (Linked b) (pure ()) (s'.matchFresh call' key) fun _ found => found = none := by
  intro μ ν hlink _ found μ' ν' hμ hν
  cases hμ
  rw [matchFresh_apply] at hν
  split at hν
  · rename_i m ν₁ hm
    cases hν
    have hactive : Linked b μ (ν.insert key .active) := hlink.insert_outside hkey nofun
    obtain ⟨hlink, rfl⟩ := h μ _ hactive () found μ ν₁ rfl hm
    exact ⟨hlink.insert_outside hkey nofun, rfl⟩
  · cases hν

/-! ## Barred alternatives -/

/-- An alternative that starts with a literal that does not stand at a position, or with a barred
rule. -/
def Barred (s' : Session) (barred : String → Prop) (pos : Nat) (a : Alternative) : Prop :=
  ∃ e es, a.elements = e :: es ∧ e.selfFields = none ∧
    ((∃ value, e.body = .lit value ∧ s'.matchLiteral value pos = none) ∨
      ∃ name, e.body = .ref name ∧ barred name)

/-- How a session has more alternatives than another one. -/
structure Widens (b : Pairing) (s s' : Session) (barred : String → Prop) : Prop where
  lawful : b.Lawful s s'
  start : b.scope s.grammar.start
  parents : b.parents s.grammar.start
  /-- The rules that both sessions know have barred alternatives in addition. -/
  rules : ∀ rule, b.scope rule →
    Widened b s s' (fun a => ∀ pos, b.reached pos → s'.Barred barred pos a) rule
  /-- Barred rules belong to the second session, and all of their alternatives are barred. -/
  barred : ∀ name, barred name → ¬b.scope name ∧ s'.grammar.tokens.get? name = none ∧
    ∀ alts, s'.table.rules.get? name = some alts →
      ∀ a ∈ alts.prefixed ++ alts.plain, ∀ pos, b.reached pos → s'.Barred barred pos a

theorem Barred.idle {link : Memo → Memo → Prop} {call' : RuleMatcher} {pos : Nat}
    {a : Alternative} (ha : s'.Barred barred pos a)
    (htoken : ∀ name, barred name → s'.grammar.tokens.get? name = none)
    (hcall : ∀ name, barred name →
      Tracks link (pure ()) (call' name pos 0) fun _ found => found = none) (rule : String) :
    s'.Idle link call' rule pos a := by
  obtain ⟨e, es, helements, hself, hbody⟩ := ha
  -- the first element does not match, so the others are not tried
  have hfirst : ∀ minPrec, Tracks link (pure ()) (s'.matchElement call' rule minPrec e pos)
      fun _ found => found = none := by
    intro minPrec
    unfold matchElement
    rw [hself]
    rcases hbody with ⟨value, hlit, hnone⟩ | ⟨name, href, hname⟩
    · rw [hlit]
      simp only [matchProduction, hnone]
      exact Tracks.pure rfl
    · rw [href]
      simp only [matchProduction, htoken name hname]
      exact hcall name hname
  unfold Idle
  rw [helements]
  simp only [matchElements]
  intro μ ν hlink _ found μ' ν' hμ hν
  obtain ⟨first, ν₁, hν₁, hν⟩ := Engine.bind_eq_ok hν
  obtain ⟨hlink, rfl⟩ := hfirst _ μ ν hlink () first μ' ν₁ hμ hν₁
  cases hν
  exact ⟨hlink, rfl⟩

/-- A rule whose seeds are all idle does not match. -/
theorem answer_idle {link : Memo → Memo → Prop} {call' : RuleMatcher} {key : MemoKey}
    (h : ∀ alts, s'.table.rules.get? key.rule = some alts →
      ∀ a ∈ alts.prefixed ++ alts.plain, s'.Idle link call' key.rule key.pos a) :
    Tracks link (pure ()) (s'.answer call' key) fun _ found => found = none := by
  unfold answer
  split
  · rename_i alts ht
    intro μ ν hlink _ found μ' ν' hμ hν
    obtain ⟨grown, ν₁, hgrown, hν⟩ := Engine.bind_eq_ok hν
    obtain ⟨seeds, ν₂, hseeds, hgrown⟩ := Engine.bind_eq_ok hgrown
    obtain ⟨hlink, rfl⟩ := seeds_idle key.pos _ (h alts ht) μ ν hlink () seeds μ' ν₂ hμ hseeds
    rw [Candidate.best_nil] at hgrown
    cases hgrown
    cases hν
    exact ⟨hlink, rfl⟩
  · exact Tracks.pure rfl

namespace Widens

theorem idle (hw : Widens b s s' barred) {link : Memo → Memo → Prop} {call' : RuleMatcher}
    {pos : Nat} (hcall : ∀ name, barred name →
      Tracks link (pure ()) (call' name pos 0) fun _ found => found = none) {a : Alternative}
    (ha : s'.Barred barred pos a) (rule : String) : s'.Idle link call' rule pos a :=
  ha.idle (fun name h => (hw.barred name h).2.1) hcall rule

/-- A barred rule does not match, and leaves the memos linked. -/
theorem matchRule_barred (hw : Widens b s s' barred) (limit' : Nat) :
    ∀ (name : String) {pos : Nat} (minPrec : Int), barred name → b.reached pos →
      Tracks (Linked b) (pure ()) (s'.matchRule limit' name pos minPrec)
        fun _ found => found = none := by
  induction limit' with
  | zero =>
    intro name pos minPrec hname _
    exact remembered_idle (hw.barred name hname).1 fun _ _ _ _ _ _ _ _ h => nomatch h
  | succ limit' ih =>
    intro name pos minPrec hname hpos
    obtain ⟨hscope, _, halts⟩ := hw.barred name hname
    refine remembered_idle hscope (matchFresh_idle hscope (answer_idle fun alts ht a ha => ?_))
    exact hw.idle (fun name hname => ih name 0 hname hpos) (halts alts ht a ha pos hpos) name

/-- The rules that both sessions know are answered alike, whatever the two limits are. -/
theorem matchRule_tracks (hw : Widens b s s' barred) (limit limit' : Nat) :
    CallsTrack b (Linked b) (s.matchRule limit) (s'.matchRule limit') := by
  induction limit generalizing limit' with
  | zero =>
    intro rule pos minPrec hrule _
    cases limit' <;> exact remembered_tracks hrule fun _ _ _ _ _ _ _ h => nomatch h
  | succ limit ih =>
    intro rule pos minPrec hrule hpos
    cases limit' with
    | zero => exact remembered_tracks hrule fun _ _ _ _ _ _ _ _ h => nomatch h
    | succ limit' =>
      refine remembered_tracks hrule (matchFresh_tracks hrule ?_)
      refine answer_tracks hw.lawful (ih limit') hrule hpos (hw.rules rule hrule) ?_
      intro _ _ a _ ha
      exact hw.idle (fun name hname => hw.matchRule_barred limit' name 0 hname hpos) (ha pos hpos) rule

/-- **A session that widens another one makes corresponding trees.** -/
theorem parse_tracks (hw : Widens b s s' barred) {limit limit' : Nat} {root root' : Node}
    {μ ν : Memo} (h : s.parse limit {} = .ok root μ) (h' : s'.parse limit' {} = .ok root' ν) :
    b.node root root' :=
  (parseBy_tracks hw.lawful (hw.matchRule_tracks limit limit') hw.start hw.parents {} {} linked_empty
    root root' μ ν h h').2

end Widens

end Session

end LayeredGrammar
