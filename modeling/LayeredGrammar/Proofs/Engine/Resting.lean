import LayeredGrammar.Proofs.Engine.Growth
import LayeredGrammar.Proofs.Engine.Tracking

/-!
# Sessions whose further alternatives rest

Two sessions are paired, and the second one has further alternatives for the rules of the first. They
may ask for rules that both sessions know before it turns out that they do not match, so the memos of
the two sessions go different ways. If in both sessions rules only ask for keys below their own, this
does not matter: the answers to a key do not depend on the memo. `Session.Resting` asks only that the
further alternatives have no match at the positions the sessions come to; the answers correspond then
(`Session.Resting.truth`), and so do the trees (`Session.Resting.parse_tracks`).
-/

namespace LayeredGrammar

namespace Session

open Engine (Tracks)

variable {s s' : Session} {b : Pairing} {height : MemoKey → Nat}

/-- An alternative of a rule that has no match at the positions of a set. -/
def RestsAt (s' : Session) (height : MemoKey → Nat) (reached : Nat → Prop) (rule : String)
    (a : Alternative) : Prop :=
  ∀ pos, reached pos → s'.inRow (s'.truth height) rule a.rightMin a.elements pos = none

/-- How a session has alternatives that rest in addition to those of another one. -/
structure Resting (b : Pairing) (s s' : Session) (height : MemoKey → Nat) : Prop where
  lawful : b.Lawful s s'
  start : b.scope s.grammar.start
  parents : b.parents s.grammar.start
  falling : s.Falling height
  falling' : s'.Falling height
  rules : ∀ rule, b.scope rule → Widened b s s' (s'.RestsAt height b.reached rule) rule

/-- The answers to the keys below a height. -/
def answersBelow (s : Session) (height : MemoKey → Nat) (n : Nat) (k : MemoKey) : Option Match :=
  if height k < n then s.truth height k else none

theorem truthful_answersBelow (n : Nat) : s.Truthful (s.answersBelow height n) := by
  intro k m hm
  unfold answersBelow at hm
  split at hm
  · exact yields_truth k m hm
  · cases hm

/-- An alternative that rests is idle, with the answers below its key at hand. -/
theorem RestsAt.idle {reached : Nat → Prop} {k : MemoKey} {a : Alternative}
    (h : s'.RestsAt height reached k.rule a) (hfall : s'.Falling height) (hpos : reached k.pos)
    {alts : RuleAlternatives} (ht : s'.table.rules.get? k.rule = some alts) (ha : a ∈ alts.plain) :
    s'.Idle (fun _ _ => True) (tabled (s'.answersBelow height (height k))) k.rule k.pos a := by
  intro μ ν _ _ found μ' ν' _ hν
  refine ⟨trivial, ?_⟩
  have hbelow : ∀ k', s'.Asks (.elements k.rule a.rightMin a.elements (.begin k.pos)) k' →
      s'.answersBelow height (height k) k' = s'.truth height k' :=
    fun k' hk' => if_pos (hfall k k' (.ruleSeed ht (Or.inr ha) hk'))
  rw [inRow_of_ok (truthful_answersBelow _) hν, inRow_congr (truthful_answersBelow _) hbelow]
  exact h k.pos hpos

namespace Resting

/-- **The answers of the two sessions correspond**, by induction on their height. -/
theorem truth (h : Resting b s s' height) (k : MemoKey) (hrule : b.scope k.rule)
    (hpos : b.reached k.pos) :
    Option.Rel (b.Answers k.rule) (s.truth height k) (s'.truth height k) := by
  have hcall : CallsTrack b (fun _ _ => True) (tabled (s.answersBelow height (height k)))
      (tabled (s'.answersBelow height (height k))) := by
    intro rule pos minPrec hrule' hpos'
    refine Tracks.pure ?_
    unfold answersBelow
    split
    · rename_i hlt
      exact h.truth ⟨rule, pos, minPrec⟩ hrule' hpos'
    · exact .none
  obtain ⟨μ, hμ⟩ := answer_truth_below h.falling
    (fun k' hlt => show s.answersBelow height (height k) k' = _ from if_pos hlt) {}
  obtain ⟨ν, hν⟩ := answer_truth_below h.falling'
    (fun k' hlt => show s'.answersBelow height (height k) k' = _ from if_pos hlt) {}
  have htracks := answer_tracks h.lawful hcall hrule hpos (h.rules k.rule hrule)
    fun alts' ht a ha hrest => hrest.idle h.falling' hpos ht ha
  exact (htracks {} {} trivial _ _ μ ν hμ hν).2
termination_by height k

/-- **A session whose further alternatives rest makes corresponding trees.** -/
theorem parse_tracks (h : Resting b s s' height) {limit limit' : Nat} {root root' : Node}
    {μ ν : Memo} (hroot : s.parse limit {} = .ok root μ)
    (hroot' : s'.parse limit' {} = .ok root' ν) : b.node root root' := by
  obtain ⟨μ', hμ'⟩ := parse_faithful h.falling hroot
  obtain ⟨ν', hν'⟩ := parse_faithful h.falling' hroot'
  have hcall : CallsTrack b (fun _ _ => True) (tabled (s.truth height))
      (tabled (s'.truth height)) :=
    fun rule pos minPrec hrule hpos => Tracks.pure (h.truth ⟨rule, pos, minPrec⟩ hrule hpos)
  exact (parseBy_tracks h.lawful hcall h.start h.parents {} {} trivial root root' μ' ν' hμ' hν').2

end Resting

end Session

end LayeredGrammar
