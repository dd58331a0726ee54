import LayeredGrammar.Proofs.Catalog.Shipped
import LayeredGrammar.Proofs.Engine.Answers
import LayeredGrammar.Proofs.Engine.Progress
import Mathlib.Data.List.Forall2

/-!
# The memo does not change answers

A session that has run into a rule that is being matched would remember what it made of that, and
later answers would depend on what was asked for before. In the ready-made grammars this cannot
happen: their rules are ranked by what they ask for before they take in text, so a session replies to
each of a sequence of requests as a fresh session does (`Session.replies_as_alone`).
-/

namespace LayeredGrammar

namespace Session

variable {s : Session} {height : MemoKey → Nat}

/-! ## Replies of a session with falling heights -/

/-- Every reply in a sequence is the one that the answers themselves give. -/
theorem replies_by_truth (hfall : s.Falling height) {limit : Nat} {rs : List Request} :
    ∀ {replies : List Reply} {μ μ' : Memo}, s.Faithful height [] μ →
    s.performAll (s.matchRule limit) rs μ = .ok replies μ' →
    List.Forall₂ (fun r reply => ∃ ν, s.performBy (tabled (s.truth height)) r {} = .ok reply ν)
      rs replies := by
  induction rs with
  | nil =>
    intro replies μ μ' _ h
    cases h
    exact .nil
  | cons r rs ih =>
    intro replies μ μ' hμ h
    obtain ⟨reply, rest, μ₁, rfl, hreply, hrest⟩ := performAll_cons_ok h
    have halike := fun k => matchRule_faithful hfall True limit [] k (Or.inl trivial) nofun
    obtain ⟨ν, hν, hμ₁, _⟩ := (performBy_coupled halike r).of_ok (ν := {}) hμ hreply
    exact .cons ⟨ν, hν⟩ (ih hμ₁ hrest)

/-- A fresh session gives the reply that the answers themselves give. -/
theorem reply_alone (hfall : s.Falling height) {r : Request} {reply : Reply} {ν : Memo}
    (h : s.performBy (tabled (s.truth height)) r {} = .ok reply ν) {limit : Nat} {reply' : Reply}
    {μ : Memo} (h' : s.perform limit r {} = .ok reply' μ) : reply' = reply := by
  have halike := fun k => matchRule_faithful hfall True limit [] k (Or.inl trivial) nofun
  obtain ⟨ν', hν', _⟩ := (performBy_coupled halike r).of_ok (ν := {}) faithful_empty h'
  rw [h] at hν'
  cases hν'
  rfl

/-- A fresh session with room for all heights gives a reply. -/
theorem exists_reply (hfall : s.Falling height) {limit : Nat} (hlimit : ∀ k, height k < limit)
    (r : Request) : ∃ reply μ, s.perform limit r {} = .ok reply μ := by
  have halike := fun k => matchRule_faithful hfall False limit [] k (Or.inr (hlimit k)) nofun
  have hends := performBy_coupled halike r {} {} faithful_empty
  unfold perform
  cases hrun : s.performBy (s.matchRule limit) r {} with
  | ok reply μ => exact ⟨reply, μ, rfl⟩
  | error e μ =>
    rw [hrun] at hends
    rcases hends with h | ⟨_, _, h⟩ <;> exact h.elim

/-- **Memo transparency of the ready-made grammars.** If a session answers a sequence of requests
without reaching the limit on nested rules, then it does so whatever is done about rules that are
asked for while they are being matched, since there are none; and each reply is the reply to the same
request alone in a fresh session, under every limit that the request does not reach there. Large
limits are not reached. -/
theorem replies_as_alone (ht : Catalog.Shipped s.table) {limit : Nat} {rs : List Request}
    {replies : List Reply} {μ : Memo}
    (h : s.performAll (s.matchRule limit) rs {} = .ok replies μ) :
    (∀ busy, s.performAll (s.watchfulRule busy limit) rs {} = .ok replies μ) ∧
    List.Forall₂ (fun r reply =>
      (∀ limit' reply' μ', s.perform limit' r {} = .ok reply' μ' → reply' = reply) ∧
      ∃ enough, ∀ limit', enough ≤ limit' → ∃ μ', s.perform limit' r {} = .ok reply μ')
      rs replies := by
  have hfall : s.Falling (s.height Catalog.cornerRank 7) := ht.falling
  constructor
  · intro busy
    have halike := fun k => watchfulRule_alike hfall busy limit [] k nofun
    have hends := performAll_coupled halike rs {} {} ⟨rfl, sound_empty, .empty⟩
    rw [← h]
    exact hends.eq (fun _ _ h => h.1) (fun _ _ h => h) id
  · refine (replies_by_truth hfall faithful_empty h).imp ?_
    rintro r reply ⟨ν, hν⟩
    refine ⟨fun limit' reply' μ' h' => reply_alone hfall hν h', s.size * (7 + 1) + 7 + 1, ?_⟩
    intro limit' hle
    have hroom : ∀ k, s.height Catalog.cornerRank 7 k < limit' := by
      intro k
      have : s.height Catalog.cornerRank 7 k ≤ s.size * (7 + 1) + 7 :=
        height_le Catalog.cornerRank_le k
      omega
    obtain ⟨reply', μ', h'⟩ := exists_reply hfall hroom r
    exact ⟨μ', reply_alone hfall hν h' ▸ h'⟩

/-- A session of the C grammar that reads a text and is then asked for an expression in it. -/
theorem replies_as_alone_sample : ∃ (s : Session) (replies : List Reply) (μ : Memo),
    Catalog.cTable.outcome = .ok s.table ∧ s.text = #['a', ';'] ∧
    s.performAll (s.matchRule 12) [.parse, .rule "_expression" 0 0] {} = .ok replies μ ∧
    (∀ busy, s.performAll (s.watchfulRule busy 12) [.parse, .rule "_expression" 0 0] {} =
      .ok replies μ) ∧
    List.Forall₂ (fun r reply =>
      (∀ limit' reply' μ', s.perform limit' r {} = .ok reply' μ' → reply' = reply) ∧
      ∃ enough, ∀ limit', enough ≤ limit' → ∃ μ', s.perform limit' r {} = .ok reply μ')
      [.parse, .rule "_expression" 0 0] replies := by
  obtain ⟨table, replies, μ, htable, hrun⟩ := Catalog.exists_readings
  exact ⟨⟨table, true, #['a', ';']⟩, replies, μ, htable, rfl, hrun,
    replies_as_alone (Or.inl htable) hrun⟩

end Session

end LayeredGrammar
