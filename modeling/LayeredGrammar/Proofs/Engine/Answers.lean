import LayeredGrammar.Proofs.Engine.Requests

/-!
# Answers without a memo

If rules only ask for keys below their own, by some height (`Session.Falling`), then every key has an
answer that depends on nothing but the text: what the rule makes of it when the rules it asks for
are given their answers (`Session.truth`, `Session.answer_truth`). No rule is ever asked for while
it is being matched (`Session.watchfulRule_alike`), the memo holds nothing but these answers, and so
a session replies to every request as it would if it were the first one (`Session.matchRule_faithful`).
-/

namespace LayeredGrammar

namespace Session

open Engine (Coupled Coupling)

variable {s : Session} {height : MemoKey → Nat}

/-- Rules ask only for keys below their own. -/
def Falling (s : Session) (height : MemoKey → Nat) : Prop :=
  ∀ key k, s.Asks (.rule key) k → height k < height key

/-! ## Tables of answers -/

/-- Ask for rules in a table of answers. -/
def tabled (answers : MemoKey → Option Match) : RuleMatcher :=
  fun rule pos minPrec => pure (answers ⟨rule, pos, minPrec⟩)

/-- Two runs that pay no attention to their memos. -/
def anyhow : Coupling where
  going _ _ := True
  stopped _ _ := False
  lenient := False

/-- The match that a computation ends with. -/
def matchOf : EStateM.Result TooDeep Memo (Option Match) → Option Match
  | .ok found _ => found
  | .error _ _ => none

theorem tabled_alike {f g : MemoKey → Option Match} {k : MemoKey} (heq : f k = g k)
    (hf : ∀ m ∈ f k, s.Yields (.rule k) m) : s.Alike anyhow (tabled f) (tabled g) k := by
  intro μ ν _
  exact ⟨ν, congrArg (EStateM.Result.ok · ν) heq.symm, trivial, hf⟩

theorem matchOf_of_coupled {x y : Engine (Option Match)} {post : Option Match → Prop}
    (h : Coupled anyhow x y post) (μ ν : Memo) :
    matchOf (x μ) = matchOf (y ν) ∧ post (matchOf (x μ)) ∧ ∃ μ', x μ = .ok (matchOf (x μ)) μ' := by
  have hxy := h μ ν trivial
  cases hx : x μ with
  | ok found μ' =>
    rw [hx] at hxy
    obtain ⟨ν', hy, _, hp⟩ := hxy
    rw [hy]
    exact ⟨rfl, hp, μ', rfl⟩
  | error e μ' =>
    rw [hx] at hxy
    rcases hxy with h | ⟨_, _, h⟩ <;> exact h.elim

/-! ## The answer to a key -/

/-- What a rule answers with at most `n` rules inside each other and nothing remembered. -/
def answerWithin (s : Session) : Nat → MemoKey → Option Match
  | 0, _ => none
  | n + 1, k => matchOf (s.answer (tabled (s.answerWithin n)) k {})

theorem yields_answerWithin (n : Nat) (k : MemoKey) :
    ∀ m ∈ s.answerWithin n k, s.Yields (.rule k) m := by
  induction n generalizing k with
  | zero => exact nofun
  | succ n ih =>
    have h := answer_coupled fun k' (_ : s.Asks (.rule k) k') => tabled_alike rfl (ih k')
    exact (matchOf_of_coupled h {} {}).2.1

/-- Room for more rules than the height of a key does not change its answer. -/
theorem answerWithin_settled (hfall : s.Falling height) :
    ∀ (n m : Nat) (k : MemoKey), height k < n → height k < m →
      s.answerWithin n k = s.answerWithin m k
  | 0, _, _, hn, _ => by omega
  | _, 0, _, _, hm => by omega
  | n + 1, m + 1, k, hn, hm => by
    have h := answer_coupled fun k' (hk' : s.Asks (.rule k) k') => by
      have := hfall k k' hk'
      exact tabled_alike (answerWithin_settled hfall n m k' (by omega) (by omega))
        (yields_answerWithin n k')
    exact (matchOf_of_coupled h {} {}).1

/-- The answer to a key. -/
def truth (s : Session) (height : MemoKey → Nat) (k : MemoKey) : Option Match :=
  s.answerWithin (height k + 1) k

theorem yields_truth (k : MemoKey) : ∀ m ∈ s.truth height k, s.Yields (.rule k) m :=
  yields_answerWithin _ k

/-- The answer to a key is what its rule makes of the answers to the keys below it. -/
theorem answer_truth_below (hfall : s.Falling height) {k : MemoKey}
    {answers : MemoKey → Option Match}
    (h : ∀ k', height k' < height k → answers k' = s.truth height k') (μ : Memo) :
    ∃ μ', s.answer (tabled answers) k μ = .ok (s.truth height k) μ' := by
  have halike : ∀ k', s.Asks (.rule k) k' →
      s.Alike anyhow (tabled answers) (tabled (s.answerWithin (height k))) k' := by
    intro k' hk'
    have hlt := hfall k k' hk'
    have hsettled : s.truth height k' = s.answerWithin (height k) k' :=
      answerWithin_settled hfall _ _ k' (by omega) (by omega)
    refine tabled_alike ((h k' hlt).trans hsettled) ?_
    rw [h k' hlt]
    exact yields_truth k'
  obtain ⟨heq, _, μ', hμ'⟩ := matchOf_of_coupled (answer_coupled halike) μ {}
  refine ⟨μ', ?_⟩
  rw [hμ', heq]
  rfl

/-- The answer to a key is what its rule makes of the answers. -/
theorem answer_truth (hfall : s.Falling height) (k : MemoKey) (μ : Memo) :
    ∃ μ', s.answer (tabled (s.truth height)) k μ = .ok (s.truth height k) μ' :=
  answer_truth_below hfall (fun _ _ => rfl) μ

/-! ## Marks in the memo -/

/-- A memo that marks only the given keys. -/
def MarksOnly (marked : List MemoKey) (μ : Memo) : Prop :=
  ∀ k, μ[k]? = some .active → k ∈ marked

namespace MarksOnly

variable {marked : List MemoKey} {μ : Memo} {k : MemoKey}

theorem empty : MarksOnly [] {} := by
  intro k h
  simp at h

theorem insert_active (h : MarksOnly marked μ) (k : MemoKey) :
    MarksOnly (k :: marked) (μ.insert k .active) := by
  intro j hj
  rw [Memo.getElem?_insert_eq] at hj
  split at hj
  · rename_i heq
    exact heq ▸ List.mem_cons_self
  · exact List.mem_cons_of_mem _ (h j hj)

theorem insert_known (h : MarksOnly (k :: marked) μ) (found : Option Match) :
    MarksOnly marked (μ.insert k (.known found)) := by
  intro j hj
  rw [Memo.getElem?_insert_eq] at hj
  split at hj
  · cases hj
  · rename_i hne
    exact (List.mem_cons.1 (h j hj)).resolve_left fun heq => hne heq.symm

/-- A key below all that are marked is not marked. -/
theorem not_active (h : MarksOnly marked μ) (hk : ∀ j ∈ marked, height k < height j) :
    μ[k]? ≠ some .active := by
  intro hactive
  exact Nat.lt_irrefl _ (hk k (h k hactive))

end MarksOnly

/-- Do something else if a rule is asked for while it is being matched. -/
def unlessActive (busy : Engine (Option Match)) (key : MemoKey)
    (compute : Engine (Option Match)) : Engine (Option Match) := do
  match (← get)[key]? with
  | some .active => busy
  | _ => compute

theorem unlessActive_apply {busy compute : Engine (Option Match)} {key : MemoKey} {μ : Memo}
    (h : μ[key]? ≠ some .active) : unlessActive busy key compute μ = compute μ := by
  show (get >>= _ : Engine (Option Match)) μ = _
  rw [Engine.bind_apply]
  show (match μ[key]? with
    | some .active => busy
    | _ => compute) μ = _
  cases hentry : μ[key]? with
  | none => rfl
  | some entry =>
    cases entry with
    | active => exact absurd hentry h
    | known found => rfl

/-- Match a rule as `matchRule` does, except that `busy` takes over where a rule is asked for that
is being matched. -/
def watchfulRule (s : Session) (busy : Engine (Option Match)) : Nat → RuleMatcher
  | 0, rule, pos, minPrec =>
    unlessActive busy ⟨rule, pos, minPrec⟩
      (Engine.remembered ⟨rule, pos, minPrec⟩ (throw .tooDeep))
  | limit + 1, rule, pos, minPrec =>
    unlessActive busy ⟨rule, pos, minPrec⟩
      (Engine.remembered ⟨rule, pos, minPrec⟩
        (s.matchFresh (s.watchfulRule busy limit) ⟨rule, pos, minPrec⟩))

/-- Two runs with the same sound memo that marks only the given keys. -/
def quietly (s : Session) (marked : List MemoKey) : Coupling where
  going μ ν := μ = ν ∧ s.Sound μ ∧ MarksOnly marked μ
  stopped μ ν := μ = ν
  lenient := False

/-- **No rule is asked for while it is being matched.** -/
theorem watchfulRule_alike (hfall : s.Falling height) (busy : Engine (Option Match)) :
    ∀ (limit : Nat) (marked : List MemoKey) (k : MemoKey), (∀ j ∈ marked, height k < height j) →
    s.Alike (s.quietly marked) (s.watchfulRule busy limit) (s.matchRule limit) k := by
  intro limit
  induction limit with
  | zero =>
    rintro marked k hk μ ν ⟨rfl, hμ, hmarks⟩
    unfold watchfulRule
    rw [unlessActive_apply (hmarks.not_active hk)]
    exact Engine.remembered_ends ⟨rfl, hμ, hmarks⟩ nofun
      (fun found hmemo m hm => hμ k m (hm ▸ hmemo)) fun _ => Or.inr ⟨μ, rfl, rfl⟩
  | succ limit ih =>
    rintro marked k hk μ ν ⟨rfl, hμ, hmarks⟩
    unfold watchfulRule
    rw [unlessActive_apply (hmarks.not_active hk)]
    refine Engine.remembered_ends ⟨rfl, hμ, hmarks⟩ nofun
      (fun found hmemo m hm => hμ k m (hm ▸ hmemo)) ?_
    intro _
    refine matchFresh_ends (answer_coupled fun k' hk' => ih (k :: marked) k' ?_)
      ⟨rfl, hμ.insert_active k, hmarks.insert_active k⟩ ?_ (fun _ _ h => h) id
    · have hlt := hfall k k' hk'
      exact List.forall_mem_cons.2 ⟨hlt, fun j hj => Nat.lt_trans hlt (hk j hj)⟩
    · rintro μ' ν' found ⟨rfl, hμ', hmarks'⟩ hfound
      exact ⟨rfl, hμ'.insert_known hfound, hmarks'.insert_known found⟩

/-! ## What the memo holds -/

/-- A memo that holds only answers, and marks only the given keys. -/
def Faithful (s : Session) (height : MemoKey → Nat) (marked : List MemoKey) (μ : Memo) : Prop :=
  (∀ k found, μ[k]? = some (.known found) → found = s.truth height k) ∧ MarksOnly marked μ

theorem faithful_empty : s.Faithful height [] {} := by
  refine ⟨?_, .empty⟩
  intro k found h
  simp at h

theorem Faithful.insert_active {marked : List MemoKey} {μ : Memo}
    (h : s.Faithful height marked μ) (k : MemoKey) :
    s.Faithful height (k :: marked) (μ.insert k .active) := by
  refine ⟨?_, h.2.insert_active k⟩
  intro j found hj
  rw [Memo.getElem?_insert_eq] at hj
  split at hj
  · cases hj
  · exact h.1 j found hj

theorem Faithful.insert_known {marked : List MemoKey} {μ : Memo} {k : MemoKey}
    (h : s.Faithful height (k :: marked) μ) :
    s.Faithful height marked (μ.insert k (.known (s.truth height k))) := by
  refine ⟨?_, h.2.insert_known _⟩
  intro j found hj
  rw [Memo.getElem?_insert_eq] at hj
  split at hj
  · rename_i heq
    cases hj
    exact heq ▸ rfl
  · exact h.1 j found hj

/-- A run with a faithful memo next to one that asks for the answers themselves. The limit may stop
the first one only if `mayStop` holds. -/
def faithfully (s : Session) (height : MemoKey → Nat) (marked : List MemoKey) (mayStop : Prop) :
    Coupling where
  going μ _ := s.Faithful height marked μ
  stopped _ _ := False
  lenient := mayStop

/-- **The memo holds nothing but the answers**, and a limit above the height of a key is not
reached. -/
theorem matchRule_faithful (hfall : s.Falling height) (mayStop : Prop) :
    ∀ (limit : Nat) (marked : List MemoKey) (k : MemoKey), mayStop ∨ height k < limit →
    (∀ j ∈ marked, height k < height j) →
    s.Alike (s.faithfully height marked mayStop) (s.matchRule limit) (tabled (s.truth height)) k := by
  intro limit
  induction limit with
  | zero =>
    intro marked k hstop hk μ ν hμ
    unfold matchRule
    rw [Engine.remembered_apply]
    split
    · rename_i hactive
      exact absurd hactive (hμ.2.not_active hk)
    · rename_i found hknown
      cases hμ.1 k found hknown
      exact ⟨ν, rfl, hμ, yields_truth k⟩
    · exact Or.inl (hstop.resolve_right (Nat.not_lt_zero _))
  | succ limit ih =>
    intro marked k hstop hk μ ν hμ
    unfold matchRule
    rw [Engine.remembered_apply]
    split
    · rename_i hactive
      exact absurd hactive (hμ.2.not_active hk)
    · rename_i found hknown
      cases hμ.1 k found hknown
      exact ⟨ν, rfl, hμ, yields_truth k⟩
    · have hanswer := answer_coupled (fun k' (hk' : s.Asks (.rule k) k') => by
        have hlt := hfall k k' hk'
        exact ih (k :: marked) k' (hstop.imp id fun h => by omega)
          (List.forall_mem_cons.2 ⟨hlt, fun j hj => Nat.lt_trans hlt (hk j hj)⟩)) _ ν
        (hμ.insert_active k)
      obtain ⟨ν', hν'⟩ := answer_truth hfall k ν
      rw [matchFresh_apply]
      cases ha : s.answer (s.matchRule limit) k (μ.insert k .active) with
      | ok found μ' =>
        rw [ha, hν'] at hanswer
        obtain ⟨_, heq, hμ', hfound⟩ := hanswer
        cases heq
        exact ⟨ν, rfl, hμ'.insert_known, hfound⟩
      | error e μ' =>
        rw [ha] at hanswer
        exact Or.inl (hanswer.resolve_right fun ⟨_, _, h⟩ => h)

/-- A tree is made of the answers. -/
theorem parse_faithful (hfall : s.Falling height) {limit : Nat} {root : Node} {μ : Memo}
    (h : s.parse limit {} = .ok root μ) :
    ∃ ν, s.parseBy (tabled (s.truth height)) {} = .ok root ν := by
  have halike := fun k => matchRule_faithful hfall True limit [] k (Or.inl trivial) nofun
  obtain ⟨ν, hν, _⟩ := (parseBy_coupled fun pos _ => halike _).of_ok (ν := {}) faithful_empty h
  exact ⟨ν, hν⟩

/-- Every answer is found by a session that has room for enough rules. -/
theorem matchRule_truth (hfall : s.Falling height) (k : MemoKey) : ∃ limit μ,
    s.matchRule limit k.rule k.pos k.minPrec {} = .ok (s.truth height k) μ := by
  have hends := matchRule_faithful hfall False (height k + 1) [] k (Or.inr (by omega)) nofun
    {} {} faithful_empty
  cases hrun : s.matchRule (height k + 1) k.rule k.pos k.minPrec {} with
  | ok found μ =>
    rw [hrun] at hends
    obtain ⟨ν, hν, _⟩ := hends
    cases hν
    exact ⟨_, μ, hrun⟩
  | error e μ =>
    rw [hrun] at hends
    rcases hends with h | ⟨_, _, h⟩ <;> exact h.elim

end Session

end LayeredGrammar
