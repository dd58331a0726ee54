import LayeredGrammar.Engine.Parser

/-!
# Two runs of the engine side by side

`Engine.Coupled` relates two computations of the engine that start from related memos: when the
first one ends with a value, so does the second, with the same value and related memos, and the
value has a given property. A coupling says how the memos are related, and what is known when the
limit on nested rules stops the runs.

A computation coupled with itself is a plain invariant; two ways of asking for rules coupled with
each other are a simulation. Both are put together by `Coupled.pure` and `Coupled.bind`.
-/

namespace LayeredGrammar.Engine

variable {α β : Type}

/-- How two runs of the engine go side by side. -/
structure Coupling where
  /-- What holds of the two memos as long as the runs go on. -/
  going : Memo → Memo → Prop
  /-- What holds of the two memos once the limit has stopped both runs. -/
  stopped : Memo → Memo → Prop
  /-- Whether the limit may stop the first run alone. -/
  lenient : Prop

/-- Two results that are alike, a value having the property `post`. -/
def Ends (c : Coupling) (post : α → Prop) :
    EStateM.Result TooDeep Memo α → EStateM.Result TooDeep Memo α → Prop
  | .ok a μ, r => ∃ ν, r = .ok a ν ∧ c.going μ ν ∧ post a
  | .error e μ, r => c.lenient ∨ ∃ ν, r = .error e ν ∧ c.stopped μ ν

/-- Two computations that end alike, with a value that has the property `post`. -/
def Coupled (c : Coupling) (x y : Engine α) (post : α → Prop) : Prop :=
  ∀ μ ν, c.going μ ν → Ends c post (x μ) (y ν)

/-- Two runs with one memo that end alike end in the same way. -/
theorem Ends.eq {c : Coupling} {post : α → Prop} {r r' : EStateM.Result TooDeep Memo α}
    (h : Ends c post r r') (hgoing : ∀ μ ν, c.going μ ν → μ = ν)
    (hstopped : ∀ μ ν, c.stopped μ ν → μ = ν) (hlenient : ¬c.lenient) : r = r' := by
  cases r with
  | ok a μ =>
    obtain ⟨ν, rfl, hg, _⟩ := h
    rw [hgoing μ ν hg]
  | error e μ =>
    obtain ⟨ν, rfl, hs⟩ := h.resolve_left hlenient
    rw [hstopped μ ν hs]

theorem bind_apply (x : Engine α) (f : α → Engine β) (μ : Memo) :
    (x >>= f) μ = match x μ with
      | .ok a μ' => f a μ'
      | .error e μ' => .error e μ' := by
  simp only [bind, EStateM.bind]
  cases x μ <;> rfl

/-- A computation that ends with a value does so in two steps. -/
theorem bind_eq_ok {x : Engine α} {f : α → Engine β} {μ μ'' : Memo} {b : β}
    (h : (x >>= f) μ = .ok b μ'') : ∃ a μ', x μ = .ok a μ' ∧ f a μ' = .ok b μ'' := by
  rw [bind_apply] at h
  split at h
  · rename_i a μ' hx
    exact ⟨a, μ', hx, h⟩
  · cases h

/-- The value that a computation ends in, if it does not run into the limit. -/
def value? (x : Engine α) (μ : Memo) : Option α :=
  match x μ with
  | .ok a _ => some a
  | .error _ _ => none

theorem exists_of_any {x : Engine α} {μ : Memo} {test : α → Bool}
    (h : (value? x μ).any test = true) : ∃ a μ', x μ = .ok a μ' ∧ test a = true := by
  unfold value? at h
  split at h
  · rename_i a μ' hx
    exact ⟨a, μ', hx, h⟩
  · cases h

theorem remembered_apply (key : MemoKey) (compute : Engine (Option Match)) (μ : Memo) :
    remembered key compute μ = match μ[key]? with
      | some .active => .ok none μ
      | some (.known m) => .ok m μ
      | none => compute μ := by
  show (get >>= _ : Engine (Option Match)) μ = _
  rw [bind_apply]
  show (match μ[key]? with
    | some .active => (pure none : Engine (Option Match))
    | some (.known m) => pure m
    | none => compute) μ = _
  cases μ[key]? with
  | none => rfl
  | some entry => cases entry <;> rfl

/-- What is remembered is the same for two computations that start from one memo; they have to end
alike only where nothing is. -/
theorem remembered_ends {c : Coupling} {key : MemoKey} {x y : Engine (Option Match)}
    {post : Option Match → Prop} {μ : Memo} (hg : c.going μ μ) (hactive : post none)
    (hknown : ∀ found, μ[key]? = some (.known found) → post found)
    (hnone : μ[key]? = none → Ends c post (x μ) (y μ)) :
    Ends c post (remembered key x μ) (remembered key y μ) := by
  rw [remembered_apply, remembered_apply]
  cases hk : μ[key]? with
  | none => exact hnone hk
  | some entry =>
    cases entry with
    | active => exact ⟨μ, rfl, hg, hactive⟩
    | known found => exact ⟨μ, rfl, hg, hknown found hk⟩

namespace Coupled

variable {c : Coupling} {x y : Engine α}

theorem pure {post : α → Prop} {a : α} (h : post a) :
    Coupled c (Pure.pure a : Engine α) (Pure.pure a) post :=
  fun _ ν hg => ⟨ν, rfl, hg, h⟩

theorem bind {post : α → Prop} {post' : β → Prop} {f g : α → Engine β}
    (hx : Coupled c x y post) (hf : ∀ a, post a → Coupled c (f a) (g a) post') :
    Coupled c (x >>= f) (y >>= g) post' := by
  intro μ ν hg
  have hxy := hx μ ν hg
  rw [bind_apply, bind_apply]
  cases hμ : x μ with
  | ok a μ' =>
    rw [hμ] at hxy
    obtain ⟨ν', hν, hg', ha⟩ := hxy
    rw [hν]
    exact hf a ha μ' ν' hg'
  | error e μ' =>
    rw [hμ] at hxy
    rcases hxy with hl | ⟨ν', hν, hs⟩
    · exact Or.inl hl
    · rw [hν]
      exact Or.inr ⟨ν', rfl, hs⟩

theorem mono {post post' : α → Prop} (hx : Coupled c x y post) (h : ∀ a, post a → post' a) :
    Coupled c x y post' := by
  intro μ ν hg
  have hxy := hx μ ν hg
  cases hμ : x μ with
  | ok a μ' =>
    rw [hμ] at hxy
    obtain ⟨ν', hν, hg', ha⟩ := hxy
    exact ⟨ν', hν, hg', h a ha⟩
  | error e μ' =>
    rw [hμ] at hxy
    exact hxy

/-- What the first run ends with. -/
theorem of_ok {post : α → Prop} (hx : Coupled c x y post) {μ ν μ' : Memo} {a : α}
    (hg : c.going μ ν) (h : x μ = .ok a μ') : ∃ ν', y ν = .ok a ν' ∧ c.going μ' ν' ∧ post a := by
  have hxy := hx μ ν hg
  rwa [h] at hxy

end Coupled

end LayeredGrammar.Engine
