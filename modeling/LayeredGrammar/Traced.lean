/-!
# Computations that leave notes

A traced computation ends in a value or an error and leaves a list of notes either way, in the
order in which they were made: what was noted before an error is kept.
-/

namespace LayeredGrammar

/-- Notes of type `ω`, then an error of type `ε` or a value of type `α`. -/
structure Traced (ω ε α : Type) where
  notes : List ω
  outcome : Except ε α

namespace Traced

variable {ω ω' ω'' ε ε' ε'' α β : Type}

/-- A value without notes. -/
protected def pure (a : α) : Traced ω ε α := ⟨[], .ok a⟩

/-- Go on with a value; after an error nothing more is done. -/
protected def bind (x : Traced ω ε α) (f : α → Traced ω ε β) : Traced ω ε β :=
  match x.outcome with
  | .ok a => ⟨x.notes ++ (f a).notes, (f a).outcome⟩
  | .error e => ⟨x.notes, .error e⟩

instance : Monad (Traced ω ε) where
  pure := Traced.pure
  bind := Traced.bind

/-- Leave a note. -/
def note (w : ω) : Traced ω ε Unit := ⟨[w], .ok ()⟩

/-- End in an error. -/
def fail (e : ε) : Traced ω ε α := ⟨[], .error e⟩

/-- Read the notes and the error as those of a wider computation. -/
def embed (f : ω → ω') (g : ε → ε') (x : Traced ω ε α) : Traced ω' ε' α :=
  ⟨x.notes.map f, match x.outcome with | .ok a => .ok a | .error e => .error (g e)⟩

theorem ext' {x y : Traced ω ε α} (hn : x.notes = y.notes) (ho : x.outcome = y.outcome) :
    x = y := by
  cases x
  cases y
  simp_all

@[simp] theorem pure_eq (a : α) : (Pure.pure a : Traced ω ε α) = ⟨[], .ok a⟩ := rfl

@[simp] theorem bind_ok (ns : List ω) (a : α) (f : α → Traced ω ε β) :
    ((⟨ns, .ok a⟩ : Traced ω ε α) >>= f) = ⟨ns ++ (f a).notes, (f a).outcome⟩ := rfl

@[simp] theorem bind_error (ns : List ω) (e : ε) (f : α → Traced ω ε β) :
    ((⟨ns, .error e⟩ : Traced ω ε α) >>= f) = ⟨ns, .error e⟩ := rfl

/-- A computation that goes on after another ends in a value when both do. -/
theorem outcome_bind {x : Traced ω ε α} {f : α → Traced ω ε β} {b : β} :
    (x >>= f).outcome = .ok b ↔ ∃ a, x.outcome = .ok a ∧ (f a).outcome = .ok b := by
  obtain ⟨ns, e | a⟩ := x
  · rw [bind_error]
    exact ⟨nofun, fun ⟨_, h, _⟩ => nomatch h⟩
  · rw [bind_ok]
    exact ⟨fun h => ⟨a, rfl, h⟩, fun ⟨_, h, h'⟩ => by cases h; exact h'⟩

/-- A wider computation ends in a value when the narrower one does. -/
theorem outcome_embed {f : ω → ω'} {g : ε → ε'} {x : Traced ω ε α} {a : α}
    (h : (x.embed f g).outcome = .ok a) : x.outcome = .ok a := by
  unfold Traced.embed at h
  simp only at h
  split at h
  · rename_i hx
    cases h
    exact hx
  · cases h

/-- Widening twice is widening once. -/
theorem embed_embed (f : ω → ω') (f' : ω' → ω'') (g : ε → ε') (g' : ε' → ε'')
    (x : Traced ω ε α) : (x.embed f g).embed f' g' = x.embed (f' ∘ f) (g' ∘ g) := by
  obtain ⟨ns, e | a⟩ := x <;> simp [embed]

/-- How a computation goes on matters only for the value it has. -/
theorem bind_congr {x : Traced ω ε α} {f g : α → Traced ω ε β}
    (h : ∀ a, x.outcome = .ok a → f a = g a) : x >>= f = x >>= g := by
  obtain ⟨ns, e | a⟩ := x
  · rfl
  · rw [bind_ok, bind_ok, h a rfl]

instance : LawfulMonad (Traced ω ε) := LawfulMonad.mk' _
  (fun {_} x => by
    obtain ⟨ns, _ | a⟩ := x
    · rfl
    · exact ext' (List.append_nil ns) rfl)
  (fun {_ _} _ _ => rfl)
  (fun {_ _ _} x f g => by
    obtain ⟨ns, _ | a⟩ := x
    · rfl
    · rw [bind_ok, bind_ok]
      obtain ⟨ms, _ | b⟩ := f a
      · rfl
      · exact ext' (List.append_assoc ns ms _) rfl)

end Traced

end LayeredGrammar
