import LayeredGrammar.Engine.Session

/-!
# Where scanning gets to

Whatever the expressions of a grammar are, scanning moves forward and stays inside the text: an
expression that matches at a position ends there or later, skipping extras does not go back, a
literal or raw token ends past its start and not past the end of the text.

`Session.errorSpan_advances` is the least obvious of these. An error region may be empty, because
extras that were skipped once may leave more extras behind; but then something was skipped before
the region, so that its end lies past the position it was looked for at in any case.
-/

namespace LayeredGrammar

/-! ## Regular expressions -/

namespace Regex

variable {mode : Mode} {text : Array Char}

/-- A computation that hands its continuation only positions from `pos` to the end of the text. -/
def Forward (text : Array Char) (run : (Nat → Option Nat) → Nat → Option Nat) : Prop :=
  ∀ k pos q, run k pos = some q → ∃ p, pos ≤ p ∧ p ≤ max pos text.size ∧ k p = some q

theorem orElse_eq_some {a b : Option Nat} {q : Nat} :
    (a <|> b) = some q ↔ a = some q ∨ a = none ∧ b = some q := by
  simp only [Option.orElse_eq_orElse, Option.orElse_eq_or, Option.or_eq_some_iff]

theorem step_forward (has : Char → Bool) : Forward text (step text has) := by
  intro k pos q h
  unfold step at h
  split at h
  · rename_i c hc
    split at h
    · have hpos : pos < text.size := (Array.getElem?_eq_some_iff.1 hc).1
      exact ⟨pos + 1, by omega, by omega, h⟩
    · cases h
  · cases h

theorem rounds_forward {body : (Nat → Option Nat) → Nat → Option Nat} (hbody : Forward text body)
    (greedy : Bool) (n : Nat) : Forward text (fun k pos => rounds body greedy k n pos) := by
  induction n with
  | zero => exact fun k pos q h => ⟨pos, by omega, by omega, h⟩
  | succ n ih =>
    intro k pos q h
    -- another round ends where its body does, or where the rounds after it do
    have hround : ∀ q, body (fun p => if pos < p then rounds body greedy k n p else k p) pos = some q →
        ∃ p, pos ≤ p ∧ p ≤ max pos text.size ∧ k p = some q := by
      intro q hq
      obtain ⟨p, hp, hp', hk⟩ := hbody _ _ _ hq
      split at hk
      · obtain ⟨p', hle, hle', hk'⟩ := ih k p q hk
        exact ⟨p', by omega, by omega, hk'⟩
      · exact ⟨p, hp, hp', hk⟩
    simp only [rounds] at h
    split at h
    · rcases orElse_eq_some.1 h with h | ⟨_, h⟩
      · exact hround q h
      · exact ⟨pos, by omega, by omega, h⟩
    · rcases orElse_eq_some.1 h with h | ⟨_, h⟩
      · exact ⟨pos, by omega, by omega, h⟩
      · exact hround q h

/-- An expression hands on only positions from its start to the end of the text. -/
theorem run_forward (r : Regex) : Forward text (run mode text r) := by
  induction r with
  | empty => exact fun k pos q h => ⟨pos, by omega, by omega, h⟩
  | char c => exact step_forward _
  | dot => exact step_forward _
  | oneOf negated items => exact step_forward _
  | boundary =>
    intro k pos q h
    simp only [run] at h
    split at h
    · exact ⟨pos, by omega, by omega, h⟩
    · cases h
  | seq a b iha ihb =>
    intro k pos q h
    obtain ⟨p, hp, hp', hk⟩ := iha _ _ _ h
    obtain ⟨p', hle, hle', hk'⟩ := ihb _ _ _ hk
    exact ⟨p', by omega, by omega, hk'⟩
  | alt a b iha ihb =>
    intro k pos q h
    rcases orElse_eq_some.1 h with h | ⟨_, h⟩
    · exact iha k pos q h
    · exact ihb k pos q h
  | loop body most greedy ih =>
    intro k pos q h
    exact rounds_forward ih greedy _ k pos q h

theorem matchAt_le_size {r : Regex} {pos q : Nat} (h : r.matchAt mode text pos = some q) :
    q ≤ text.size := by
  obtain ⟨p, _, hp, hk⟩ := run_forward r _ _ _ h
  cases hk
  omega

theorem le_matchAt {r : Regex} {pos q : Nat} (h : r.matchAt mode text pos = some q)
    (hpos : pos ≤ text.size) : pos ≤ q := by
  obtain ⟨p, hp, _, hk⟩ := run_forward r _ _ _ h
  cases hk
  omega

end Regex

namespace Token

variable {text : Array Char} {t : Token} {pos stop : Nat}

/-- A token matches where its expression does, if that is understood. -/
theorem matchAt_eq_some : t.matchAt text pos = some stop ↔
    ∃ r, t.regex = some r ∧ r.matchAt t.mode text pos = some stop :=
  Option.bind_eq_some_iff

theorem matchAt_le_size (h : t.matchAt text pos = some stop) : stop ≤ text.size := by
  obtain ⟨_, _, hm⟩ := matchAt_eq_some.1 h
  exact Regex.matchAt_le_size hm

end Token

/-! ## Extras, literals and tokens -/

namespace Session

variable {s : Session} {pos : Nat}

theorem le_skip (h : pos ≤ s.size) : pos ≤ s.skip pos := by
  unfold skip Extras.skip
  cases hm : s.grammar.extras.regex.matchAt { acrossLines := true } s.text pos with
  | none => exact Nat.le_refl _
  | some q => exact Regex.le_matchAt hm h

theorem skip_le (h : pos ≤ s.size) : s.skip pos ≤ s.size := by
  unfold skip Extras.skip
  cases hm : s.grammar.extras.regex.matchAt { acrossLines := true } s.text pos with
  | none => exact h
  | some q => exact Regex.matchAt_le_size hm

/-- From the end of the text on, there is nothing to skip to. -/
theorem size_le_skip (h : s.size ≤ pos) : s.size ≤ s.skip pos := by
  unfold skip Extras.skip
  cases hm : s.grammar.extras.regex.matchAt { acrossLines := true } s.text pos with
  | none => exact h
  | some q =>
    obtain ⟨p, hp, _, hk⟩ := Regex.run_forward _ _ _ _ hm
    cases hk
    rw [Option.getD_some]
    unfold size at *
    omega

/-- Where something starts after extras, the extras start inside the text. -/
theorem le_skip_of_lt (h : s.skip pos < s.size) : pos ≤ s.skip pos := by
  refine le_skip (Classical.byContradiction fun hn => ?_)
  have : s.size ≤ s.skip pos := size_le_skip (by omega)
  omega

theorem hasAt_length_le {text : Array Char} {cs : List Char} (h : hasAt text pos cs = true)
    (hpos : pos ≤ text.size) : pos + cs.length ≤ text.size := by
  induction cs generalizing pos with
  | nil => simpa using hpos
  | cons c cs ih =>
    simp only [hasAt, Bool.and_eq_true, beq_iff_eq] at h
    have hlt : pos < text.size := (Array.getElem?_eq_some_iff.1 h.1).1
    have := ih h.2 hlt
    rw [List.length_cons]
    omega

theorem lt_size_of_literalAt {l : Literal} (h : s.literalAt pos = some l) : pos < s.size := by
  unfold literalAt at h
  split at h
  · cases h
  · omega

theorem literalAt_length_le {l : Literal} (h : s.literalAt pos = some l) :
    pos + l.chars.length ≤ s.size := by
  have hlt := lt_size_of_literalAt h
  unfold literalAt at h
  split at h
  · cases h
  · have hfit := List.find?_some h
    simp only [fits, Bool.and_eq_true] at hfit
    exact hasAt_length_le hfit.1 (Nat.le_of_lt hlt)

theorem lt_rawTokenEnd (s : Session) (pos : Nat) : pos < s.rawTokenEnd pos :=
  Nat.lt_of_succ_le (Nat.le_max_right _ _)

theorem rawTokenEnd_le (h : pos < s.size) : s.rawTokenEnd pos ≤ s.size := by
  have hfold : ∀ (tokens : NameTable Token) (stop : Nat), stop ≤ s.size →
      tokens.foldl (fun stop x => max stop ((x.2.matchAt s.text pos).getD pos)) stop ≤ s.size := by
    intro tokens
    induction tokens with
    | nil => exact fun _ hstop => hstop
    | cons t tokens ih =>
      intro stop hstop
      refine ih _ (Nat.max_le.2 ⟨hstop, ?_⟩)
      cases hm : t.2.matchAt s.text pos with
      | none => exact Nat.le_of_lt h
      | some q => exact Token.matchAt_le_size hm
  unfold rawTokenEnd
  refine Nat.max_le.2 ⟨hfold _ _ ?_, h⟩
  split
  · rename_i l hl
    exact literalAt_length_le hl
  · exact Nat.le_of_lt h

theorem lt_size_of_rawToken? {t : String} (h : s.rawToken? pos = some t) : pos < s.size := by
  unfold rawToken? at h
  split at h
  · assumption
  · cases h

/-! ## Error regions -/

/-- What one token does for an error region: it is taken in whole, unless it is a token the region
stops before. -/
theorem regionPass_eq_some {depth cursor stop : Nat} {next : Option Nat}
    (h : s.regionPass depth cursor = some (stop, next)) :
    s.skip cursor < s.size ∧ stop = s.rawTokenEnd (s.skip cursor) := by
  unfold regionPass at h
  simp only at h
  split at h
  · cases h
  · rename_i token htoken
    have hlt := lt_size_of_rawToken? htoken
    repeat' split at h
    all_goals cases h
    all_goals exact ⟨hlt, rfl⟩

/-- Every token of an error region ends further on. -/
theorem regionPass_advances {depth cursor stop : Nat} {next : Option Nat}
    (h : s.regionPass depth cursor = some (stop, next)) : cursor < stop ∧ stop ≤ s.size := by
  obtain ⟨hlt, rfl⟩ := regionPass_eq_some h
  have h1 : cursor ≤ s.skip cursor := le_skip_of_lt hlt
  have h2 := lt_rawTokenEnd s (s.skip cursor)
  have h3 := rawTokenEnd_le hlt
  omega

theorem regionEnd_within : ∀ (n depth cursor : Nat), cursor ≤ s.size →
    cursor ≤ s.regionEnd n depth cursor ∧ s.regionEnd n depth cursor ≤ s.size
  | 0, _, cursor, h => ⟨Nat.le_refl _, h⟩
  | n + 1, depth, cursor, h => by
    unfold regionEnd
    split
    · exact ⟨Nat.le_refl _, h⟩
    · rename_i stop hpass
      have := regionPass_advances hpass
      omega
    · rename_i stop depth' hpass
      have hpass := regionPass_advances hpass
      have := regionEnd_within n depth' stop hpass.2
      omega

/-- A region whose first token stands right at its start takes that token in. -/
theorem lt_regionEnd {n : Nat} {token : String} (hskip : s.skip pos = pos)
    (htoken : s.rawToken? pos = some token) (hstop : s.isStop token = false) :
    pos < s.regionEnd (n + 1) 0 pos := by
  unfold regionEnd
  split
  · rename_i hpass
    unfold regionPass at hpass
    simp only [hskip, htoken, hstop, Bool.false_eq_true, and_false, if_false] at hpass
    repeat' split at hpass
    all_goals cases hpass
  · rename_i stop hpass
    exact (regionPass_advances hpass).1
  · rename_i stop depth hpass
    have hpass := regionPass_advances hpass
    have := regionEnd_within (s := s) n depth stop hpass.2
    omega

theorem errorSpan_start {a b : Nat} (h : s.errorSpan pos = some (a, b)) :
    a = s.skip pos ∧ a < s.size := by
  unfold errorSpan at h
  simp only at h
  split at h
  · cases h
  · rename_i token htoken
    split at h
    · cases h
    · cases h
      exact ⟨rfl, lt_size_of_rawToken? htoken⟩

/-- An error region ends past the position it was looked for at, and inside the text. -/
theorem errorSpan_advances {a b : Nat} (h : s.errorSpan pos = some (a, b)) :
    pos ≤ a ∧ a ≤ b ∧ pos < b ∧ b ≤ s.size := by
  obtain ⟨rfl, hlt⟩ := errorSpan_start h
  have hle := le_skip_of_lt hlt
  have hregion := regionEnd_within (s := s) (s.size + 1) 0 (s.skip pos) (Nat.le_of_lt hlt)
  unfold errorSpan at h
  simp only at h
  split at h
  · cases h
  · rename_i token htoken
    split at h
    · cases h
    · rename_i hstop
      cases h
      refine ⟨hle, hregion.1, ?_, hregion.2⟩
      by_cases hskip : s.skip (s.skip pos) = s.skip pos
      · have := lt_regionEnd (n := s.size) hskip htoken (by simpa using hstop)
        omega
      · -- extras are left behind, so some were skipped before the region
        have : s.skip pos ≠ pos := fun he => hskip (by rw [he, he])
        omega

end Session

end LayeredGrammar
