import LayeredGrammar.Proofs.Scanning

/-!
# Skipping once is enough

A repetition that prefers one more round stops only where its body can take in nothing more, so
trying it again where it stopped leads nowhere (`Regex.loop_matchAt_settles`). For extras that are
such a repetition, positions after extras are fixed points of `Session.skip`; and if its body prefers
blanks, a blank in front of extras belongs to them (`Session.skip_blank`).

The engine reads an expression with a continuation, and a continuation that can refuse may send the
reading back to another round count. The step lemma `Regex.rounds_succ_eq` is therefore about
continuations that never refuse: they commute with every reading (`Regex.run_uniform`).
-/

namespace LayeredGrammar

namespace Regex

variable {mode : Mode} {text : Array Char}

/-! ## Continuations that never refuse -/

/-- A computation is uniform if what never refuses can be done after it just as well as inside. -/
def Uniform (run : (Nat → Option Nat) → Nat → Option Nat) : Prop :=
  ∀ f k, (∀ q, (k q).isSome) → ∀ pos, run (fun p => (f p).bind k) pos = (run f pos).bind k

theorem orElse_bind {a b : Option Nat} {k : Nat → Option Nat} (hk : ∀ q, (k q).isSome) :
    (a.bind k <|> b.bind k) = (a <|> b).bind k := by
  cases a with
  | none => rfl
  | some q =>
    obtain ⟨r, hr⟩ := Option.isSome_iff_exists.1 (hk q)
    simp [hr]

theorem step_uniform (has : Char → Bool) : Uniform (step text has) := by
  intro f k hk pos
  unfold step
  split
  · split <;> rfl
  · rfl

theorem rounds_uniform {body : (Nat → Option Nat) → Nat → Option Nat} (hbody : Uniform body)
    (greedy : Bool) (n : Nat) : Uniform (fun k pos => rounds body greedy k n pos) := by
  intro f k hk
  induction n with
  | zero => exact fun pos => rfl
  | succ n ih =>
    intro pos
    have hround : body (fun q => if pos < q then rounds body greedy (fun p => (f p).bind k) n q
          else (f q).bind k) pos =
        (body (fun q => if pos < q then rounds body greedy f n q else f q) pos).bind k := by
      rw [← hbody _ k hk]
      congr 1
      funext q
      split
      · exact ih q
      · rfl
    simp only [rounds]
    rw [hround]
    split
    · exact orElse_bind hk
    · exact orElse_bind hk

/-- Every expression is read uniformly. -/
theorem run_uniform (r : Regex) : Uniform (run mode text r) := by
  induction r with
  | empty => exact fun f k hk pos => rfl
  | char c => exact step_uniform _
  | dot => exact step_uniform _
  | oneOf negated items => exact step_uniform _
  | boundary =>
    intro f k hk pos
    simp only [run]
    split <;> rfl
  | seq a b iha ihb =>
    intro f k hk pos
    have hb : run mode text b (fun p => (f p).bind k) = fun p => (run mode text b f p).bind k :=
      funext (ihb f k hk)
    simp only [run]
    rw [hb]
    exact iha _ k hk pos
  | alt a b iha ihb =>
    intro f k hk pos
    simp only [run]
    rw [iha f k hk, ihb f k hk]
    exact orElse_bind hk
  | loop body most greedy ih => exact fun f k hk pos => rounds_uniform ih greedy _ f k hk pos

/-! ## Repetitions that prefer one more round -/

theorem rounds_isSome (body : (Nat → Option Nat) → Nat → Option Nat) (n pos : Nat) :
    (rounds body true some n pos).isSome := by
  cases n with
  | zero => rfl
  | succ n => simp [rounds]

/-- One round more, if the body matches, and the next ones from there if it took in text. -/
theorem rounds_succ_eq (r : Regex) (n pos : Nat) :
    rounds (run mode text r) true some (n + 1) pos =
      match run mode text r some pos with
      | some q => if pos < q then rounds (run mode text r) true some n q else some q
      | none => some pos := by
  have hk : ∀ q, (if pos < q then rounds (run mode text r) true some n q else some q).isSome := by
    intro q
    split
    · exact rounds_isSome _ n q
    · rfl
  have huniform : Uniform (run mode text r) := run_uniform r
  have hafter := huniform some _ hk pos
  simp only [Option.bind_some] at hafter
  simp only [rounds, if_true]
  rw [hafter]
  cases run mode text r some pos with
  | none => rfl
  | some q =>
    obtain ⟨e, he⟩ := Option.isSome_iff_exists.1 (hk q)
    simp [he]

/-- Where the rounds end, the body takes in nothing more. A round for each character left is
enough. -/
theorem rounds_settle {r : Regex} {n pos e : Nat} (hn : text.size - pos < n)
    (h : rounds (run mode text r) true some n pos = some e) :
    ∀ q, run mode text r some e = some q → q = e := by
  induction n generalizing pos with
  | zero => omega
  | succ n ih =>
    rw [rounds_succ_eq] at h
    cases hq : run mode text r some pos with
    | none =>
      rw [hq] at h
      cases h
      intro q hq'
      rw [hq] at hq'
      cases hq'
    | some p =>
      obtain ⟨_, hle, hle', hp⟩ := run_forward r _ _ _ hq
      cases hp
      simp only [hq] at h
      split at h
      · exact ih (by omega) h
      · have : p = pos := by omega
        cases h
        intro q hq'
        rw [this, hq] at hq'
        cases hq'
        exact this.symm ▸ rfl

/-- **A repetition does not go on where it stopped.** -/
theorem loop_matchAt_settles {r : Regex} {pos e : Nat}
    (h : (loop r none true).matchAt mode text pos = some e) :
    (loop r none true).matchAt mode text e = some e := by
  have he : e ≤ text.size := matchAt_le_size h
  have hsettle : ∀ q, run mode text r some e = some q → q = e :=
    rounds_settle (Nat.lt_succ_self _) h
  unfold matchAt
  rw [Nat.min_eq_left he]
  show rounds (run mode text r) true some (text.size - e + 1) e = some e
  rw [rounds_succ_eq]
  cases hq : run mode text r some e with
  | none => rfl
  | some q =>
    cases hsettle q hq
    simp

/-- A repetition ends by itself. -/
theorem rounds_settled (r : Regex) : ∀ (n m pos : Nat), text.size - pos < n → text.size - pos < m →
    rounds (run mode text r) true some n pos = rounds (run mode text r) true some m pos
  | 0, _, _, hn, _ => by omega
  | _, 0, _, _, hm => by omega
  | n + 1, m + 1, pos, hn, hm => by
    rw [rounds_succ_eq, rounds_succ_eq]
    cases hq : run mode text r some pos with
    | none => rfl
    | some q =>
      obtain ⟨_, _, hle, hq⟩ := run_forward r _ _ _ hq
      cases hq
      simp only
      split
      · exact rounds_settled r n m q (by omega) (by omega)
      · rfl

/-- Where a repetition goes from a position. -/
theorem run_loop_eq (r : Regex) (pos : Nat) : run mode text (.loop r none true) some pos =
    match run mode text r some pos with
    | some q => if pos < q then run mode text (.loop r none true) some q else some q
    | none => some pos := by
  show rounds _ true some (text.size - pos + 1) pos = _
  rw [rounds_succ_eq]
  cases hq : run mode text r some pos with
  | none => rfl
  | some q =>
    obtain ⟨_, _, hle, hq⟩ := run_forward r _ _ _ hq
    cases hq
    simp only
    split
    · exact rounds_settled r _ (text.size - q + 1) q (by omega) (by omega)
    · rfl

/-! ## Repetitions that prefer blanks -/

/-- One blank. -/
def blank : Regex := .oneOf false [.category .blank]

/-- One blank or more. -/
def blanks : Regex := .seq blank (.loop blank none true)

theorem run_blank (hmode : mode.ignoreCase = false) (k : Nat → Option Nat) (pos : Nat) :
    run mode text blank k pos = step text Text.isBlank k pos := by
  show step text _ k pos = _
  congr 1
  funext c
  simp [Mode.test, hmode, ClassItem.has, CharCategory.has]

/-- Blanks that start with one end where the blanks after it do. -/
theorem run_blanks (hmode : mode.ignoreCase = false) {pos : Nat} {c : Char}
    (hc : text[pos]? = some c) (hblank : Text.isBlank c = true) :
    run mode text blanks some pos = run mode text (.loop blank none true) some (pos + 1) := by
  show run mode text blank (run mode text (.loop blank none true) some) pos = _
  rw [run_blank hmode, step, hc]
  simp only [hblank, if_true]

theorem run_loop_blank (hmode : mode.ignoreCase = false) {pos : Nat} {c : Char}
    (hc : text[pos]? = some c) (hblank : Text.isBlank c = true) :
    run mode text (.loop blank none true) some pos =
      run mode text (.loop blank none true) some (pos + 1) := by
  rw [run_loop_eq, run_blank hmode, step, hc]
  simp [hblank]

/-- A repetition whose body prefers blanks goes where it would go from behind a first blank. -/
theorem loop_blanks_absorbs (hmode : mode.ignoreCase = false) (other : Regex) {pos : Nat} {c : Char}
    (hc : text[pos]? = some c) (hblank : Text.isBlank c = true) :
    run mode text (.loop (.alt blanks other) none true) some pos =
      run mode text (.loop (.alt blanks other) none true) some (pos + 1) := by
  -- blanks are taken in up to some position `e`
  obtain ⟨e, he⟩ := Option.isSome_iff_exists.1
    (rounds_isSome (run mode text blank) (text.size - (pos + 1) + 1) (pos + 1))
  have he : run mode text (.loop blank none true) some (pos + 1) = some e := he
  have hbody : ∀ {p : Nat}, run mode text blanks some p = some e →
      run mode text (.alt blanks other) some p = some e := by
    intro p hp
    simp [run, hp]
  have hle : pos + 1 ≤ e := by
    obtain ⟨_, hle, _, hq⟩ := run_forward _ _ _ _ he
    cases hq
    exact hle
  have hfirst : run mode text (.loop (.alt blanks other) none true) some pos =
      run mode text (.loop (.alt blanks other) none true) some e := by
    rw [run_loop_eq, hbody ((run_blanks hmode hc hblank).trans he)]
    exact if_pos (by omega)
  rw [hfirst]
  rcases Nat.lt_or_eq_of_le hle with hlt | rfl
  · -- a second blank follows
    have hnext : ∃ c', text[pos + 1]? = some c' ∧ Text.isBlank c' = true := by
      rw [run_loop_eq, run_blank hmode, step] at he
      cases hc' : text[pos + 1]? with
      | none =>
        rw [hc'] at he
        cases he
        omega
      | some c' =>
        refine ⟨c', rfl, Classical.byContradiction fun hno => ?_⟩
        rw [hc'] at he
        simp only [hno] at he
        cases he
        omega
    obtain ⟨c', hc', hblank'⟩ := hnext
    have hsecond := (run_blanks hmode hc' hblank').trans
      ((run_loop_blank hmode hc' hblank').symm.trans he)
    rw [run_loop_eq _ (pos + 1), hbody hsecond]
    exact (if_pos hlt).symm
  · rfl

/-- The other choice of a repetition that prefers blanks. -/
def besidesBlanks? : Regex → Option Regex
  | .loop (.alt first other) none true => if first = blanks then some other else none
  | _ => none

theorem eq_of_besidesBlanks? {r other : Regex} (h : r.besidesBlanks? = some other) :
    r = .loop (.alt blanks other) none true := by
  unfold besidesBlanks? at h
  split at h
  · split at h
    · rename_i hfirst
      cases h
      rw [hfirst]
    · cases h
  · cases h

end Regex

namespace Session

variable {s : Session}

/-- Extras that were skipped leave no extras behind. -/
theorem skip_skip {r : Regex} (h : s.grammar.extras.regex = .loop r none true) (pos : Nat) :
    s.skip (s.skip pos) = s.skip pos := by
  unfold skip Extras.skip
  rw [h]
  cases hm : (Regex.loop r none true).matchAt { acrossLines := true } s.text pos with
  | none => simp [hm]
  | some e => simp [Regex.loop_matchAt_settles hm]

/-- A session whose extras are a repetition that prefers blanks. -/
def SkipsBlanks (s : Session) : Prop :=
  ∃ other, s.grammar.extras.regex = .loop (.alt .blanks other) none true

/-- A blank in front of extras belongs to them. -/
theorem skip_blank (hs : s.SkipsBlanks) {pos : Nat} {c : Char} (hc : s.text[pos]? = some c)
    (hblank : Text.isBlank c = true) : s.skip pos = s.skip (pos + 1) := by
  obtain ⟨other, hregex⟩ := hs
  have hlt : pos < s.text.size := (Array.getElem?_eq_some_iff.1 hc).1
  have habsorbs : Regex.run { acrossLines := true } s.text (.loop (.alt .blanks other) none true) some
      pos = Regex.run { acrossLines := true } s.text (.loop (.alt .blanks other) none true) some
      (pos + 1) := Regex.loop_blanks_absorbs rfl other hc hblank
  obtain ⟨e, he⟩ := Option.isSome_iff_exists.1 (Regex.rounds_isSome
    (Regex.run { acrossLines := true } s.text (.alt .blanks other)) (s.text.size - pos + 1) pos)
  have he : Regex.run { acrossLines := true } s.text (.loop (.alt .blanks other) none true) some
    pos = some e := he
  unfold skip Extras.skip Regex.matchAt
  rw [hregex, Nat.min_eq_left (Nat.le_of_lt hlt), Nat.min_eq_left hlt, ← habsorbs, he]
  rfl

/-- Where extras leave no extras behind, an error region holds its first token. -/
theorem errorSpan_lt (hskip : ∀ pos, s.skip (s.skip pos) = s.skip pos) {pos a b : Nat}
    (h : s.errorSpan pos = some (a, b)) : a < b := by
  unfold errorSpan at h
  simp only at h
  split at h
  · cases h
  · rename_i token htoken
    split at h
    · cases h
    · rename_i hstop
      cases h
      exact lt_regionEnd (hskip pos) htoken (by simpa using hstop)

end Session

end LayeredGrammar
