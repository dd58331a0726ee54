import Mathlib.Order.Nat
import LayeredGrammar.Proofs.Engine.Scans
import LayeredGrammar.Proofs.ErrorRegions

/-!
# Blanks and comments

What is skipped between tokens is given by an expression, which by default means blanks, line
comments and block comments. `Extra` says what one of these is without any expression, and `Scans` is
the scanner that takes in one after the other as long as there is one.

* `Session.skip_scans_extras` — skipping leads to where the scanner ends, and what follows from that:
  it stays inside the text, has nothing left to skip, and stops in front of no blank and no whole
  comment.

The step is `Regex.run_extras_of_extra`: what stands behind a blank or a comment is skipped as if it
stood there alone. Nothing has to follow a repetition of extras, so it never takes a round back, and
it is enough to know where a round first ends. The rest of a line is taken in as far as it goes
(`Regex.run_loop_test`), the inside of a block comment only up to the first end (`Regex.rounds_lazy`).
The run is `Regex.run_extras_of_scans`.
-/

namespace LayeredGrammar

open Session (hasAt)

/-! ## A plain scanner -/

/-- A blank or a comment starts at one position and ends at another. -/
inductive Extra (text : Array Char) (pos : Nat) : Nat → Prop
  /-- A blank. -/
  | blank {c : Char} (hc : text[pos]? = some c) (hblank : Text.isBlank c = true) :
    Extra text pos (pos + 1)
  /-- Two slashes, and what follows them up to the end of the line or of the text. -/
  | line {stop : Nat} (hopen : hasAt text pos ['/', '/'] = true)
    (hstop : IsLeast {i | pos + 2 ≤ i ∧ (text[i]? = some '\n' ∨ i = text.size)} stop) :
    Extra text pos stop
  /-- A slash and a star, and what follows them up to the first star and slash behind both. -/
  | block {close : Nat} (hopen : hasAt text pos ['/', '*'] = true)
    (hclose : IsLeast {i | pos + 2 ≤ i ∧ hasAt text i ['*', '/'] = true} close) :
    Extra text pos (close + 2)

/-- A scanner gets from one position to another that takes in blanks and comments, one after the
other, as long as there is one. -/
inductive Scans (text : Array Char) : Nat → Nat → Prop
  | done {pos : Nat} (hnone : ∀ stop, ¬Extra text pos stop) : Scans text pos pos
  | next {pos mid stop : Nat} (h : Extra text pos mid) (hrest : Scans text mid stop) :
    Scans text pos stop

variable {text : Array Char} {pos stop : Nat}

theorem hasAt_pair {a b : Char} :
    hasAt text pos [a, b] = true ↔ text[pos]? = some a ∧ text[pos + 1]? = some b := by
  simp [hasAt]

theorem le_size_of_hasAt_pair {a b : Char} (h : hasAt text pos [a, b] = true) :
    pos + 2 ≤ text.size :=
  (Array.getElem?_eq_some_iff.1 (hasAt_pair.1 h).2).1

/-- A comment starts with a slash, which is no blank. -/
theorem isBlank_of_comment {c d : Char} (h : hasAt text pos ['/', d] = true)
    (hc : text[pos]? = some c) : Text.isBlank c = false := by
  rw [(hasAt_pair.1 h).1, Option.some.injEq] at hc
  subst hc
  decide

/-- Where a block comment starts, no line comment does. -/
theorem not_line_of_block (h : hasAt text pos ['/', '*'] = true) :
    hasAt text pos ['/', '/'] = false := by
  simp [hasAt, hasAt_pair.1 h]

theorem Extra.bounds (h : Extra text pos stop) : pos < stop ∧ stop ≤ text.size := by
  cases h with
  | blank hc => exact ⟨Nat.lt_succ_self _, (Array.getElem?_eq_some_iff.1 hc).1⟩
  | line hopen hstop =>
    have hle : pos + 2 ≤ stop := hstop.1.1
    exact ⟨by omega, hstop.2 ⟨le_size_of_hasAt_pair hopen, .inr rfl⟩⟩
  | @block close hopen hclose =>
    have hle : pos + 2 ≤ close := hclose.1.1
    exact ⟨by omega, le_size_of_hasAt_pair hclose.1.2⟩

/-- Neither a blank nor a comment starts at a position: a line comment would always have an end, a
block comment need not have one. -/
theorem not_extra_iff : (∀ stop, ¬Extra text pos stop) ↔
    (∀ c ∈ text[pos]?, Text.isBlank c = false) ∧ hasAt text pos ['/', '/'] = false ∧
      (hasAt text pos ['/', '*'] = true →
        ∀ i, pos + 2 ≤ i → hasAt text i ['*', '/'] = false) := by
  classical
  constructor
  · intro hnone
    refine ⟨fun c hc => ?_, ?_, fun hopen i hi => ?_⟩
    · exact Bool.eq_false_iff.2 fun hblank => hnone _ (.blank hc hblank)
    · refine Bool.eq_false_iff.2 fun hopen => hnone _ (.line hopen (Nat.isLeast_find ?_))
      exact ⟨text.size, le_size_of_hasAt_pair hopen, .inr rfl⟩
    · refine Bool.eq_false_iff.2 fun hclose => hnone _ (.block hopen (Nat.isLeast_find ?_))
      exact ⟨i, hi, hclose⟩
  · rintro ⟨hblank, hline, hblock⟩ stop h
    cases h with
    | blank hc hb => exact absurd hb (by simp [hblank _ hc])
    | line hopen => exact absurd hopen (by simp [hline])
    | block hopen hclose => exact absurd hclose.1.2 (by simp [hblock hopen _ hclose.1.1])

/-- The scanner ends. -/
theorem exists_scans (pos : Nat) : ∃ stop, Scans text pos stop := by
  by_cases h : ∃ mid, Extra text pos mid
  · obtain ⟨mid, hmid⟩ := h
    have hbounds := hmid.bounds
    obtain ⟨stop, hstop⟩ := exists_scans mid
    exact ⟨stop, .next hmid hstop⟩
  · exact ⟨pos, .done (not_exists.1 h)⟩
termination_by text.size - pos

theorem Scans.rests (h : Scans text pos stop) : ∀ next, ¬Extra text stop next := by
  induction h with
  | done hnone => exact hnone
  | next _ _ ih => exact ih

/-! ## The expression -/

theorem ClassItem.has_range_self (c d : Char) : (ClassItem.range d d).has c = (c == d) := by
  rw [ClassItem.has, Bool.eq_iff_iff, Bool.and_eq_true, decide_eq_true_iff, decide_eq_true_iff,
    beq_iff_eq, ← Char.toNat_inj]
  omega

namespace Regex

variable {mode : Mode}

/-- What is left of a line. -/
def restOfLine : Regex := .loop (.oneOf true [.range '\n' '\n']) none true

/-- Two slashes and what is left of the line. -/
def lineComment : Regex := .seq (.char '/') (.seq (.char '/') restOfLine)

/-- The end of a block comment. -/
def commentEnd : Regex := .seq (.char '*') (.char '/')

/-- A slash and a star, and as little as possible up to the end of a comment. -/
def blockComment : Regex :=
  .seq (.char '/') (.seq (.char '*') (.seq (.loop .dot none false) commentEnd))

/-- Blanks and comments. -/
def extras : Regex := .loop (.alt .blanks (.alt lineComment blockComment)) none true

/-- The expression that every grammar has by default. -/
theorem read_extras : read? ({} : Settings).extras = some extras := by decide +kernel

theorem run_pair (hcase : mode.ignoreCase = false) (a b : Char) (k : Nat → Option Nat)
    (pos : Nat) :
    run mode text (.char a) (run mode text (.char b) k) pos =
      if hasAt text pos [a, b] then k (pos + 2) else none := by
  have hchar : ∀ (c : Char) (k : Nat → Option Nat) (pos : Nat),
      run mode text (.char c) k pos = if text[pos]? = some c then k (pos + 1) else none := by
    intro c k pos
    simp only [run, step]
    cases text[pos]? <;> simp [Mode.test, hcase]
  rw [hchar, hchar]
  by_cases ha : text[pos]? = some a <;> simp [hasAt, ha]

theorem run_lineComment (hcase : mode.ignoreCase = false) (k : Nat → Option Nat) (pos : Nat) :
    run mode text lineComment k pos =
      if hasAt text pos ['/', '/'] then run mode text restOfLine k (pos + 2) else none :=
  run_pair hcase ..

theorem run_blockComment (hcase : mode.ignoreCase = false) (k : Nat → Option Nat) (pos : Nat) :
    run mode text blockComment k pos = if hasAt text pos ['/', '*'] then
      run mode text (.loop .dot none false) (run mode text commentEnd k) (pos + 2) else none :=
  run_pair hcase ..

theorem run_commentEnd (hcase : mode.ignoreCase = false) (k : Nat → Option Nat) (pos : Nat) :
    run mode text commentEnd k pos = if hasAt text pos ['*', '/'] then k (pos + 2) else none :=
  run_pair hcase ..

/-! ## Where rounds end -/

/-- A round that takes in something is followed by the others. -/
theorem run_loop_of_round {r : Regex} (h : run mode text r some pos = some stop)
    (hlt : pos < stop) :
    run mode text (.loop r none true) some pos = run mode text (.loop r none true) some stop := by
  rw [run_loop_eq, h]
  exact if_pos hlt

/-- A repetition of single characters ends at the first one that fails the test, or with the text. -/
theorem run_loop_test {r : Regex} {has : Char → Bool}
    (hr : ∀ pos, run mode text r some pos = step text has some pos) (hpos : pos ≤ text.size)
    (h : IsLeast {i | pos ≤ i ∧ ((∃ c, text[i]? = some c ∧ has c = false) ∨ i = text.size)}
      stop) :
    run mode text (.loop r none true) some pos = some stop := by
  have hle : stop ≤ text.size := h.2 ⟨hpos, .inr rfl⟩
  obtain ⟨n, hn⟩ : ∃ n, stop - pos = n := ⟨_, rfl⟩
  induction n generalizing pos with
  | zero =>
    obtain rfl : pos = stop := Nat.le_antisymm h.1.1 (by omega)
    rw [run_loop_eq, hr, step]
    obtain ⟨c, hc, hfails⟩ | hend := h.1.2
    · simp [hc, hfails]
    · simp [hend]
  | succ n ih =>
    -- the character here passes, or it would be the first one that fails
    have hlt : pos < text.size := by omega
    have hpass : has text[pos] = true := by
      refine eq_true_of_ne_false fun hfails => ?_
      have hfirst : stop ≤ pos :=
        h.2 ⟨Nat.le_refl _, .inl ⟨_, Array.getElem?_eq_getElem hlt, hfails⟩⟩
      omega
    have hnext : run mode text r some pos = some (pos + 1) := by
      rw [hr, step, Array.getElem?_eq_getElem hlt]
      exact if_pos hpass
    rw [run_loop_of_round hnext (Nat.lt_succ_self _)]
    refine ih hlt ⟨⟨?_, h.1.2⟩, fun i hi => h.2 ⟨Nat.le_of_succ_le hi.1, hi.2⟩⟩ ?_
    · omega
    · omega

/-- A lazy repetition of any characters ends at the first position from which the rest matches. -/
theorem rounds_lazy {body : (Nat → Option Nat) → Nat → Option Nat}
    (hbody : ∀ k pos, pos < text.size → body k pos = k (pos + 1)) {k : Nat → Option Nat}
    {n p q : Nat} (hle : p ≤ text.size) (hn : p ≤ pos + n) (hq : k p = some q) (hp : pos ≤ p)
    (hfirst : ∀ i, pos ≤ i → i < p → k i = none) : rounds body false k n pos = some q := by
  induction n generalizing pos with
  | zero =>
    obtain rfl : pos = p := by omega
    exact hq
  | succ n ih =>
    simp only [rounds, Bool.false_eq_true, if_false]
    rcases Nat.lt_or_eq_of_le hp with hlt | rfl
    · rw [hfirst pos (Nat.le_refl _) hlt, hbody _ _ (by omega), if_pos (Nat.lt_succ_self _)]
      exact ih (by omega) hlt fun i hi => hfirst i (by omega)
    · rw [hq]
      rfl

section Skipping

variable (hcase : mode.ignoreCase = false) (hlines : mode.acrossLines = true)
include hcase

theorem run_blanks_eq_none (h : ∀ c ∈ text[pos]?, Text.isBlank c = false) :
    run mode text blanks some pos = none := by
  show run mode text blank _ pos = none
  rw [run_blank hcase, step]
  cases hc : text[pos]? with
  | none => rfl
  | some c => simp [h c hc]

theorem run_lineComment_eq (hopen : hasAt text pos ['/', '/'] = true)
    (hstop : IsLeast {i | pos + 2 ≤ i ∧ (text[i]? = some '\n' ∨ i = text.size)} stop) :
    run mode text lineComment some pos = some stop := by
  have htest : ∀ p, run mode text (.oneOf true [.range '\n' '\n']) some p =
      step text (· != '\n') some p := by
    intro p
    show step text _ some p = _
    congr 1
    funext c
    simp [Mode.test, hcase, ClassItem.has_range_self, bne]
  rw [run_lineComment hcase, if_pos hopen]
  refine run_loop_test htest (le_size_of_hasAt_pair hopen) ?_
  simpa using hstop

theorem run_blockComment_eq_none
    (h : hasAt text pos ['/', '*'] = true → ∀ i, pos + 2 ≤ i → hasAt text i ['*', '/'] = false) :
    run mode text blockComment some pos = none := by
  rw [run_blockComment hcase]
  split
  · rename_i hopen
    refine Option.eq_none_iff_forall_ne_some.2 fun q hq => ?_
    -- wherever the inside ends, there is no end of the comment
    obtain ⟨i, hi, _, hend⟩ := run_forward _ _ _ _ hq
    rw [run_commentEnd hcase, h hopen i hi] at hend
    cases hend
  · rfl

include hlines in
theorem run_blockComment_eq (hopen : hasAt text pos ['/', '*'] = true) {close : Nat}
    (hclose : IsLeast {i | pos + 2 ≤ i ∧ hasAt text i ['*', '/'] = true} close) :
    run mode text blockComment some pos = some (close + 2) := by
  have hany : ∀ k p, p < text.size → run mode text .dot k p = k (p + 1) := by
    intro k p hp
    rw [run, step, Array.getElem?_eq_getElem hp]
    simp [hlines]
  have hle : close + 2 ≤ text.size := le_size_of_hasAt_pair hclose.1.2
  have hend : run mode text commentEnd some close = some (close + 2) := by
    rw [run_commentEnd hcase, if_pos hclose.1.2]
  have hfirst : ∀ i, pos + 2 ≤ i → i < close → run mode text commentEnd some i = none := by
    intro i hi hlt
    rw [run_commentEnd hcase, if_neg fun hi' => ?_]
    exact absurd (hclose.2 ⟨hi, hi'⟩) (by omega)
  rw [run_blockComment hcase, if_pos hopen]
  refine rounds_lazy hany (by omega) ?_ hend hclose.1.1 hfirst
  rw [Option.getD_none]
  omega

/-! ## The scanner and the expression -/

/-- Where neither a blank nor a comment stands, nothing is skipped. -/
theorem run_extras_of_none (hnone : ∀ stop, ¬Extra text pos stop) :
    run mode text extras some pos = some pos := by
  obtain ⟨hblank, hline, hblock⟩ := not_extra_iff.1 hnone
  have hbody : run mode text (.alt .blanks (.alt lineComment blockComment)) some pos = none := by
    rw [run, run, run_blanks_eq_none hcase hblank, run_lineComment hcase, hline,
      run_blockComment_eq_none hcase hblock]
    rfl
  rw [extras, run_loop_eq, hbody]

include hlines

/-- **A blank or a comment is skipped, and then what stands behind it.** -/
theorem run_extras_of_extra (h : Extra text pos stop) :
    run mode text extras some pos = run mode text extras some stop := by
  have hlt := h.bounds.1
  cases h with
  | blank hc hblank =>
    -- a round takes in all the blanks in a row, and so it does without the first
    exact loop_blanks_absorbs hcase _ hc hblank
  | line hopen hstop =>
    refine run_loop_of_round ?_ hlt
    rw [run, run, run_blanks_eq_none hcase fun c hc => isBlank_of_comment hopen hc,
      run_lineComment_eq hcase hopen hstop]
    rfl
  | block hopen hclose =>
    refine run_loop_of_round ?_ hlt
    rw [run, run, run_blanks_eq_none hcase fun c hc => isBlank_of_comment hopen hc,
      run_lineComment hcase, not_line_of_block hopen, run_blockComment_eq hcase hlines hopen hclose]
    rfl

/-- The expression matches what the scanner takes in. -/
theorem run_extras_of_scans (h : Scans text pos stop) :
    run mode text extras some pos = some stop := by
  induction h with
  | done hnone => exact run_extras_of_none hcase hnone
  | next h _ ih => rw [run_extras_of_extra hcase hlines h, ih]

end Skipping

end Regex

/-! ## Skipping -/

theorem ParseTable.regex_extras {layers : List Layer} {t : ParseTable}
    (ht : (ParseTable.ofLayers layers).outcome = .ok t)
    (hextras : (Settings.ofLayers layers).extras = ({} : Settings).extras) :
    t.grammar.extras.regex = .extras := by
  have hreads := ParseTable.read_extras ht
  rw [hextras, Regex.read_extras] at hreads
  exact (Option.some.inj hreads).symm

namespace Session

variable {s : Session}

theorem skip_of_scans (hs : s.grammar.extras.regex = .extras) (hpos : pos ≤ s.size)
    (h : Scans s.text pos stop) : s.skip pos = stop := by
  have hmin : min pos s.text.size = pos := Nat.min_eq_left hpos
  unfold skip Extras.skip Regex.matchAt
  rw [hs, hmin, Regex.run_extras_of_scans rfl rfl h]
  rfl

theorem scans_skip (hs : s.grammar.extras.regex = .extras) (hpos : pos ≤ s.size) :
    Scans s.text pos (s.skip pos) := by
  obtain ⟨stop, h⟩ : ∃ stop, Scans s.text pos stop := exists_scans pos
  rwa [skip_of_scans hs hpos h]

/-- A block comment that does not end is not skipped. -/
theorem skip_of_unclosed (hs : s.grammar.extras.regex = .extras)
    (hopen : hasAt s.text pos ['/', '*'] = true)
    (hunclosed : ∀ i, pos + 2 ≤ i → hasAt s.text i ['*', '/'] = false) : s.skip pos = pos := by
  have hle : pos + 2 ≤ s.size := le_size_of_hasAt_pair hopen
  refine skip_of_scans hs (by omega) (.done (not_extra_iff.2 ⟨?_, ?_, fun _ => hunclosed⟩))
  · exact fun c hc => isBlank_of_comment hopen hc
  · exact not_line_of_block hopen

/-- **Skipping takes in blanks and comments, one after the other, and nothing else.** For every
grammar that builds with the extras every grammar has by default, skipping leads to just where the
scanner ends that takes in a blank, a line comment or a block comment as long as there is one; a block
comment that does not end is not skipped. So skipping stays inside the text, skips nothing more when
it is done again, and neither a blank nor a whole comment starts where it ends. -/
theorem skip_scans_extras {layers : List Layer} (s : Session)
    (htable : (ParseTable.ofLayers layers).outcome = .ok s.table)
    (hextras : (Settings.ofLayers layers).extras = ({} : Settings).extras) {pos : Nat}
    (hpos : pos ≤ s.size) :
    (∀ stop, s.skip pos = stop ↔ Scans s.text pos stop) ∧
    (∀ p, hasAt s.text p ['/', '*'] = true →
      (∀ i, p + 2 ≤ i → hasAt s.text i ['*', '/'] = false) → s.skip p = p) ∧
    (pos ≤ s.skip pos ∧ s.skip pos ≤ s.size) ∧
    s.skip (s.skip pos) = s.skip pos ∧
    (∀ c ∈ s.text[s.skip pos]?, Text.isBlank c = false) ∧
    hasAt s.text (s.skip pos) ['/', '/'] = false ∧
    (hasAt s.text (s.skip pos) ['/', '*'] = true →
      ∀ i, s.skip pos + 2 ≤ i → hasAt s.text i ['*', '/'] = false) := by
  have hs : s.grammar.extras.regex = .extras := ParseTable.regex_extras htable hextras
  have hscans : Scans s.text pos (s.skip pos) := scans_skip hs hpos
  refine ⟨fun stop => ⟨fun h => h ▸ hscans, skip_of_scans hs hpos⟩,
    fun p => skip_of_unclosed hs, ⟨le_skip hpos, skip_le hpos⟩, ?_, not_extra_iff.1 hscans.rests⟩
  exact skip_of_scans hs (skip_le hpos) (.done hscans.rests)

/-- A grammar of one word. -/
def spacedLayer : Layer where
  name := "Spaced"
  start := some (some "word")
  word := some none
  members := [("word", .rule none (.lit "x"))]

/-- A star does not start and end a comment at once, a comment inside another one is none, and the
last one here does not end. -/
theorem skip_scans_extras_nested : ∃ s : Session,
    (ParseTable.ofLayers [spacedLayer]).outcome = .ok s.table ∧
    (Settings.ofLayers [spacedLayer]).extras = ({} : Settings).extras ∧
    s.text = "/*/ // */ \n// /* x\n/*/".toList.toArray ∧ 0 ≤ s.size ∧
    s.skip 0 = 19 ∧ Scans s.text 0 19 ∧ hasAt s.text 19 ['/', '*'] = true ∧
    ∀ i, 21 ≤ i → hasAt s.text i ['*', '/'] = false := by
  have hrun : ((ParseTable.ofLayers [spacedLayer]).outcome.toOption.any fun table =>
      let s : Session := ⟨table, true, "/*/ // */ \n// /* x\n/*/".toList.toArray⟩
      decide (s.skip 0 = 19 ∧ hasAt s.text 19 ['/', '*'] = true)) = true := by
    decide +kernel
  obtain ⟨table, htable, hrun⟩ := Traced.exists_of_any hrun
  obtain ⟨hskip, hopen⟩ := of_decide_eq_true hrun
  obtain ⟨hscans, _, _, _, _, _, hunclosed⟩ := skip_scans_extras
    ⟨table, true, "/*/ // */ \n// /* x\n/*/".toList.toArray⟩ htable rfl (Nat.zero_le _)
  rw [hskip] at hunclosed
  exact ⟨_, htable, rfl, rfl, Nat.zero_le _, hskip, (hscans 19).1 hskip, hopen, hunclosed hopen⟩

end Session

end LayeredGrammar
