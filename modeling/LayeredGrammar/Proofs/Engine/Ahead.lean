import LayeredGrammar.Proofs.Engine.Scans
import LayeredGrammar.Proofs.Extras

/-!
# Texts whose characters are known

Where the characters ahead of a position are known (`Session.Ahead`), so is what is scanned there.
Extras end where their body refuses the characters ahead (`Session.Ahead.skip_of_rests`), a repetition
of word characters ends where the word does (`Regex.run_loop_word`), and the literals that fit are the
prefixes of the characters ahead, up to the end of a word (`Session.Ahead.fits`).
-/

namespace LayeredGrammar

open Session (hasAt)

/-! ## Regular expressions -/

namespace Regex

variable {mode : Mode} {text : Array Char} {pos : Nat}

/-- Whether an expression matches nothing where the given characters stand in a row. -/
def rejects (mode : Mode) : Regex → List Char → Bool
  | _, [] => false
  | .alt a b, cs => rejects mode a cs && rejects mode b cs
  | .seq (.char d) b, c :: cs => !mode.test (· == d) c || rejects mode b cs
  | r, c :: _ => r.refuses mode c

theorem run_eq_none_of_rejects : ∀ (r : Regex) {cs : List Char} {pos : Nat} (k : Nat → Option Nat),
    hasAt text pos cs = true → r.rejects mode cs = true → run mode text r k pos = none := by
  intro r cs
  fun_induction rejects mode r cs with
  | case1 =>
    intro pos k _ h
    cases h
  | case2 a b cs hcs iha ihb =>
    intro pos k hat h
    rw [Bool.and_eq_true] at h
    rw [run, iha k hat h.1, ihb k hat h.2]
    rfl
  | case3 d b c cs ih =>
    intro pos k hat h
    simp only [hasAt, Bool.and_eq_true, beq_iff_eq] at hat
    simp only [Bool.or_eq_true, Bool.not_eq_true'] at h
    simp only [run, step, hat.1]
    split
    · rename_i hd
      exact ih k hat.2 (h.resolve_left (by simp [hd]))
    · rfl
  | case4 r c cs =>
    intro pos k hat h
    simp only [hasAt, Bool.and_eq_true, beq_iff_eq] at hat
    exact run_eq_none_of_refuses hat.1 r k h

/-- Whether an expression is a repetition that takes in nothing where the given characters stand. -/
def rests (mode : Mode) (cs : List Char) : Regex → Bool
  | .loop body none true => body.rejects mode cs
  | _ => false

theorem run_of_rests {r : Regex} {cs : List Char} (h : r.rests mode cs = true)
    (hat : hasAt text pos cs = true) : run mode text r some pos = some pos := by
  unfold rests at h
  split at h
  · rename_i body
    rw [run_loop_eq, run_eq_none_of_rejects body some hat h]
  · cases h

/-- One word character. -/
def word : Regex := .oneOf false [.category .word]

theorem run_word (hmode : mode.ignoreCase = false) (k : Nat → Option Nat) (pos : Nat) :
    run mode text word k pos = step text Text.isWordChar k pos := by
  show step text _ k pos = _
  congr 1
  funext c
  simp [Mode.test, hmode, ClassItem.has, CharCategory.has]

/-- A repetition of word characters goes to the end of the word. -/
theorem run_loop_word (hmode : mode.ignoreCase = false) {w : List Char}
    (hw : w.all Text.isWordChar = true) (hat : hasAt text pos w = true)
    (hend : wordAt text (pos + w.length) = false) :
    run mode text (.loop word none true) some pos = some (pos + w.length) := by
  induction w generalizing pos with
  | nil =>
    have hnone : run mode text word some pos = none := by
      rw [List.length_nil, Nat.add_zero, wordAt] at hend
      rw [run_word hmode, step]
      cases hc : text[pos]? with
      | none => rfl
      | some c =>
        rw [hc] at hend
        simp only [hend, Bool.false_eq_true, if_false]
    rw [run_loop_eq, hnone]
    rfl
  | cons c w ih =>
    rw [List.all_cons, Bool.and_eq_true] at hw
    simp only [hasAt, Bool.and_eq_true, beq_iff_eq] at hat
    have hsum : pos + (c :: w).length = pos + 1 + w.length := by
      rw [List.length_cons]
      omega
    have hone : run mode text word some pos = some (pos + 1) := by
      rw [run_word hmode, step, hat.1]
      simp only [hw.1, if_true]
    rw [hsum] at hend ⊢
    rw [run_loop_eq, hone]
    simp only [Nat.lt_succ_self, if_true]
    exact ih hw.2 hat.2 hend

end Regex

/-! ## Characters ahead -/

namespace Session

variable {s : Session} {pos : Nat} {c : Char} {cs ds : List Char}

/-- From a position to the end of the text there are just the given characters. -/
def Ahead (s : Session) (pos : Nat) (cs : List Char) : Prop :=
  pos ≤ s.size ∧ s.text.toList.drop pos = cs

theorem ahead_zero : s.Ahead 0 s.text.toList := ⟨Nat.zero_le _, rfl⟩

namespace Ahead

theorem size_eq (h : s.Ahead pos cs) : pos + cs.length = s.size := by
  have hle := h.1
  rw [← h.2, List.length_drop, Array.length_toList]
  unfold size at *
  omega

theorem behind (h : s.Ahead pos (cs ++ ds)) : s.Ahead (pos + cs.length) ds := by
  have hsize := h.size_eq
  rw [List.length_append] at hsize
  refine ⟨by omega, ?_⟩
  rw [← List.drop_drop, h.2, List.drop_left]

theorem getElem? (h : s.Ahead pos (c :: cs)) : s.text[pos]? = some c := by
  rw [← Array.getElem?_toList, ← List.head?_drop, h.2]
  rfl

theorem tail (h : s.Ahead pos (c :: cs)) : s.Ahead (pos + 1) cs :=
  behind (show s.Ahead pos ([c] ++ cs) from h)

/-- The characters at a position are those ahead. -/
theorem hasAt_eq (h : s.Ahead pos cs) (ds : List Char) :
    hasAt s.text pos ds = ds.isPrefixOf cs := by
  induction ds generalizing pos cs with
  | nil => simp [hasAt]
  | cons d ds ih =>
    cases cs with
    | nil =>
      have hnone : s.text[pos]? = none := by
        have hsize := h.size_eq
        rw [Array.getElem?_eq_none_iff]
        simpa [size] using Nat.le_of_eq hsize.symm
      simp [hasAt, hnone]
    | cons c cs =>
      rw [hasAt, h.getElem?, ih h.tail, List.isPrefixOf_cons_cons, BEq.comm]
      rfl

theorem wordAt_eq (h : s.Ahead pos cs) : Regex.wordAt s.text pos = cs.head?.any Text.isWordChar := by
  unfold Regex.wordAt
  cases cs with
  | nil =>
    have hsize := h.size_eq
    rw [Array.getElem?_eq_none (by simpa [size] using Nat.le_of_eq hsize.symm)]
    rfl
  | cons c cs =>
    rw [h.getElem?]
    rfl

theorem slice_eq (h : s.Ahead pos (cs ++ ds)) : s.slice pos (pos + cs.length) = String.ofList cs := by
  unfold slice
  rw [Array.toList_extract, List.extract_eq_take_drop, h.2, Nat.add_sub_cancel_left, List.take_left]

/-! ## Extras -/

theorem skip_blank (hs : s.SkipsBlanks) (h : s.Ahead pos (c :: cs)) (hc : Text.isBlank c = true) :
    s.skip pos = s.skip (pos + 1) :=
  Session.skip_blank hs h.getElem? hc

/-- Extras end where they would rest. -/
theorem skip_of_rests (h : s.Ahead pos cs) (hbegins : ds <+: cs)
    (hrests : s.grammar.extras.regex.rests { acrossLines := true } ds = true) :
    s.skip pos = pos := by
  have hat : hasAt s.text pos ds = true := by
    rw [h.hasAt_eq, List.isPrefixOf_iff_prefix]
    exact hbegins
  have hle : pos ≤ s.text.size := h.1
  unfold skip Extras.skip Regex.matchAt
  rw [Nat.min_eq_left hle, Regex.run_of_rests hrests hat]
  rfl

/-- At the end of the text there is nothing to skip. -/
theorem skip_of_nil (h : s.Ahead pos []) : s.skip pos = pos := by
  have hsize := h.size_eq
  have hle := le_skip h.1
  have hle' := skip_le h.1
  rw [List.length_nil] at hsize
  omega

/-! ## Literals and tokens -/

theorem literalAt_of_nil (h : s.Ahead pos []) : s.literalAt pos = none := by
  have hsize := h.size_eq
  exact if_pos (by simpa using Nat.le_of_eq hsize.symm)

/-- The literals that fit are prefixes of the characters ahead. -/
theorem fits_eq (h : s.Ahead pos cs) (l : Literal) : s.fits pos l =
    (l.chars.isPrefixOf cs &&
      !(l.wordLike && (cs.drop l.chars.length).head?.any Text.isWordChar)) := by
  unfold fits
  rw [h.hasAt_eq]
  cases hbegins : l.chars.isPrefixOf cs with
  | false => rfl
  | true =>
    obtain ⟨ds, rfl⟩ := List.isPrefixOf_iff_prefix.1 hbegins
    rw [h.behind.wordAt_eq, List.drop_left]

theorem literalAt_eq (h : s.Ahead pos cs) (hcs : cs ≠ []) :
    s.literalAt pos = s.table.literals.find? (s.fits pos) := by
  have hsize := h.size_eq
  have hpos := List.length_pos_iff.2 hcs
  exact if_neg (by omega)

/-- A token does not match where its expression refuses the character ahead. -/
theorem matchToken_of_refuses (h : s.Ahead (s.skip pos) (c :: cs)) {t : Token}
    (ht : t.refuses c = true) (name : String) : s.matchToken name t pos = none := by
  unfold matchToken
  simp only [Token.matchAt_eq_none_of_refuses h.getElem? ht]

end Ahead

/-- The match of the literal that stands behind extras. -/
theorem matchLiteral_of_literalAt {value : String}
    (h : s.literalAt (s.skip pos) = some (.ofText value)) :
    s.matchLiteral value pos = some ⟨s.skip pos, s.skip pos + value.length,
      [(.leaf value (s.skip pos) (s.skip pos + value.length) false, [])], 0, true, false⟩ := by
  have hlength : (Literal.ofText value).chars.length = value.length := String.length_toList
  unfold matchLiteral
  simp only [h, hlength]
  exact if_pos rfl

end Session

end LayeredGrammar
