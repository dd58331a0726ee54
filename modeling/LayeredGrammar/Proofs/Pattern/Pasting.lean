import LayeredGrammar.Regex.Reader

/-!
# Pasting expressions together

An expression is put together from texts before it is read. The marks of a text are the same with more
text behind it, if that starts with a backslash or a closing parenthesis, with which no mark goes on
(`Regex.marks_append`).

Marks are read one after another (`Regex.afterMark`), and open groups below the present one play no part
in that (`Regex.foldlM_afterMark_outer`).
-/

namespace LayeredGrammar.Regex

/-! ## Marks of texts in a row -/

/-- A text that starts a new mark wherever it is put. -/
def Seals (tail : List Char) : Prop := tail.head? = some '\\' ∨ tail.head? = some ')'

theorem Seals.exists_cons {tail : List Char} (h : Seals tail) : ∃ c rest, tail = c :: rest ∧
    c.isDigit = false ∧ c ≠ '?' ∧ c ≠ ',' ∧ c ≠ '}' := by
  cases tail with
  | nil => rcases h with h | h <;> cases h
  | cons c rest =>
    refine ⟨c, rest, rfl, ?_⟩
    rcases h with h | h <;> cases h <;> decide

/-- Whether an escape is a number is seen on what is behind it. -/
theorem isNumber_append {rest tail : List Char}
    (h : rest = [] → ∀ d ∈ tail.head?, d.isDigit = false) (c : Char) :
    isNumber c (rest ++ tail) = isNumber c rest := by
  cases rest with
  | nil =>
    cases tail with
    | nil => rfl
    | cons d tail => simp [isNumber, h rfl d rfl]
  | cons => rfl

theorem classAtoms_append {first : Bool} {cs : List Char} {r : List ClassAtom × List Char}
    (h : classAtoms first cs = some r) (tail : List Char) :
    classAtoms first (cs ++ tail) = some (r.1, r.2 ++ tail) := by
  fun_induction classAtoms first cs generalizing r with
  | case1 => cases h
  | case2 rest ih =>
    obtain ⟨q, hq, rfl⟩ := Option.map_eq_some_iff.1 h
    simp [classAtoms, ih hq]
  | case3 _ _ hfirst =>
    cases h
    simp [classAtoms, hfirst]
  | case4 _ c rest ih =>
    obtain ⟨q, hq, rfl⟩ := Option.map_eq_some_iff.1 h
    have hrest : rest ≠ [] := by
      rintro rfl
      cases hq
    simp [classAtoms, ih hq, isNumber_append fun hnil => absurd hnil hrest]
  | case5 _ rest ih =>
    obtain ⟨q, hq, rfl⟩ := Option.map_eq_some_iff.1 h
    simp [classAtoms, ih hq]
  | case6 _ c rest hclose hescape hdash ih =>
    obtain ⟨q, hq, rfl⟩ := Option.map_eq_some_iff.1 h
    -- a class does not end behind this character, so a backslash would have been an escape
    cases rest with
    | nil => cases hq
    | cons d rest =>
      rw [List.cons_append, classAtoms]
      · rw [ih hq]
        rfl
      · exact hclose
      · exact fun _ _ hc _ => hescape d rest hc rfl
      · exact hdash

theorem readClass_append {cs more : List Char} {r : Regex} (h : readClass cs = some (r, more))
    (tail : List Char) : readClass (cs ++ tail) = some (r, more ++ tail) := by
  have hbody : ∀ {body : List Char} {negated : Bool}, ((classAtoms true body).bind fun q =>
      (classItems q.1).map fun items => (Regex.oneOf negated items, q.2)) = some (r, more) →
      ((classAtoms true (body ++ tail)).bind fun q =>
        (classItems q.1).map fun items => (Regex.oneOf negated items, q.2)) =
          some (r, more ++ tail) := by
    intro body negated h
    obtain ⟨q, hq, h⟩ := Option.bind_eq_some_iff.1 h
    obtain ⟨items, hitems, heq⟩ := Option.map_eq_some_iff.1 h
    cases heq
    rw [classAtoms_append hq tail, Option.bind_some, hitems]
    rfl
  cases cs with
  | nil => cases h
  | cons c cs =>
    by_cases hc : c = '^'
    · subst hc
      exact hbody h
    · have hplain : ∀ cs, readClass (c :: cs) = (classAtoms true (c :: cs)).bind fun q =>
          (classItems q.1).map fun items => (Regex.oneOf false items, q.2) := by
        intro cs
        simp [readClass, hc]
      rw [hplain] at h
      exact (hplain (cs ++ tail)).trans (hbody h)

/-- The digits that a text starts with end where it does, if no digit follows. -/
theorem digits_append {tail : List Char} {c : Char} {rest : List Char} (ht : tail = c :: rest)
    (hc : c.isDigit = false) (cs : List Char) :
    (cs ++ tail).takeWhile Char.isDigit = cs.takeWhile Char.isDigit ∧
      (cs ++ tail).dropWhile Char.isDigit = cs.dropWhile Char.isDigit ++ tail := by
  subst ht
  induction cs with
  | nil => simp [hc]
  | cons d cs ih =>
    cases hd : d.isDigit with
    | true => simp [hd, ih.1, ih.2]
    | false => simp [hd]

theorem readBounds_append {tail : List Char} (ht : Seals tail) (cs : List Char) :
    readBounds (cs ++ tail) = (readBounds cs).map fun b => (b.1, b.2.1, b.2.2 ++ tail) := by
  obtain ⟨c, rest, htail, hdigit, _, hcomma, hbrace⟩ := ht.exists_cons
  have hdigits := digits_append htail hdigit
  unfold readBounds
  simp only [(hdigits cs).1, (hdigits cs).2]
  cases cs.dropWhile Char.isDigit with
  | nil => simp [htail, hcomma, hbrace]
  | cons d more =>
    by_cases hd : d = '}'
    · subst hd
      simp [Option.map_map, Function.comp_def]
    · by_cases hd' : d = ','
      · subst hd'
        simp only [List.cons_append, (hdigits more).1, (hdigits more).2]
        cases more.dropWhile Char.isDigit with
        | nil => simp [htail, hbrace]
        | cons e more =>
          by_cases he : e = '}'
          · subst he
            simp
          · simp [he]
      · simp [hd, hd']

theorem quantified_append {tail : List Char} (ht : Seals tail) (least : Nat) (most : Option Nat)
    (cs : List Char) : quantified least most (cs ++ tail) =
      ((quantified least most cs).1, (quantified least most cs).2 ++ tail) := by
  obtain ⟨c, rest, rfl, _, hlazy, _⟩ := ht.exists_cons
  cases cs with
  | nil => simp [quantified, hlazy]
  | cons d cs =>
    by_cases hd : d = '?'
    · subst hd
      simp [quantified]
    · simp [quantified, hd]

theorem firstMark_append {tail : List Char} (ht : Seals tail) {c : Char} {rest : List Char}
    (h : (firstMark c rest).1 ≠ .unknown) : firstMark c (rest ++ tail) =
      ((firstMark c rest).1, (firstMark c rest).2 ++ tail) := by
  unfold firstMark at h ⊢
  split at h
  case h_2 =>
    obtain ⟨t, ts, rfl, _, hopen, _⟩ := ht.exists_cons
    cases rest with
    | nil => simp [hopen]
    | cons d more =>
      by_cases hd : d = '?'
      · subst hd
        cases more with
        | nil => exact absurd rfl h
        | cons e more =>
          by_cases he : e = ':'
          · subst he
            rfl
          · exact absurd (by simp [he]) h
      · simp [hd]
  case h_7 =>
    cases hclass : readClass rest with
    | none =>
      rw [hclass] at h
      exact absurd rfl h
    | some read => simp only [readClass_append hclass tail]
  case h_8 =>
    cases rest with
    | nil => exact absurd rfl h
    | cons d more =>
      obtain ⟨t, ts, rfl, hdigit, _⟩ := ht.exists_cons
      have hnumber : isNumber d (more ++ t :: ts) = isNumber d more := by
        refine isNumber_append (fun _ e he => ?_) d
        cases he
        exact hdigit
      simp only [List.cons_append, hnumber]
  case h_9 => exact quantified_append ht 0 none rest
  case h_10 => exact quantified_append ht 1 none rest
  case h_11 => exact quantified_append ht 0 (some 1) rest
  case h_12 =>
    simp only [readBounds_append ht]
    cases readBounds rest with
    | none => rfl
    | some bounds =>
      simp only [Option.map_some]
      split
      · exact quantified_append ht _ _ _
      · rfl
  all_goals rfl

/-- **The marks of a text do not change with what is behind it**, if that starts a mark of its own. -/
theorem marks_append {tail : List Char} (ht : Seals tail) {cs : List Char}
    (h : Mark.unknown ∉ marks cs) : marks (cs ++ tail) = marks cs ++ marks tail := by
  fun_induction marks cs with
  | case1 => rfl
  | case2 c rest ih =>
    obtain ⟨hfirst, hrest⟩ := List.ne_and_not_mem_of_not_mem_cons h
    rw [List.cons_append, marks, firstMark_append ht (Ne.symm hfirst)]
    exact congrArg _ (ih hrest)

/-! ## Reading marks one after another -/

/-- The open groups and the present one after one more mark. -/
def afterMark : List Frame × Frame → Mark → Option (List Frame × Frame)
  | (outer, frame), .single r => some (outer, { frame with items := r :: frame.items })
  | (outer, frame), .bar => some (outer, ⟨joined frame.items :: frame.done, []⟩)
  | (outer, frame), .groupStart => some (frame :: outer, {})
  | ([], _), .groupEnd => none
  | (f :: fs, frame), .groupEnd => some (fs, { f with items := frame.close :: f.items })
  | (outer, frame), .quantifier least most greedy =>
    match frame.items with
    | [] => none
    | r :: items => some (outer, { frame with items := between r least most greedy :: items })
  | _, .unknown => none

theorem ofMarks_eq (ms : List Mark) (outer : List Frame) (frame : Frame) :
    ofMarks outer frame ms = (ms.foldlM afterMark (outer, frame)).bind fun σ =>
      if σ.1.isEmpty then some σ.2.close else none := by
  induction ms generalizing outer frame with
  | nil => rfl
  | cons m ms ih =>
    rw [List.foldlM_cons]
    cases m with
    | single r => exact ih _ _
    | bar => exact ih _ _
    | groupStart => exact ih _ _
    | groupEnd =>
      cases outer with
      | nil => rfl
      | cons f fs => exact ih _ _
    | quantifier least most greedy =>
      simp only [ofMarks, afterMark]
      cases frame.items with
      | nil => rfl
      | cons r items => exact ih _ _
    | unknown => rfl

/-- A text is an expression if its quantifiers have something to repeat, and its marks can be read and
leave no group open. -/
theorem read?_eq_some {pattern : String} {r : Regex} : read? pattern = some r ↔
    quantifiersFit false (marks pattern.toList) = true ∧ ∃ frame,
      (marks pattern.toList).foldlM afterMark ([], {}) = some ([], frame) ∧ frame.close = r := by
  rw [read?, Option.ite_none_right_eq_some, ofMarks_eq, Option.bind_eq_some_iff]
  refine and_congr_right fun _ => ?_
  constructor
  · rintro ⟨⟨outer, frame⟩, hread, hclosed⟩
    cases outer with
    | nil => exact ⟨frame, hread, Option.some.inj hclosed⟩
    | cons => cases hclosed
  · rintro ⟨frame, hread, rfl⟩
    exact ⟨_, hread, rfl⟩

/-- A quantifier on a quantifier, bounds out of order and a character by its number are refused. -/
example : read? "a*+" = none ∧ read? "a{3,2}" = none ∧ read? "\\012" = none := by decide +kernel

/-- A mark that repeats nothing can be put behind others. -/
theorem quantifiersFit_concat {m : Mark} (hm : m.isQuantifier = false) {repeatable : Bool}
    {ms : List Mark} (h : quantifiersFit repeatable ms = true) :
    quantifiersFit repeatable (ms ++ [m]) = true := by
  induction ms generalizing repeatable with
  | nil => simp [quantifiersFit, hm]
  | cons n ms ih =>
    rw [quantifiersFit, Bool.and_eq_true] at h
    rw [List.cons_append, quantifiersFit, h.1, ih h.2]
    rfl

/-- A mark that repeats nothing, and that nothing repeats, can be put in front of others. -/
theorem quantifiersFit_cons {m : Mark} (hm : m.isQuantifier = false) (hm' : m.isRepeatable = false)
    {ms : List Mark} (h : quantifiersFit false ms = true) : quantifiersFit false (m :: ms) = true := by
  rw [quantifiersFit, hm, hm', h]
  rfl

theorem unknown_not_mem {ms : List Mark} {σ σ' : List Frame × Frame}
    (h : ms.foldlM afterMark σ = some σ') : Mark.unknown ∉ ms := by
  induction ms generalizing σ with
  | nil => exact List.not_mem_nil
  | cons m ms ih =>
    rw [List.foldlM_cons] at h
    obtain ⟨next, hnext, h⟩ := Option.bind_eq_some_iff.1 h
    refine List.not_mem_cons_of_ne_of_not_mem ?_ (ih h)
    rintro rfl
    cases hnext

/-- Groups below those that are open do not matter. -/
theorem afterMark_outer {m : Mark} {outer outer' below : List Frame} {frame frame' : Frame}
    (h : afterMark (outer, frame) m = some (outer', frame')) :
    afterMark (outer ++ below, frame) m = some (outer' ++ below, frame') := by
  cases m with
  | single r | bar | groupStart =>
    cases h
    rfl
  | groupEnd =>
    cases outer with
    | nil => cases h
    | cons f fs =>
      cases h
      rfl
  | quantifier least most greedy =>
    simp only [afterMark] at h ⊢
    cases hitems : frame.items with
    | nil =>
      rw [hitems] at h
      cases h
    | cons r items =>
      rw [hitems] at h
      cases h
      rfl
  | unknown => cases h

theorem foldlM_afterMark_outer {ms : List Mark} {outer outer' : List Frame} {frame frame' : Frame}
    (h : ms.foldlM afterMark (outer, frame) = some (outer', frame')) (below : List Frame) :
    ms.foldlM afterMark (outer ++ below, frame) = some (outer' ++ below, frame') := by
  induction ms generalizing outer frame with
  | nil =>
    cases h
    rfl
  | cons m ms ih =>
    rw [List.foldlM_cons] at h ⊢
    obtain ⟨⟨_, _⟩, hnext, h⟩ := Option.bind_eq_some_iff.1 h
    exact Option.bind_eq_some_iff.2 ⟨_, afterMark_outer hnext, ih h⟩

end LayeredGrammar.Regex
