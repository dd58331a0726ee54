import LayeredGrammar.Proofs.Engine.Displaced
import LayeredGrammar.Proofs.Pattern.Printing

/-!
# Blanks in front of a text

An expression that is read behind other characters sees of them only whether a word character stands
right before its start (`Regex.run_shifts`). Blanks are no word characters, so literals and tokens are
the same behind blanks, and a blank in front of extras belongs to them (`Session.skip_blank`): the
text is displaced, as `Session.displaced_of_blank` says.

So the trees of a text with and without blanks in front of it are the same below the root, error
regions included, except that everything lies further to the right
(`ParseTable.parse_after_blanks`).
-/

namespace LayeredGrammar

namespace Regex

variable {mode : Mode} {front text : Array Char}

/-! ## Reading behind other characters -/

theorem getElem?_behind (front text : Array Char) (pos : Nat) :
    (front ++ text)[pos + front.size]? = text[pos]? := by
  rw [Array.getElem?_append_right (Nat.le_add_left ..), Nat.add_sub_cancel]

theorem wordAt_behind (front text : Array Char) (pos : Nat) :
    wordAt (front ++ text) (pos + front.size) = wordAt text pos := by
  unfold wordAt
  rw [getElem?_behind]

/-- Behind characters that are no word characters a word begins where it begins without them. -/
theorem isBoundary_behind (hfront : ∀ c ∈ front, Text.isWordChar c = false) (pos : Nat) :
    isBoundary (front ++ text) (pos + front.size) = isBoundary text pos := by
  unfold isBoundary
  rw [wordAt_behind]
  congr 1
  cases pos with
  | succ pos =>
    have hpred : pos + 1 + front.size - 1 = pos + front.size := by omega
    rw [hpred, wordAt_behind, decide_eq_true (by omega : 0 < pos + 1 + front.size),
      decide_eq_true (Nat.succ_pos pos)]
    rfl
  | zero =>
    rw [Nat.zero_add]
    refine (Bool.and_eq_false_iff.2 ?_).trans (by simp)
    by_cases hsize : 0 < front.size
    · refine Or.inr ?_
      have hlast : (front ++ text)[front.size - 1]? = some front[front.size - 1] := by
        rw [Array.getElem?_append_left (by omega), Array.getElem?_eq_getElem]
      unfold wordAt
      rw [hlast]
      exact hfront _ (Array.getElem_mem _)
    · exact Or.inl (by simpa using hsize)

/-- Two computations of which the second does `d` positions further on what the first one does, if
their continuations do. -/
def Shifts (d : Nat) (run run' : (Nat → Option Nat) → Nat → Option Nat) : Prop :=
  ∀ k k', (∀ q, k' (q + d) = (k q).map (· + d)) → ∀ pos, run' k' (pos + d) = (run k pos).map (· + d)

theorem orElse_map {a b : Option Nat} (f : Nat → Nat) :
    (a <|> b).map f = (a.map f <|> b.map f) := by
  cases a <;> rfl

theorem step_shifts (has : Char → Bool) :
    Shifts front.size (step text has) (step (front ++ text) has) := by
  intro k k' hk pos
  unfold step
  rw [getElem?_behind]
  cases text[pos]? with
  | none => rfl
  | some c =>
    simp only
    split
    · rw [Nat.add_right_comm, hk]
    · rfl

theorem rounds_shifts {d : Nat} {body body' : (Nat → Option Nat) → Nat → Option Nat}
    (hbody : Shifts d body body') (greedy : Bool) (n : Nat) :
    Shifts d (fun k pos => rounds body greedy k n pos) (fun k pos => rounds body' greedy k n pos) := by
  induction n with
  | zero => exact fun k k' hk pos => hk pos
  | succ n ih =>
    intro k k' hk pos
    have hround : body' (fun q => if pos + d < q then rounds body' greedy k' n q else k' q) (pos + d) =
        (body (fun q => if pos < q then rounds body greedy k n q else k q) pos).map (· + d) := by
      refine hbody _ _ (fun q => ?_) pos
      simp only [Nat.add_lt_add_iff_right]
      split
      · exact ih k k' hk q
      · exact hk q
    simp only [rounds]
    rw [hround, hk]
    split
    · exact (orElse_map _).symm
    · exact (orElse_map _).symm

/-- **Expressions are read in the same way behind characters that are no word characters.** -/
theorem run_shifts (hfront : ∀ c ∈ front, Text.isWordChar c = false) (r : Regex) :
    Shifts front.size (run mode text r) (run mode (front ++ text) r) := by
  induction r with
  | empty => exact fun k k' hk pos => hk pos
  | char c => exact step_shifts _
  | dot => exact step_shifts _
  | oneOf negated items => exact step_shifts _
  | boundary =>
    intro k k' hk pos
    simp only [run]
    rw [isBoundary_behind hfront]
    split
    · exact hk pos
    · rfl
  | seq a b iha ihb => exact fun k k' hk pos => iha _ _ (ihb k k' hk) pos
  | alt a b iha ihb =>
    intro k k' hk pos
    simp only [run]
    rw [iha k k' hk, ihb k k' hk, orElse_map]
  | loop body most greedy ih =>
    intro k k' hk pos
    have hrounds : (front ++ text).size - (pos + front.size) = text.size - pos := by
      rw [Array.size_append]
      omega
    simp only [run]
    rw [hrounds]
    exact rounds_shifts ih greedy _ k k' hk pos

theorem matchAt_behind (hfront : ∀ c ∈ front, Text.isWordChar c = false) (r : Regex) (pos : Nat) :
    r.matchAt mode (front ++ text) (pos + front.size) =
      (r.matchAt mode text pos).map (· + front.size) := by
  have hmin : min (pos + front.size) (front ++ text).size = min pos text.size + front.size := by
    rw [Array.size_append]
    omega
  unfold matchAt
  rw [hmin]
  exact run_shifts hfront r some some (fun _ => rfl) _

end Regex

namespace Session

variable {s : Session} {front : Array Char}

/-! ## Skipping blanks -/

/-- Blanks at the beginning of a text are skipped. -/
theorem skip_front (hs : s.SkipsBlanks) (hfront : ∀ c ∈ front, Text.isBlank c = true) :
    ∀ n ≤ front.size, (s.reading (front ++ s.text)).skip 0 = (s.reading (front ++ s.text)).skip n
  | 0, _ => rfl
  | n + 1, hn => by
    have hc : (front ++ s.text)[n]? = some front[n] := by
      rw [Array.getElem?_append_left hn, Array.getElem?_eq_getElem]
    rw [skip_front hs hfront n (by omega)]
    exact skip_blank (s := s.reading (front ++ s.text)) hs hc (hfront _ (Array.getElem_mem _))

/-! ## Literals behind other characters -/

theorem hasAt_behind (front text : Array Char) : ∀ (cs : List Char) (pos : Nat),
    hasAt (front ++ text) (pos + front.size) cs = hasAt text pos cs
  | [], _ => rfl
  | c :: cs, pos => by
    rw [hasAt, hasAt, Regex.getElem?_behind, Nat.add_right_comm, hasAt_behind front text cs]

theorem literalAt_behind (s : Session) (front : Array Char) (pos : Nat) :
    (s.reading (front ++ s.text)).literalAt (pos + front.size) = s.literalAt pos := by
  have hsize : (s.reading (front ++ s.text)).size = s.size + front.size :=
    Array.size_append.trans (Nat.add_comm ..)
  have hfits : (s.reading (front ++ s.text)).fits (pos + front.size) = s.fits pos := by
    funext l
    show (hasAt (front ++ s.text) _ _ && !(l.wordLike && Regex.wordAt (front ++ s.text) _)) = _
    rw [hasAt_behind, Nat.add_right_comm, Regex.wordAt_behind]
    rfl
  unfold literalAt
  rw [hsize, hfits]
  simp only [Nat.add_le_add_iff_right, reading_table]

theorem slice_behind (s : Session) (front : Array Char) (start stop : Nat) :
    (s.reading (front ++ s.text)).slice (start + front.size) (stop + front.size) =
      s.slice start stop := by
  unfold slice
  congr 1
  show ((front ++ s.text).extract _ _).toList = _
  rw [Array.toList_extract, Array.toList_extract, List.extract_eq_take_drop,
    List.extract_eq_take_drop, Array.toList_append, Nat.add_comm start,
    ← Array.length_toList, List.drop_length_add_append]
  congr 1
  omega

/-- **A text is displaced by blanks in front of it.** -/
theorem displaced_of_blank (hs : s.SkipsBlanks) (hfront : ∀ c ∈ front, Text.isBlank c = true) :
    s.Displaced (front ++ s.text) front.size := by
  have hword : ∀ c ∈ front, Text.isWordChar c = false := by
    intro c hc
    refine Bool.eq_false_iff.2 fun hword => ?_
    have hblank := hfront c hc
    rw [Text.isBlank_of_isWordChar hword] at hblank
    cases hblank
  have hskip : ∀ pos, (s.reading (front ++ s.text)).skip (pos + front.size) =
      s.skip pos + front.size := by
    intro pos
    unfold skip Extras.skip
    show ((s.grammar.extras.regex.matchAt _ (front ++ s.text) _).getD _) = _
    rw [Regex.matchAt_behind hword]
    cases s.grammar.extras.regex.matchAt _ s.text pos <;> rfl
  refine ⟨Array.size_append.trans (Nat.add_comm ..), slice_behind s front, hskip, fun pos => ?_,
    literalAt_behind s front, fun t pos => ?_⟩
  · cases pos with
    | zero =>
      rw [place_zero, skip_front hs hfront front.size (Nat.le_refl _), ← hskip 0, Nat.zero_add]
    | succ pos => rw [place_of_pos (Nat.succ_pos pos), hskip]
  · unfold Token.matchAt
    cases t.regex with
    | none => rfl
    | some r => exact Regex.matchAt_behind hword r pos

end Session

namespace ParseTable

/-- **Blanks in front of a text only shift its tree.** In the ready-made grammars, whether or not
errors are recovered from, a text and the same text with blanks in front of it have the same nodes
below the root, with the same kinds, names, fields, children and expected sets, except that each of
them starts and ends further to the right by the number of blanks. -/
theorem parse_after_blanks {table : ParseTable} (ht : Catalog.Shipped table)
    {recover strict strict' : Bool} {front text : List Char}
    (hfront : ∀ c ∈ front, Text.isBlank c = true) {limit limit' : Nat} {tree tree' : Tree}
    (h : table.parse recover strict text limit = .ok tree)
    (h' : table.parse recover strict' (front ++ text) limit' = .ok tree') :
    tree'.root = { tree.root with
      stop := tree.root.stop + front.length
      children := tree.root.children.map (Node.shift front.length) } := by
  obtain ⟨μ, hroot⟩ := parse_eq_ok h
  obtain ⟨μ', hroot'⟩ := parse_eq_ok h'
  have hdisplaced : Session.Displaced ⟨table, recover, text.toArray⟩ (front.toArray ++ text.toArray)
      front.toArray.size :=
    Session.displaced_of_blank (Catalog.Shipped.skipsBlanks ht) (by simpa using hfront)
  have hfall : ∀ t : Array Char, Session.Falling ⟨table, recover, t⟩
      (Session.height ⟨table, recover, t⟩ Catalog.cornerRank 7) := fun _ =>
    Catalog.Shipped.falling ht
  rw [← List.append_toArray] at hroot'
  exact Session.parse_displaced hdisplaced (Session.certified ht) (hfall _) (hfall _) hroot hroot'

set_option maxRecDepth 100000 in
/-- A text that the C grammar reads, with and without blanks in front of it. -/
theorem parse_after_blanks_statement : ∃ table tree tree', Catalog.cTable.outcome = .ok table ∧
    (∀ c ∈ [' ', '\n'], Text.isBlank c = true) ∧
    table.parse true false ['a', ';'] 12 = .ok tree ∧
    table.parse true false ([' ', '\n'] ++ ['a', ';']) 12 = .ok tree' ∧
    tree'.root = { tree.root with
      stop := tree.root.stop + 2
      children := tree.root.children.map (Node.shift 2) } := by
  obtain ⟨table, tree, htable, h⟩ := exists_parse
  cases htable.symm.trans Catalog.cTable_eq
  have hrun : ((Catalog.cBuilt.parse true false ([' ', '\n'] ++ ['a', ';']) 12).toOption.any
      fun _ => true) = true := by
    decide +kernel
  obtain ⟨tree', h', _⟩ := Except.exists_of_any hrun
  have hblank : ∀ c ∈ [' ', '\n'], Text.isBlank c = true :=
    List.all_eq_true.1 (by decide : [' ', '\n'].all Text.isBlank = true)
  exact ⟨_, tree, tree', htable, hblank, h, h', parse_after_blanks (Or.inl htable) hblank h h'⟩

end ParseTable

end LayeredGrammar
