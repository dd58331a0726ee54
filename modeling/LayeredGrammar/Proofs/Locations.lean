import LayeredGrammar.Node.Diagnostic
import Mathlib.Data.List.TakeWhile

/-!
# Lines and columns

The characters in front of an offset fall into whole lines, each with its newline, and the beginning
of the line of the offset (`Location.exists_place`). So line and column are a place in the list of
lines that one gets by splitting the text at newlines (`EndsLine.splitOn_append`): they determine the
offset, and later offsets have later places.

A diagnostic quotes this list: its snippet is the line of the region, what was found there begins at
the column, and so the caret stands under its first character (`Diagnostic.places_agree`).
-/

namespace LayeredGrammar

/-! ## Lines of a text -/

theorem newline_not_mem_firstLine (cs : List Char) : '\n' ∉ firstLine cs := by
  intro h
  simpa using List.mem_takeWhile_imp h

theorem firstLine_append {cs : List Char} (h : '\n' ∉ cs) (ds : List Char) :
    firstLine (cs ++ ds) = cs ++ firstLine ds := by
  unfold firstLine
  apply List.takeWhile_append_of_pos
  intro c hc
  simp only [bne_iff_ne, ne_eq]
  rintro rfl
  exact h hc

theorem head?_splitOn (cs : List Char) : (cs.splitOn '\n').head? = some (firstLine cs) := by
  induction cs with
  | nil => rfl
  | cons c cs ih =>
    rw [List.splitOn_cons_eq_if_modifyHead]
    unfold firstLine at ih ⊢
    by_cases hc : c = '\n'
    · simp [hc]
    · simp [hc, ih]

theorem length_splitOn (cs : List Char) : (cs.splitOn '\n').length = cs.count '\n' + 1 := by
  induction cs with
  | nil => rfl
  | cons c cs ih =>
    rw [List.splitOn_cons_eq_if_modifyHead]
    by_cases hc : c = '\n'
    · simp [hc, ih]
    · simp [hc, ih]

/-- The lines, each with a newline behind it, are the text with a newline behind it. -/
theorem flatMap_splitOn (cs : List Char) : (cs.splitOn '\n').flatMap (· ++ ['\n']) = cs ++ ['\n'] := by
  induction cs with
  | nil => rfl
  | cons c cs ih =>
    simp only [List.splitOn_cons_eq_if_modifyHead, beq_iff_eq]
    by_cases hc : c = '\n'
    · rw [if_pos hc, List.flatMap_cons, ih, hc]
      rfl
    · cases hs : cs.splitOn '\n' with
      | nil => exact absurd hs (List.splitOn_ne_nil _ _)
      | cons l ls =>
        rw [hs, List.flatMap_cons] at ih
        rw [if_neg hc, List.modifyHead_cons, List.flatMap_cons, List.cons_append, List.cons_append,
          List.cons_append, ih]

/-- Characters behind which a line begins. -/
def EndsLine (front : List Char) : Prop := front = [] ∨ ∃ lines, front = lines ++ ['\n']

/-- What stands behind whole lines is split as it would be on its own. -/
theorem EndsLine.splitOn_append {front : List Char} (h : EndsLine front) (rest : List Char) :
    ∃ above, (front ++ rest).splitOn '\n' = above ++ rest.splitOn '\n' ∧
      above.length = front.count '\n' ∧ above.flatMap (· ++ ['\n']) = front := by
  rcases h with rfl | ⟨lines, rfl⟩
  · exact ⟨[], rfl, rfl, rfl⟩
  · refine ⟨lines.splitOn '\n', ?_, ?_, ?_⟩
    · rw [List.append_assoc, List.singleton_append, List.splitOn_append_cons_self]
    · simp [length_splitOn]
    · exact flatMap_splitOn lines

/-- Characters fall into whole lines and the beginning of another one. -/
theorem exists_endsLine (cs : List Char) : ∃ front line, cs = front ++ line ∧ EndsLine front ∧
    '\n' ∉ line ∧ line.length = (firstLine cs.reverse).length := by
  refine ⟨(cs.reverse.dropWhile (· != '\n')).reverse, (firstLine cs.reverse).reverse, ?_, ?_, ?_, ?_⟩
  · rw [← List.reverse_append, firstLine, List.takeWhile_append_dropWhile, List.reverse_reverse]
  · cases hrest : cs.reverse.dropWhile (· != '\n') with
    | nil => exact Or.inl rfl
    | cons c rest =>
      have hc := List.head?_dropWhile_not (· != '\n') cs.reverse
      rw [hrest] at hc
      have : c = '\n' := by simpa using hc
      exact Or.inr ⟨rest.reverse, by rw [List.reverse_cons, this]⟩
  · rw [List.mem_reverse]
    exact newline_not_mem_firstLine _
  · exact List.length_reverse

/-! ## Places -/

namespace Location

variable {text : List Char} {p q : Nat}

/-- The lines in front of an offset and the beginning of its own line. -/
theorem exists_place (text : List Char) (pos : Nat) : ∃ front line,
    text = front ++ (line ++ text.drop pos) ∧ text.drop front.length = line ++ text.drop pos ∧
    EndsLine front ∧ '\n' ∉ line ∧
    front.length + line.length ≤ pos ∧ (pos ≤ text.length → front.length + line.length = pos) ∧
    ofOffset text pos = ⟨front.count '\n' + 1, pos - front.length + 1, front.length⟩ := by
  obtain ⟨front, line, hsplit, hfront, hline, hlength⟩ := exists_endsLine (text.take pos)
  have hlen : (text.take pos).length = front.length + line.length := by
    rw [hsplit, List.length_append]
  have hcount : (text.take pos).count '\n' = front.count '\n' := by
    rw [hsplit, List.count_append, List.count_eq_zero.2 hline, Nat.add_zero]
  have htake : (text.take pos).length = min pos text.length := List.length_take
  have htext : text = front ++ (line ++ text.drop pos) := by
    rw [← List.append_assoc, ← hsplit, List.take_append_drop]
  refine ⟨front, line, htext, ?_, hfront, hline, by omega, by omega, ?_⟩
  · exact (congrArg (List.drop front.length) htext).trans List.drop_left
  · unfold ofOffset
    have hstart : front.length + line.length - (firstLine (text.take pos).reverse).length =
        front.length := by omega
    simp only [hcount, hlen, hstart]

/-- A place gives the offset: that of its line and the column in it. -/
theorem lineStart_add_column (text : List Char) (pos : Nat) :
    (ofOffset text pos).lineStart + (ofOffset text pos).column - 1 = pos := by
  obtain ⟨front, line, -, -, -, -, hle, -, hplace⟩ := exists_place text pos
  rw [hplace]
  simp only
  omega

/-- Offsets with no newline between them are on one line. -/
theorem lineStart_eq (hle : p ≤ q) (h : (ofOffset text p).line = (ofOffset text q).line) :
    (ofOffset text p).lineStart = (ofOffset text q).lineStart := by
  obtain ⟨mid, hmid⟩ : text.take p <+: text.take q := List.take_prefix_take_left hle
  have hnone : '\n' ∉ mid := by
    simp only [ofOffset, ← hmid, List.count_append] at h
    exact List.count_eq_zero.1 (by omega)
  have hback : firstLine (text.take q).reverse = mid.reverse ++ firstLine (text.take p).reverse := by
    rw [← hmid, List.reverse_append]
    exact firstLine_append (by rwa [List.mem_reverse]) _
  simp only [ofOffset]
  rw [hback, ← hmid, List.length_append, List.length_append, List.length_reverse]
  omega

/-- **Later offsets have later places.** -/
theorem place_lt (h : p < q) : (ofOffset text p).line < (ofOffset text q).line ∨
    (ofOffset text p).line = (ofOffset text q).line ∧
      (ofOffset text p).column < (ofOffset text q).column := by
  have hlines : (ofOffset text p).line ≤ (ofOffset text q).line := by
    have hprefix : text.take p <+: text.take q := List.take_prefix_take_left (Nat.le_of_lt h)
    have hcount := hprefix.sublist.count_le '\n'
    simp only [ofOffset]
    omega
  rcases Nat.lt_or_eq_of_le hlines with hlt | heq
  · exact Or.inl hlt
  · have hstart := lineStart_eq (Nat.le_of_lt h) heq
    have hp := lineStart_add_column text p
    have hq := lineStart_add_column text q
    exact Or.inr ⟨heq, by omega⟩

theorem lt_iff_place_lt : p < q ↔ (ofOffset text p).line < (ofOffset text q).line ∨
    (ofOffset text p).line = (ofOffset text q).line ∧
      (ofOffset text p).column < (ofOffset text q).column := by
  refine ⟨place_lt, fun h => ?_⟩
  rcases Nat.lt_trichotomy p q with hlt | rfl | hgt
  · exact hlt
  · omega
  · have hplace := @place_lt text q p hgt
    omega

/-- The offset of a place: the length of the lines above, with their newlines, and the column. -/
def offset (text : List Char) (line column : Nat) : Nat :=
  (((text.splitOn '\n').take (line - 1)).flatMap (· ++ ['\n'])).length + (column - 1)

/-- Line and column determine the offset. -/
theorem offset_place (text : List Char) (pos : Nat) :
    offset text (ofOffset text pos).line (ofOffset text pos).column = pos := by
  obtain ⟨front, line, htext, -, hfront, -, hle, -, hplace⟩ := exists_place text pos
  obtain ⟨above, hsplit, habove, hlines⟩ := hfront.splitOn_append (line ++ text.drop pos)
  rw [← htext] at hsplit
  unfold offset
  rw [hplace, hsplit]
  simp only [Nat.add_sub_cancel]
  rw [← habove, List.take_left, hlines]
  omega

/-- The line of an offset in the list of lines. -/
theorem getElem?_splitOn (text : List Char) (pos : Nat) :
    (text.splitOn '\n')[(ofOffset text pos).line - 1]? =
      some (firstLine (text.drop (ofOffset text pos).lineStart)) := by
  obtain ⟨front, line, htext, hdrop, hfront, -, -, -, hplace⟩ := exists_place text pos
  obtain ⟨above, hsplit, habove, -⟩ := hfront.splitOn_append (line ++ text.drop pos)
  rw [← htext] at hsplit
  rw [hplace, hsplit]
  simp only [Nat.add_sub_cancel]
  rw [← habove, List.getElem?_append_right (Nat.le_refl _), Nat.sub_self, ← List.head?_eq_getElem?,
    head?_splitOn, hdrop]

/-- What is left of the line of an offset from its column on. -/
theorem drop_firstLine (text : List Char) (pos : Nat) :
    (firstLine (text.drop (ofOffset text pos).lineStart)).drop ((ofOffset text pos).column - 1) =
      firstLine (text.drop pos) := by
  obtain ⟨front, line, -, hdrop, -, hline, hle, hinside, hplace⟩ := exists_place text pos
  rw [hplace]
  simp only [Nat.add_sub_cancel]
  rw [hdrop, firstLine_append hline]
  by_cases hpos : pos ≤ text.length
  · have hlength : pos - front.length = line.length := by
      have := hinside hpos
      omega
    rw [hlength, List.drop_left]
  · -- behind the end of the text there is nothing
    have hnil : text.drop pos = [] := List.drop_eq_nil_of_le (by omega)
    rw [hnil]
    simp only [firstLine, List.takeWhile_nil, List.append_nil]
    exact List.drop_eq_nil_of_le (by omega)

end Location

/-! ## Diagnostics -/

namespace Diagnostic

/-- A diagnostic is at the place where its node starts. -/
theorem line_ofNode (text : List Char) (n : Node) :
    (ofNode text n).line = (Location.ofOffset text n.start).line := rfl

theorem column_ofNode (text : List Char) (n : Node) :
    (ofNode text n).column = (Location.ofOffset text n.start).column := rfl

theorem newline_not_mem_snippet (text : List Char) (n : Node) :
    '\n' ∉ (ofNode text n).snippet.toList := by
  simp only [ofNode, String.toList_ofList]
  exact newline_not_mem_firstLine _

/-- The snippet is the line of the text on which the node starts. -/
theorem getElem?_splitOn_snippet (text : List Char) (n : Node) :
    (text.splitOn '\n')[(Location.ofOffset text n.start).line - 1]? =
      some (ofNode text n).snippet.toList := by
  rw [Location.getElem?_splitOn]
  simp only [ofNode, String.toList_ofList]

/-- What was found is cut out of the snippet, at the column where the node starts. -/
theorem toList_found (text : List Char) (n : Node) : (ofNode text n).found.toList =
    ((ofNode text n).snippet.toList.drop ((Location.ofOffset text n.start).column - 1)).take
      (min 20 (n.stop - n.start)) := by
  have hfound : (ofNode text n).found.toList =
      (firstLine ((text.drop n.start).take (n.stop - n.start))).take 20 := by
    simp only [ofNode, String.toList_ofList]
    rfl
  have hsnippet : (ofNode text n).snippet.toList =
      firstLine (text.drop (Location.ofOffset text n.start).lineStart) := by
    simp only [ofNode, String.toList_ofList]
  rw [hfound, hsnippet, Location.drop_firstLine]
  unfold firstLine
  rw [← List.take_takeWhile, List.take_take]

/-- A description ends with the snippet and a line on which a caret stands in the column. -/
theorem splitOn_format (text : List Char) (n : Node) : ∃ above,
    (ofNode text n).format.toList.splitOn '\n' = above ++ [(ofNode text n).snippet.toList,
      List.replicate ((ofNode text n).column - 1) ' ' ++ ['^']] := by
  have hcaret : '\n' ∉ List.replicate ((ofNode text n).column - 1) ' ' ++ ['^'] := by
    simp [List.mem_replicate]
  have hsnippet := newline_not_mem_snippet text n
  generalize ofNode text n = d at hcaret hsnippet ⊢
  obtain ⟨front, hfront⟩ : ∃ front, d.format.toList = front ++
      '\n' :: (d.snippet.toList ++ '\n' :: (List.replicate (d.column - 1) ' ' ++ ['^'])) := by
    refine ⟨(d.message ++ "\nLine " ++ toString d.line ++ ", Column " ++ toString d.column ++ ":" ++
      d.expectedPart).toList, ?_⟩
    unfold format
    simp only [String.toList_append, String.toList_ofList, List.append_assoc]
    rfl
  refine ⟨front.splitOn '\n', ?_⟩
  rw [hfront, List.splitOn_append_cons_self, List.splitOn_append_cons_self,
    List.splitOn_eq_singleton hsnippet, List.splitOn_eq_singleton hcaret]
  rfl

/-- **Offsets, lines and snippets agree.** The column of an offset is counted from where its line
starts, places are ordered as their offsets, and a place determines its offset. The diagnostic of a node
has the span of the node and the place at which the node starts. Its snippet is the line of this place in
the text split at newlines, what was found is the beginning of the node on this line, at the column of
the place, and the caret stands in that column below the snippet, so under the first character that was
found if the node is not empty. -/
theorem places_agree (text : List Char) :
    (∀ pos, (Location.ofOffset text pos).lineStart + (Location.ofOffset text pos).column - 1 = pos) ∧
    (∀ p q, p < q ↔ (Location.ofOffset text p).line < (Location.ofOffset text q).line ∨
      (Location.ofOffset text p).line = (Location.ofOffset text q).line ∧
        (Location.ofOffset text p).column < (Location.ofOffset text q).column) ∧
    (∀ pos, Location.offset text (Location.ofOffset text pos).line
      (Location.ofOffset text pos).column = pos) ∧
    ∀ n : Node,
      ((ofNode text n).start = n.start ∧ (ofNode text n).stop = n.stop ∧
        (ofNode text n).expected = n.expected) ∧
      ((ofNode text n).line = (Location.ofOffset text n.start).line ∧
        (ofNode text n).column = (Location.ofOffset text n.start).column) ∧
      (text.splitOn '\n')[(Location.ofOffset text n.start).line - 1]? =
        some (ofNode text n).snippet.toList ∧
      (ofNode text n).found.toList =
        ((ofNode text n).snippet.toList.drop ((Location.ofOffset text n.start).column - 1)).take
          (min 20 (n.stop - n.start)) ∧
      (ofNode text n).found.toList.head? =
        (if n.start < n.stop then
          (ofNode text n).snippet.toList[(Location.ofOffset text n.start).column - 1]?
        else none) ∧
      ∃ above, (ofNode text n).format.toList.splitOn '\n' =
        above ++ [(ofNode text n).snippet.toList,
          List.replicate ((Location.ofOffset text n.start).column - 1) ' ' ++ ['^']] := by
  refine ⟨Location.lineStart_add_column text, fun _ _ => Location.lt_iff_place_lt,
    Location.offset_place text, fun n => ⟨⟨rfl, rfl, rfl⟩, ⟨line_ofNode text n, column_ofNode text n⟩,
      getElem?_splitOn_snippet text n, toList_found text n, ?_, ?_⟩⟩
  · rw [toList_found]
    split
    · rename_i hlt
      rw [List.head?_take, if_neg (by omega), List.head?_drop]
    · rename_i hle
      have hzero : min 20 (n.stop - n.start) = 0 := by omega
      rw [hzero]
      rfl
  · rw [← column_ofNode]
    exact splitOn_format text n

end Diagnostic

end LayeredGrammar
