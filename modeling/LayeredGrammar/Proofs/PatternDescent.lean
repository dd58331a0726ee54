import LayeredGrammar.Pattern.Descent
import LayeredGrammar.Proofs.PatternAcceptance

/-!
# Patterns read by descent

Reading by descent and reading with a stack of open groups come to the same (`Pattern.descend_eq`), so
the two errors that only the descent has never occur (`Pattern.fault_of_descend`).

What the stack makes of a text (`readOn`) is what one part of the descent makes of its beginning, and
then what the stack makes of the rest: there is one such equation for each of the four functions of the
descent, by the same recursion. Where a group ends the two can be compared at all because the descent
stops only there (`Ends`); the stack then looks at nothing but what the branches of the group come to.
-/

namespace LayeredGrammar.Pattern

/-! ## Reading on with the stack -/

/-- What the stack makes of lexemes and the text behind them. -/
def readAfter (outer : List (Bracket × Frame)) (frame : Frame) (r : List Lexeme × List Char) :
    Descent Production :=
  (readLexemes outer frame (r.1 ++ lex r.2)).embed id .fault

/-- What the stack makes of a text. -/
def readOn (outer : List (Bracket × Frame)) (frame : Frame) (cs : List Char) : Descent Production :=
  readAfter outer frame ([], cs)

variable {outer : List (Bracket × Frame)} {frame : Frame} {p : Production} {c : Char}
  {cs : List Char}

theorem readOn_cons : readOn outer frame (c :: cs) = readAfter outer frame (firstLexemes c cs) := by
  unfold readOn readAfter
  rw [List.nil_append, lex]

theorem readOn_nil : readOn outer frame [] = (readLexemes outer frame []).embed id .fault := by
  unfold readOn readAfter
  rw [List.nil_append, lex]

/-! ## Suffixes -/

/-- A field name is given to the latest item. -/
theorem readAfter_field : readAfter outer (frame.push p) (readField cs) =
    fielded p cs >>= fun r => readOn outer (frame.push r.1) r.2.1 := by
  fun_cases readField cs with
  | case1 cs name more h =>
    rw [fielded]
    split
    · rename_i h'
      cases h.symm.trans h'
      rfl
    · rename_i h'
      cases h.symm.trans h'
  | case2 cs h =>
    rw [fielded]
    split
    · rename_i h'
      cases h.symm.trans h'
    · rfl
  | case3 cs h =>
    rw [fielded]
    · rfl
    · exact h

theorem readQuantifier_snd : (readQuantifier cs).2 = (quantified p cs).2.1 := by
  cases cs with
  | nil => rfl
  | cons c cs => cases h : quantifier? c <;> simp only [readQuantifier, quantified, h]

/-- A quantifier is applied to the latest item. -/
theorem readLexemes_quantifier {ls : List Lexeme} :
    readLexemes outer (frame.push p) ((readQuantifier cs).1 ++ ls) =
      readLexemes outer (frame.push (quantified p cs).1) ls := by
  cases cs with
  | nil => rfl
  | cons c cs => cases h : quantifier? c <;> simp only [readQuantifier, quantified, h] <;> rfl

theorem readAfter_suffix : readAfter outer (frame.push p) (readSuffix cs) =
    suffixed p cs >>= fun r => readOn outer (frame.push r.1) r.2.1 := by
  unfold suffixed
  rw [bind_map_left]
  show _ = fielded _ _ >>= fun r => readOn outer (frame.push r.1) r.2.1
  rw [← readAfter_field, ← readQuantifier_snd (p := p)]
  unfold readAfter
  rw [← readLexemes_quantifier, ← List.append_assoc]
  rfl

/-- Behind the closing bracket of a group. -/
theorem readAfter_closing {b : Bracket} : readAfter ((b, frame) :: outer) ⟨[], [p]⟩
    (firstLexemes b.closer cs) = grouped b p cs >>= fun r => readOn outer (frame.push r.1) r.2.1 := by
  cases b with
  | round => exact readAfter_suffix
  | square => exact readAfter_field
  | curly => exact readAfter_field

/-! ## Elements without brackets -/

/-- A field name in a reference is given to the latest item. -/
theorem targeted_cases (p : Production) (cs : List Char) :
    referenceField? cs = none ∧ targeted? p cs = none ∨
    ∃ ls q, referenceField? cs = some ls ∧ targeted? p cs = some q ∧
      ∀ outer (frame : Frame) rest,
        readAfter outer (frame.push p) (ls, rest) = readOn outer (frame.push q) rest := by
  unfold targeted?
  fun_cases referenceField? cs with
  | case1 h =>
    rw [h]
    exact Or.inr ⟨_, _, rfl, rfl, fun _ _ _ => rfl⟩
  | case2 rest h name hname =>
    rw [h]
    simp only [hname]
    exact Or.inr ⟨_, _, rfl, rfl, fun _ _ _ => rfl⟩
  | case3 rest h hname =>
    refine Or.inl ⟨rfl, ?_⟩
    simp only [h]
  | case4 hnil hcolon =>
    refine Or.inl ⟨rfl, ?_⟩
    split
    · rename_i h
      exact absurd h hnil
    · rename_i h
      exact absurd h (hcolon _)
    · rfl

theorem readAfter_reference {content : List Char} :
    readAfter outer frame (referenceLexemes content, cs) = match reference? content with
      | some p => readOn outer (frame.push p) cs
      | none => .fail (.fault (.invalidReference (String.ofList content))) := by
  unfold referenceLexemes reference?
  cases readName content with
  | none => rfl
  | some found =>
    obtain ⟨name, more⟩ := found
    simp only [Option.bind_eq_bind, Option.bind_some, readQuantifier_snd (p := .ref name)]
    rcases targeted_cases (quantified (.ref name) more).1 (quantified (.ref name) more).2.1 with
      ⟨hfield, htarget⟩ | ⟨ls, p, hfield, htarget, hread⟩
    · rw [hfield, htarget]
      rfl
    · rw [hfield, htarget]
      simp only [Option.bind_some, Option.getD_some, ← hread]
      unfold readAfter
      rw [← readLexemes_quantifier, ← List.append_assoc]
      rfl

/-- A bracket that does not close the open group. -/
theorem readAfter_unbalanced {b : Bracket} {ls : List Lexeme}
    (h : outer.head?.map (·.1) ≠ some b) :
    readAfter outer frame (.closing b :: ls, cs) = .fail (.fault (.unbalanced b)) := by
  cases outer with
  | nil => rfl
  | cons e outer =>
    have hne : b ≠ e.1 := fun heq => h (congrArg some heq.symm)
    simp only [readAfter, List.cons_append, readLexemes, if_neg hne]
    rfl

theorem atom_literal {c : Char} (hquote : c = '\'' ∨ c = '"') {value more : List Char}
    (h : readQuoted c cs = some (value, more)) : atom c cs =
      widen (readQuoted_length_le h) <$> suffixed (.lit (String.ofList value)) more := by
  rw [atom, if_neg (by rcases hquote with rfl | rfl <;> decide), if_pos hquote]
  split
  · rename_i h'
    cases h.symm.trans h'
    rfl
  · rename_i h'
    cases h.symm.trans h'

theorem atom_unclosedLiteral {c : Char} (hquote : c = '\'' ∨ c = '"') (h : readQuoted c cs = none) :
    atom c cs = .fail (.fault .unclosedLiteral) := by
  rw [atom, if_neg (by rcases hquote with rfl | rfl <;> decide), if_pos hquote]
  split
  · rename_i h'
    cases h.symm.trans h'
  · rfl

theorem readAfter_atom {c : Char} (hblank : Text.isBlank c = false) (hbar : c ≠ '|')
    (hopened : opened? c = none)
    (hclosed : ∀ b, closed? c = some b → outer.head?.map (·.1) ≠ some b) :
    readAfter outer frame (firstLexemes c cs) =
      atom c cs >>= fun r => readOn outer (frame.push r.1) r.2.1 := by
  fun_cases firstLexemes c cs with
  | case1 => exact absurd rfl hbar
  | case2 => cases hopened
  | case3 => cases hopened
  | case4 => cases hopened
  | case5 => exact readAfter_unbalanced (hclosed .round rfl)
  | case6 => exact readAfter_unbalanced (hclosed .square rfl)
  | case7 => exact readAfter_unbalanced (hclosed .curly rfl)
  | case8 hdrop =>
    rw [atom, if_pos rfl]
    split
    · rfl
    · rename_i h
      cases hdrop.symm.trans h
  | case9 d more hdrop =>
    rw [atom, if_pos rfl]
    split
    · rename_i h
      cases hdrop.symm.trans h
    · rename_i h
      cases hdrop.symm.trans h
      rw [readAfter_reference]
      simp only
      cases reference? (Text.trimBlank (cs.takeWhile (· != '>'))) <;> rfl
  | case10 => rfl
  | case11 c hquote value more hread =>
    rw [if_pos hquote, hread, atom_literal hquote hread, bind_map_left]
    exact readAfter_suffix
  | case12 c hquote hread =>
    rw [if_pos hquote, hread, atom_unclosedLiteral hquote hread]
    rfl
  | case13 c hquote h =>
    rw [h] at hblank
    cases hblank
  | case14 c hquote _ _ hround hsquare hcurly hround' hsquare' hcurly' hangle hangle' =>
    have hbare : isBareChar c = true := by
      rw [not_or] at hquote
      refine isBareChar_iff.2 ⟨hblank, ?_⟩
      simp only [List.mem_cons, List.not_mem_nil, or_false, not_or]
      exact ⟨hangle, hangle', hsquare, hsquare', hcurly, hcurly', hround, hround', hbar, hquote⟩
    have hclosed : closed? c = none := by
      unfold closed?
      split <;> first | rfl | contradiction
    rw [if_neg hquote, if_neg (Bool.eq_false_iff.1 hblank), atom, if_neg hangle, if_neg hquote,
      hclosed]
    simp only [hbare, if_true]
    unfold readOn readAfter
    simp only [List.singleton_append, readLexemes]
    split <;> rfl

/-! ## Where the parts of the descent end -/

variable {stop : Option Bracket}

/-- A text that begins with the character that closes the group or, if no group is open, is empty. -/
def Ends (stop : Option Bracket) (cs : List Char) : Prop := cs.head? = stop.map Bracket.closer

/-- A sequence is read up to a bar or the end of its group. -/
theorem sequence_ends {items : List Production} {cs : List Char} {r : List Production × Rest cs}
    (h : (sequence stop items cs).outcome = .ok r) :
    r.2.1.head? = some '|' ∨ Ends stop r.2.1 := by
  match cs with
  | [] =>
    rw [sequence.eq_def] at h
    cases stop with
    | none =>
      cases h
      exact Or.inr rfl
    | some b => cases h
  | c :: cs =>
    rw [sequence] at h
    split at h
    · obtain ⟨r, hr, h⟩ := Traced.outcome_bind.1 h
      cases h
      have hlt : cs.length < (c :: cs).length := Nat.lt_succ_self _
      rw [widen_rest]
      exact sequence_ends hr
    · split at h
      · rename_i hstop
        cases h
        exact hstop.imp (congrArg some) Eq.symm
      · obtain ⟨⟨p, rest⟩, _, h⟩ := Traced.outcome_bind.1 h
        obtain ⟨r, hr, h⟩ := Traced.outcome_bind.1 h
        cases h
        have hlt : rest.1.length < (c :: cs).length := Nat.lt_succ_of_le rest.2
        rw [widen_rest]
        exact sequence_ends hr
termination_by cs.length
decreasing_by all_goals exact hlt

/-- Without a bar in front there are no more branches. -/
theorem branches_stop {frame : Frame} {cs : List Char} (h : cs.head? ≠ some '|') :
    branches stop frame cs = pure (frame.close, ⟨cs, Nat.le_refl _⟩) := by
  rw [branches]
  rintro more rfl
  exact h rfl

/-- Branches are read up to the end of their group. -/
theorem branches_ends {frame : Frame} {cs : List Char} {r : Production × Rest cs}
    (hcs : cs.head? = some '|' ∨ Ends stop cs) (h : (branches stop frame cs).outcome = .ok r) :
    Ends stop r.2.1 := by
  by_cases hbar : cs.head? = some '|'
  · obtain ⟨cs, rfl⟩ := List.head?_eq_some_iff.1 hbar
    rw [branches] at h
    obtain ⟨⟨items, rest⟩, hitems, h⟩ := Traced.outcome_bind.1 h
    obtain ⟨r, hr, h⟩ := Traced.outcome_bind.1 h
    cases h
    have hlt : rest.1.length < ('|' :: cs).length := Nat.lt_succ_of_le rest.2
    rw [widen_rest]
    exact branches_ends (sequence_ends hitems) hr
  · rw [branches_stop hbar] at h
    cases h
    exact hcs.resolve_left hbar
termination_by cs.length
decreasing_by
  subst_vars
  exact hlt

/-- Alternations are read up to the end of their group. -/
theorem alternation_ends {cs : List Char} {r : Production × Rest cs}
    (h : (alternation stop cs).outcome = .ok r) : Ends stop r.2.1 := by
  rw [alternation] at h
  obtain ⟨⟨items, rest⟩, hitems, h⟩ := Traced.outcome_bind.1 h
  obtain ⟨r, hr, h⟩ := Traced.outcome_bind.1 h
  cases h
  rw [widen_rest]
  exact branches_ends (sequence_ends hitems) hr

/-! ## The descent -/

/-- The group that is open. -/
def opening (outer : List (Bracket × Frame)) : Option Bracket := outer.head?.map (·.1)

/-- At the end of a group only what its branches come to matters. -/
theorem readOn_ends (h : Ends (opening outer) cs) :
    readOn outer frame cs = readOn outer ⟨[], [frame.close]⟩ cs := by
  cases outer with
  | nil =>
    obtain rfl := List.head?_eq_none_iff.1 h
    rw [readOn_nil, readOn_nil]
    rfl
  | cons e outer =>
    obtain ⟨b, f⟩ := e
    obtain ⟨more, rfl⟩ := List.head?_eq_some_iff.1 h
    rw [readOn_cons, readOn_cons]
    cases b <;> rfl

/-- A group is opened. -/
theorem readOn_opened {c : Char} {b : Bracket} (h : opened? c = some b) :
    readOn outer frame (c :: cs) = readOn ((b, frame) :: outer) {} cs := by
  rw [readOn_cons]
  unfold opened? at h
  split at h <;> cases h <;> rfl

theorem readOn_blank {c : Char} (h : Text.isBlank c = true) :
    readOn outer frame (c :: cs) = readOn outer frame cs := by
  rw [readOn_cons, firstLexemes_of_blank h]
  rfl

mutual

theorem readOn_alternation (outer : List (Bracket × Frame)) (cs : List Char) :
    readOn outer {} cs =
      alternation (opening outer) cs >>= fun r => readOn outer ⟨[], [r.1]⟩ r.2.1 := by
  rw [alternation, bind_assoc, readOn_sequence outer {} cs]
  refine Traced.bind_congr ?_
  rintro ⟨items, rest⟩ hitems
  have hle := rest.2
  simp only [bind_map_left]
  exact readOn_branches outer ⟨[], items⟩ rest.1 (sequence_ends hitems)
termination_by 3 * cs.length + 1
decreasing_by all_goals omega

theorem readOn_branches (outer : List (Bracket × Frame)) (frame : Frame) (cs : List Char)
    (hcs : cs.head? = some '|' ∨ Ends (opening outer) cs) : readOn outer frame cs =
      branches (opening outer) frame cs >>= fun r => readOn outer ⟨[], [r.1]⟩ r.2.1 := by
  by_cases hbar : cs.head? = some '|'
  · obtain ⟨cs, rfl⟩ := List.head?_eq_some_iff.1 hbar
    have hsplit : readOn outer frame ('|' :: cs) = readOn outer frame.split cs := readOn_cons
    rw [branches, bind_assoc, hsplit, readOn_sequence outer frame.split cs]
    refine Traced.bind_congr ?_
    rintro ⟨items, rest⟩ hitems
    have hle := rest.2
    simp only [bind_map_left]
    exact readOn_branches outer { frame.split with items := items } rest.1 (sequence_ends hitems)
  · rw [branches_stop hbar, readOn_ends (hcs.resolve_left hbar)]
    rfl
termination_by 3 * cs.length
decreasing_by
  all_goals
    subst_vars
    simp only [List.length_cons]
    omega

theorem readOn_sequence (outer : List (Bracket × Frame)) (frame : Frame) (cs : List Char) :
    readOn outer frame cs = sequence (opening outer) frame.items cs >>= fun r =>
      readOn outer { frame with items := r.1 } r.2.1 := by
  match cs with
  | [] =>
    rw [sequence.eq_def, readOn_nil]
    cases outer with
    | nil =>
      show _ = readOn [] frame []
      rw [readOn_nil]
    | cons => rfl
  | c :: cs =>
    rw [sequence]
    split
    · rename_i hblank
      have hlt : cs.length < (c :: cs).length := Nat.lt_succ_self _
      rw [readOn_blank hblank, bind_map_left]
      exact readOn_sequence outer frame cs
    · rename_i hblank
      split
      · rfl
      · rename_i hstop
        rw [not_or] at hstop
        rw [bind_assoc, readOn_element outer frame c cs (Bool.eq_false_iff.2 hblank) hstop.1 hstop.2]
        refine bind_congr ?_
        rintro ⟨p, rest⟩
        have hle := rest.2
        simp only [bind_map_left]
        exact readOn_sequence outer (frame.push p) rest.1
termination_by 3 * cs.length

theorem readOn_element (outer : List (Bracket × Frame)) (frame : Frame) (c : Char) (cs : List Char)
    (hblank : Text.isBlank c = false) (hbar : c ≠ '|')
    (hstop : (opening outer).map Bracket.closer ≠ some c) :
    readOn outer frame (c :: cs) =
      element c cs >>= fun r => readOn outer (frame.push r.1) r.2.1 := by
  rw [element]
  split
  · rename_i b hopened
    rw [readOn_opened hopened, bind_assoc, readOn_alternation]
    refine Traced.bind_congr ?_
    rintro ⟨inner, rest, hrest⟩ hinner
    obtain ⟨more, rfl⟩ := List.head?_eq_some_iff.1 (alternation_ends hinner)
    show readOn ((b, frame) :: outer) ⟨[], [inner]⟩ (b.closer :: more) =
      (if b.closer = b.closer then widen (Nat.le_of_succ_le hrest) <$> grouped b inner more
        else .fail (.unclosed b)) >>= fun r => readOn outer (frame.push r.1) r.2.1
    rw [if_pos rfl, readOn_cons, readAfter_closing, bind_map_left]
    rfl
  · rename_i hopened
    rw [readOn_cons]
    refine readAfter_atom hblank hbar hopened fun b hb hopen => hstop ?_
    rw [opening, hopen]
    unfold closed? at hb
    split at hb <;> cases hb <;> rfl
termination_by 3 * cs.length + 2

end

/-- **Reading by descent is reading with a stack.** Both leave the same notes and end in the same
production or the same fault. -/
theorem descend_eq (pattern : String) : descend pattern = (read pattern).embed id .fault := by
  have hread : (read pattern).embed id .fault =
      (readOn [] {} pattern.toList).embed (⟨pattern, ·⟩) id := by
    unfold readOn readAfter read
    rw [Traced.embed_embed, Traced.embed_embed]
    rfl
  rw [hread, readOn_alternation]
  unfold descend
  refine congrArg (Traced.embed (BareWord.mk pattern) id) (Traced.bind_congr ?_)
  rintro ⟨p, rest, hrest⟩ hp
  obtain rfl := List.head?_eq_none_iff.1 (alternation_ends hp)
  show pure p = readOn [] ⟨[], [p]⟩ []
  rw [readOn_nil]
  rfl

/-- No group turns out not to be closed where its alternation ends, and no text is left over. -/
theorem fault_of_descend {pattern : String} {t : Trouble}
    (h : (descend pattern).outcome = .error t) :
    ∃ f, (read pattern).outcome = .error f ∧ t = .fault f := by
  rw [descend_eq, Traced.embed] at h
  cases hread : (read pattern).outcome with
  | ok p =>
    rw [hread] at h
    cases h
  | error f =>
    rw [hread] at h
    cases h
    exact ⟨f, rfl, rfl⟩

end LayeredGrammar.Pattern
