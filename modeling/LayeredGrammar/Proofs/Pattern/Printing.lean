import LayeredGrammar.Pattern.Reading

/-!
# Printing patterns

`Expressible` says which productions the pattern notation can express: those without node kinds,
precedences and recovering repetitions, whose sequences and choices have at least two parts and
whose names are written like names. `spell` prints a production as a pattern, and `read_print` says
that reading it gives the production back, without notes.

A printed production stands inside a larger pattern, so the round trip is proved at any place in one:
what follows must not go on with the last lexeme (`Stops`), and the production is added to the group
that is open (`Returns`).
-/

namespace LayeredGrammar

/-! ## Characters of names -/

namespace Text

theorem CharRanges.exists_of_has {ranges : CharRanges} {n : Nat} (h : ranges.has n = true) :
    ∃ r ∈ ranges, r.1 ≤ n ∧ n ≤ r.2 := by
  induction ranges with
  | nil => cases h
  | cons r ranges ih =>
    obtain ⟨lo, hi⟩ := r
    simp only [has] at h
    split at h
    · cases h
    · rename_i hlo
      split at h
      · rename_i hhi
        exact ⟨_, List.mem_cons_self, Nat.not_lt.1 hlo, hhi⟩
      · obtain ⟨r, hr, hn⟩ := ih h
        exact ⟨r, List.mem_cons_of_mem _ hr, hn⟩

set_option maxRecDepth 10000 in
theorem isBlank_of_isWordChar {c : Char} (h : isWordChar c = true) : isBlank c = false := by
  have hranges : ∀ r ∈ blankRanges, ∀ n ∈ List.range' r.1 (r.2 + 1 - r.1),
      wordRanges.has n = false := by decide
  refine Bool.eq_false_iff.2 fun hblank => ?_
  obtain ⟨r, hr, hlo, hhi⟩ := CharRanges.exists_of_has hblank
  have hword := hranges r hr c.toNat (List.mem_range'_1.2 (by omega))
  rw [isWordChar, hword] at h
  cases h

/-- Blanks are cut off where there are any. -/
theorem trimBlank_eq_self {cs : List Char} (h : ∀ c ∈ cs, isBlank c = false) :
    trimBlank cs = cs := by
  have hdrop : ∀ l : List Char, (∀ c ∈ l, isBlank c = false) → l.dropWhile isBlank = l := by
    intro l hl
    cases l with
    | nil => rfl
    | cons c l => rw [List.dropWhile_cons_of_neg (by simp [hl c])]
  rw [trimBlank, hdrop cs h, hdrop _ (by simpa using h), List.reverse_reverse]

end Text

namespace Pattern

/-- Whether a text is a name: a letter or an underscore, then word characters. -/
def isName (name : String) : Bool :=
  match name.toList with
  | [] => false
  | c :: cs => isNameStart c && cs.all Text.isWordChar

/-- Names begin with letters of the basic Latin alphabet or underscores. -/
theorem toNat_of_isNameStart {c : Char} (h : isNameStart c = true) :
    (65 ≤ c.toNat ∧ c.toNat ≤ 90) ∨ (97 ≤ c.toNat ∧ c.toNat ≤ 122) ∨ c.toNat = 95 := by
  delta isNameStart Char.isAlpha Char.isUpper Char.isLower at h
  simp only [Bool.or_eq_true, Bool.and_eq_true, decide_eq_true_eq, beq_iff_eq] at h
  rcases h with (⟨hlo, hhi⟩ | ⟨hlo, hhi⟩) | rfl
  · exact Or.inl ⟨hlo, hhi⟩
  · exact Or.inr (Or.inl ⟨hlo, hhi⟩)
  · exact Or.inr (Or.inr rfl)

theorem isWordChar_of_isNameStart {c : Char} (h : isNameStart c = true) :
    Text.isWordChar c = true := by
  have hletters : ∀ n < 128, (65 ≤ n ∧ n ≤ 90) ∨ (97 ≤ n ∧ n ≤ 122) ∨ n = 95 →
      Text.wordRanges.has n = true := by decide
  have hcases := toNat_of_isNameStart h
  exact hletters c.toNat (by omega) hcases

theorem isName_cons {name : String} (h : isName name = true) :
    ∃ c cs, name.toList = c :: cs ∧ isNameStart c = true ∧ ∀ d ∈ cs, Text.isWordChar d = true := by
  unfold isName at h
  split at h
  · cases h
  · rename_i c cs hname
    simp only [Bool.and_eq_true, List.all_eq_true] at h
    exact ⟨c, cs, hname, h⟩

theorem isWordChar_of_isName {name : String} (h : isName name = true) :
    ∀ c ∈ name.toList, Text.isWordChar c = true := by
  obtain ⟨c, cs, hname, hc, hcs⟩ := isName_cons h
  rw [hname, List.forall_mem_cons]
  exact ⟨isWordChar_of_isNameStart hc, hcs⟩

/-- A name is what is read as one. -/
theorem isName_of_readName {cs more : List Char} {name : String}
    (h : readName cs = some (name, more)) : isName name = true := by
  unfold readName at h
  split at h
  · cases h
  · split at h
    · rename_i hc
      cases h
      simp only [isName, String.toList_ofList, hc, Bool.true_and]
      exact List.all_takeWhile
    · cases h

/-- A name is read up to where no word character follows. -/
theorem readName_append {name : String} (h : isName name = true) {rest : List Char}
    (hrest : ∀ c ∈ rest.head?, Text.isWordChar c = false) :
    readName (name.toList ++ rest) = some (name, rest) := by
  obtain ⟨c, cs, hname, hc, hcs⟩ := isName_cons h
  have hstop : rest.takeWhile Text.isWordChar = [] ∧ rest.dropWhile Text.isWordChar = rest := by
    cases rest with
    | nil => exact ⟨rfl, rfl⟩
    | cons d rest =>
      have hd := hrest d rfl
      rw [List.takeWhile_cons_of_neg (by simp [hd]), List.dropWhile_cons_of_neg (by simp [hd])]
      exact ⟨rfl, rfl⟩
  rw [hname, List.cons_append, readName, if_pos hc, List.takeWhile_append_of_pos hcs,
    List.dropWhile_append_of_pos hcs, hstop.1, hstop.2, List.append_nil, ← hname,
    String.ofList_toList]

/-! ## Expressible productions -/

/-- The productions that patterns express. -/
inductive Expressible : Production → Prop
  | lit {value} : Expressible (.lit value)
  | ref {name} (hn : isName name = true) : Expressible (.ref name)
  | seq {items : List Production} (hl : 2 ≤ items.length) (h : ∀ p ∈ items, Expressible p) :
    Expressible (.seq items)
  | choice {members : List Production} (hl : 2 ≤ members.length)
    (h : ∀ p ∈ members, Expressible p) : Expressible (.choice members)
  | many {p} (h : Expressible p) : Expressible (.rep p 0 false)
  | some {p} (h : Expressible p) : Expressible (.rep p 1 false)
  | opt {p} (h : Expressible p) : Expressible (.opt p)
  | blank : Expressible .blank
  | field {name p} (hn : isName name = true) (h : Expressible p) : Expressible (.field name p)

/-! ## The printed form -/

/-- A character of a literal between double quotes. -/
def escaped (c : Char) : List Char := if c = '\\' ∨ c = '"' then ['\\', c] else [c]

mutual

/-- A production as a pattern. Node kinds, precedences and recovery, which patterns cannot express,
are left out. -/
def spell : Production → List Char
  | .lit value => '"' :: (value.toList.flatMap escaped ++ ['"'])
  | .ref name => '<' :: (name.toList ++ ['>'])
  | .seq items => '(' :: (spellAll ' ' items ++ [')'])
  | .choice members => '(' :: (spellAll '|' members ++ [')'])
  | .rep p least _ => if least = 0 then '[' :: (spell p ++ [']']) else '{' :: (spell p ++ ['}'])
  | .opt p => '(' :: (spell p ++ [')', '?'])
  | .blank => ['(', ')']
  | .field name p => '(' :: (spell p ++ ')' :: ':' :: name.toList)
  | .renamed p _ => spell p
  | .prec _ p _ _ => spell p

/-- Productions as patterns with a separator between them. -/
def spellAll (separator : Char) : List Production → List Char
  | [] => []
  | [p] => spell p
  | p :: ps => spell p ++ separator :: spellAll separator ps

end

/-- The printed form of a production. -/
def print (p : Production) : String := String.ofList (spell p)

/-! ## Lexing what is printed -/

/-- What follows a printed production in a larger pattern: nothing, a separator or the end of a
group. -/
def Stops (rest : List Char) : Prop := ∀ c ∈ rest.head?, c ∈ [' ', '|', ')', ']', '}']

theorem stops_nil : Stops [] := nofun

theorem stops_cons {c : Char} {rest : List Char} (h : c ∈ [' ', '|', ')', ']', '}']) :
    Stops (c :: rest) := by
  intro d hd
  cases hd
  exact h

theorem Stops.head {c : Char} {rest : List Char} (h : Stops rest) (hc : c ∈ rest.head?) :
    c = ' ' ∨ c = '|' ∨ c = ')' ∨ c = ']' ∨ c = '}' := by
  simpa only [List.mem_cons, List.not_mem_nil, or_false] using h c hc

theorem Stops.readField {rest : List Char} (h : Stops rest) : readField rest = ([], rest) := by
  cases rest with
  | nil => rfl
  | cons c rest =>
    have hc : c ≠ ':' := by
      rintro rfl
      exact absurd (h ':' rfl) (by decide)
    unfold Pattern.readField
    split
    · rename_i heq
      exact absurd (List.cons.inj heq).1 hc
    · rfl

theorem Stops.readSuffix {rest : List Char} (h : Stops rest) : readSuffix rest = ([], rest) := by
  have hquantifier : readQuantifier rest = ([], rest) := by
    cases rest with
    | nil => rfl
    | cons c rest =>
      have hc : quantifier? c = none := by
        obtain rfl | rfl | rfl | rfl | rfl := h.head rfl <;> rfl
      rw [readQuantifier, hc]
  rw [Pattern.readSuffix, hquantifier]
  simp only [h.readField, List.append_nil]

theorem Stops.isWordChar {rest : List Char} (h : Stops rest) :
    ∀ c ∈ rest.head?, Text.isWordChar c = false := by
  intro c hc
  obtain rfl | rfl | rfl | rfl | rfl := h.head hc <;> decide

theorem readQuoted_escaped (cs rest : List Char) :
    readQuoted '"' (cs.flatMap escaped ++ '"' :: rest) = some (cs, rest) := by
  induction cs with
  | nil => cases rest <;> rfl
  | cons c cs ih =>
    rw [List.flatMap_cons, List.append_assoc, escaped]
    by_cases hc : c = '\\' ∨ c = '"'
    · rw [if_pos hc, List.cons_append, List.cons_append, readQuoted, if_pos rfl]
      rw [List.nil_append, ih]
      rfl
    · rw [not_or] at hc
      rw [if_neg (by simp [hc]), List.singleton_append]
      obtain ⟨d, more, hmore⟩ : ∃ d more, cs.flatMap escaped ++ '"' :: rest = d :: more :=
        List.exists_cons_of_ne_nil (by simp)
      rw [hmore] at ih ⊢
      rw [readQuoted, if_neg hc.1, if_neg hc.2, ih]
      rfl

theorem lex_cons (c : Char) (rest : List Char) :
    lex (c :: rest) = (firstLexemes c rest).1 ++ lex (firstLexemes c rest).2 := by rw [lex]

theorem lex_literal (value : String) {rest : List Char} (h : Stops rest) :
    lex (spell (.lit value) ++ rest) = .literal value :: lex rest := by
  have hfirst : firstLexemes '"' (value.toList.flatMap escaped ++ '"' :: rest) =
      ([.literal value], rest) := by
    unfold firstLexemes
    simp [readQuoted_escaped, h.readSuffix]
  rw [spell, List.cons_append, List.append_assoc, List.singleton_append, lex_cons, hfirst]
  rfl

theorem lex_reference {name : String} (hn : isName name = true) (rest : List Char) :
    lex (spell (.ref name) ++ rest) = .reference name :: lex rest := by
  have hword := isWordChar_of_isName hn
  have hangle : ∀ c ∈ name.toList, (c != '>') = true := by
    intro c hc
    refine bne_iff_ne.2 ?_
    rintro rfl
    exact absurd (hword '>' hc) (by decide)
  have hlexemes : referenceLexemes name.toList = [.reference name] := by
    have hread : readName (name.toList ++ []) = some (name, []) := readName_append hn nofun
    rw [List.append_nil] at hread
    unfold referenceLexemes
    rw [hread]
    rfl
  have hfirst : firstLexemes '<' (name.toList ++ '>' :: rest) = ([.reference name], rest) := by
    have htake : (name.toList ++ '>' :: rest).takeWhile (· != '>') = name.toList := by
      rw [List.takeWhile_append_of_pos hangle]
      exact List.append_nil _
    have hdrop : (name.toList ++ '>' :: rest).dropWhile (· != '>') = '>' :: rest := by
      rw [List.dropWhile_append_of_pos hangle]
      rfl
    unfold firstLexemes
    simp only [hdrop, htake]
    rw [Text.trimBlank_eq_self fun c hc => Text.isBlank_of_isWordChar (hword c hc), hlexemes]
  rw [spell, List.cons_append, List.append_assoc, List.singleton_append, lex_cons, hfirst]
  rfl

theorem lex_openRound (rest : List Char) : lex ('(' :: rest) = .opening .round :: lex rest :=
  lex_cons _ _

theorem lex_openSquare (rest : List Char) : lex ('[' :: rest) = .opening .square :: lex rest :=
  lex_cons _ _

theorem lex_openCurly (rest : List Char) : lex ('{' :: rest) = .opening .curly :: lex rest :=
  lex_cons _ _

theorem lex_bar (rest : List Char) : lex ('|' :: rest) = .bar :: lex rest := lex_cons _ _

theorem lex_space (rest : List Char) : lex (' ' :: rest) = lex rest := lex_cons _ _

/-- A closed group takes in its suffix. -/
theorem lex_closeRound {rest more : List Char} {suffix : List Lexeme}
    (h : readSuffix rest = (suffix, more)) :
    lex (')' :: rest) = .closing .round :: (suffix ++ lex more) := by
  have hfirst : firstLexemes ')' rest = (.closing .round :: suffix, more) := by
    show (Lexeme.closing .round :: (readSuffix rest).1, (readSuffix rest).2) = _
    rw [h]
  rw [lex_cons, hfirst, List.cons_append]

theorem lex_closeSquare {rest : List Char} (h : Stops rest) :
    lex (']' :: rest) = .closing .square :: lex rest := by
  have hfirst : firstLexemes ']' rest = ([.closing .square], rest) := by
    show (Lexeme.closing .square :: (readField rest).1, (readField rest).2) = _
    rw [h.readField]
  rw [lex_cons, hfirst]
  rfl

theorem lex_closeCurly {rest : List Char} (h : Stops rest) :
    lex ('}' :: rest) = .closing .curly :: lex rest := by
  have hfirst : firstLexemes '}' rest = ([.closing .curly], rest) := by
    show (Lexeme.closing .curly :: (readField rest).1, (readField rest).2) = _
    rw [h.readField]
  rw [lex_cons, hfirst]
  rfl

/-! ## Reading what is printed -/

/-- A printed production is added to the open group, wherever it stands. -/
def Returns (p : Production) : Prop :=
  ∀ outer frame rest, Stops rest →
    readLexemes outer frame (lex (spell p ++ rest)) = readLexemes outer (frame.push p) (lex rest)

variable {outer : List (Bracket × Frame)} {frame : Frame} {rest : List Char} {p : Production}
  {ps : List Production}

theorem Returns.enclosed (h : Returns p) {b : Bracket} {ls : List Lexeme} (hstop : Stops rest)
    (hrest : lex rest = .closing b :: ls) :
    readLexemes outer frame (.opening b :: lex (spell p ++ rest)) =
      readLexemes outer (frame.push (b.enclose p)) ls := by
  rw [readLexemes, h _ _ _ hstop, hrest, readLexemes, if_pos rfl]
  rfl

/-- Productions with spaces between them are added one after another. -/
theorem readLexemes_row (h : ∀ p ∈ ps, Returns p) (hstop : Stops rest) :
    readLexemes outer frame (lex (spellAll ' ' ps ++ rest)) =
      readLexemes outer { frame with items := ps.reverse ++ frame.items } (lex rest) := by
  induction ps generalizing frame with
  | nil => rfl
  | cons p ps ih =>
    rw [List.forall_mem_cons] at h
    cases ps with
    | nil => exact h.1 _ _ _ hstop
    | cons q ps =>
      have hspell : spellAll ' ' (p :: q :: ps) ++ rest =
          spell p ++ ' ' :: (spellAll ' ' (q :: ps) ++ rest) := by
        simp [spellAll]
      rw [hspell, h.1 _ _ _ (stops_cons (by decide)), lex_space, ih h.2]
      simp [Frame.push]

/-- Productions with bars between them are the branches of a choice. -/
theorem readLexemes_branches (outer : List (Bracket × Frame)) (branches : List Production)
    (h : ∀ q ∈ p :: ps, Returns q) (hstop : Stops rest) (hne : branches ≠ [] ∨ ps ≠ []) :
    ∃ last : Frame, last.close = .choice (branches.reverse ++ p :: ps) ∧
      readLexemes outer ⟨branches, []⟩ (lex (spellAll '|' (p :: ps) ++ rest)) =
        readLexemes outer last (lex rest) := by
  induction ps generalizing p branches with
  | nil =>
    refine ⟨⟨branches, [p]⟩, ?_, (h p List.mem_cons_self) _ _ _ hstop⟩
    cases branches with
    | nil => exact absurd hne (by simp)
    | cons b branches => simp [Frame.close, packed]
  | cons q ps ih =>
    rw [List.forall_mem_cons] at h
    obtain ⟨last, hclose, hread⟩ := ih (p :: branches) h.2 (Or.inl nofun)
    refine ⟨last, by simpa using hclose, ?_⟩
    have hspell : spellAll '|' (p :: q :: ps) ++ rest =
        spell p ++ '|' :: (spellAll '|' (q :: ps) ++ rest) := by
      simp [spellAll]
    rw [hspell, h.1 _ _ _ (stops_cons (by decide)), lex_bar, readLexemes]
    exact hread

/-- The items of a sequence are packed as it. -/
theorem packed_reverse {items : List Production} (h : 2 ≤ items.length) :
    packed items.reverse = .seq items := by
  have hlength : 2 ≤ items.reverse.length := by rwa [List.length_reverse]
  match hr : items.reverse, hlength with
  | p :: q :: rest, _ => exact congrArg Production.seq (by rw [← hr, List.reverse_reverse])

/-- **Expressible productions are read back wherever they stand.** -/
theorem Expressible.returns (h : Expressible p) : Returns p := by
  induction h with
  | lit =>
    intro outer frame rest hstop
    rw [lex_literal _ hstop, readLexemes]
  | ref hn =>
    intro outer frame rest _
    rw [lex_reference hn, readLexemes]
  | @seq items hl _ ih =>
    intro outer frame rest hstop
    simp only [spell, List.cons_append, List.append_assoc, List.nil_append]
    rw [lex_openRound, readLexemes, readLexemes_row ih (stops_cons (by decide)),
      lex_closeRound hstop.readSuffix, readLexemes, if_pos rfl, List.append_nil]
    show readLexemes outer (frame.push (packed items.reverse)) (lex rest) = _
    rw [packed_reverse hl]
  | @choice members hl _ ih =>
    intro outer frame rest hstop
    simp only [spell, List.cons_append, List.append_assoc, List.nil_append]
    match members, hl with
    | p :: q :: members, _ =>
      have hstop' : Stops (')' :: rest) := stops_cons (by decide)
      obtain ⟨last, hclose, hread⟩ :=
        readLexemes_branches ((.round, frame) :: outer) [] ih hstop' (Or.inr nofun)
      rw [lex_openRound, readLexemes, hread, lex_closeRound hstop.readSuffix, readLexemes,
        if_pos rfl, hclose]
      rfl
  | many _ ih =>
    intro outer frame rest hstop
    simp only [spell, if_true, List.cons_append, List.append_assoc, List.nil_append]
    exact (lex_openSquare _).symm ▸ ih.enclosed (stops_cons (by decide)) (lex_closeSquare hstop)
  | some _ ih =>
    intro outer frame rest hstop
    simp only [spell, Int.one_ne_zero, if_false, List.cons_append, List.append_assoc, List.nil_append]
    exact (lex_openCurly _).symm ▸ ih.enclosed (stops_cons (by decide)) (lex_closeCurly hstop)
  | opt _ ih =>
    intro outer frame rest hstop
    have hsuffix : readSuffix ('?' :: rest) = ([.quantifier .optional], rest) := by
      simp [readSuffix, readQuantifier, quantifier?, hstop.readField]
    simp only [spell, List.cons_append, List.append_assoc, List.nil_append]
    rw [lex_openRound, ih.enclosed (stops_cons (by decide)) (lex_closeRound hsuffix)]
    rfl
  | blank =>
    intro outer frame rest hstop
    simp only [spell, List.cons_append, List.nil_append]
    rw [lex_openRound, lex_closeRound hstop.readSuffix, readLexemes, readLexemes, if_pos rfl]
    rfl
  | @field name p hn _ ih =>
    intro outer frame rest hstop
    have hsuffix : readSuffix (':' :: (name.toList ++ rest)) = ([.fieldName name], rest) := by
      simp [readSuffix, readQuantifier, quantifier?, readField, readName_append hn hstop.isWordChar]
    simp only [spell, List.cons_append, List.append_assoc]
    rw [lex_openRound, ih.enclosed (stops_cons (by decide)) (lex_closeRound hsuffix)]
    rfl

/-- An expressible production is read back from its printed form, without notes. -/
theorem read_print (h : Expressible p) : read (print p) = pure p := by
  have hread := h.returns [] {} [] stops_nil
  rw [List.append_nil, lex] at hread
  rw [read, print, String.toList_ofList, hread]
  rfl

end Pattern

end LayeredGrammar
