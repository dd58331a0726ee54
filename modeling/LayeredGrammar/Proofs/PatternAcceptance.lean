import LayeredGrammar.Proofs.Pattern.Printing

/-!
# Which patterns can be read

A pattern can be read if and only if a scan from left to right, with a stack of the open groups, gets to
its end with no group open (`Pattern.read_accepts`). `Pattern.Step` says what one step of the scan takes,
without regard to what the pattern means, and `Pattern.Scanned` puts the steps in a row.

The lexer takes what a step takes (`Step.firstLexemes`, `Pattern.step_of_advance`): its lexemes open
and close the same groups (`Lexeme.advance`), and it goes on where the step ends.
-/

namespace LayeredGrammar.Pattern

/-! ## The scan -/

/-- A quantifier may stand at the front of a text; the rest follows. -/
inductive Quantified : List Char → List Char → Prop
  | absent {cs} (h : ∀ c ∈ cs.head?, c ∉ ['?', '*', '+']) : Quantified cs cs
  | mark {c cs} (h : c ∈ ['?', '*', '+']) : Quantified (c :: cs) cs

/-- A colon at the front of a text has a name directly after it; the rest follows. -/
inductive FieldMarked : List Char → List Char → Prop
  | absent {cs} (h : ':' ∉ cs.head?) : FieldMarked cs cs
  | mark {name : String} {cs} (hname : isName name = true)
    (hend : ∀ c ∈ cs.head?, Text.isWordChar c = false) : FieldMarked (':' :: (name.toList ++ cs)) cs

/-- The text after an opening quote closes the literal before the rest. -/
inductive Quoted : Char → List Char → List Char → Prop
  | close {quote rest} (h : quote = '\'' → '\'' ∉ rest.head?) : Quoted quote (quote :: rest) rest
  | escaped {quote c cs rest} (h : Quoted quote cs rest) : Quoted quote ('\\' :: c :: cs) rest
  | doubled {cs rest} (h : Quoted '\'' cs rest) : Quoted '\'' ('\'' :: '\'' :: cs) rest
  | other {quote c cs rest} (hc : c ≠ '\\' ∧ c ≠ quote) (h : Quoted quote cs rest) :
    Quoted quote (c :: cs) rest

/-- What may follow the name and quantifier of a reference: nothing, or a colon, with blanks around it,
and a name. -/
def IsReferenceField (cs : List Char) : Prop :=
  cs = [] ∨ ∃ (before after : List Char) (target : String),
    (∀ c ∈ before ++ after, Text.isBlank c = true) ∧ isName target = true ∧
    cs = before ++ ':' :: (after ++ target.toList)

/-- What may stand between angle brackets, without outer blanks: a name, directly after it at most one
quantifier, and at most one field name. -/
def IsReference (content : List Char) : Prop :=
  ∃ (name : String) (after field : List Char), isName name = true ∧
    content = name.toList ++ after ∧ Quantified after field ∧ IsReferenceField field

/-- One step of the scan, from the open groups and the text ahead to those after it. -/
inductive Step : List Bracket → List Char → List Bracket → List Char → Prop
  | blank {stack c rest} (h : Text.isBlank c = true) : Step stack (c :: rest) stack rest
  | bar {stack rest} : Step stack ('|' :: rest) stack rest
  | opening {stack rest} (b : Bracket) : Step stack (b.opener :: rest) (b :: stack) rest
  | closeRound {stack cs mid rest} (hq : Quantified cs mid) (hf : FieldMarked mid rest) :
    Step (.round :: stack) (')' :: cs) stack rest
  | close {stack b cs rest} (hb : b ≠ .round) (hf : FieldMarked cs rest) :
    Step (b :: stack) (b.closer :: cs) stack rest
  | reference {stack inside rest} (hinside : '>' ∉ inside)
    (h : IsReference (Text.trimBlank inside)) : Step stack ('<' :: (inside ++ '>' :: rest)) stack rest
  | literal {stack quote cs after mid rest} (hquote : quote = '\'' ∨ quote = '"')
    (h : Quoted quote cs after) (hq : Quantified after mid) (hf : FieldMarked mid rest) :
    Step stack (quote :: cs) stack rest
  | bare {stack c run rest} (hrun : ∀ d ∈ c :: run, isBareChar d = true)
    (hend : ∀ d ∈ rest.head?, isBareChar d = false) : Step stack (c :: (run ++ rest)) stack rest

/-- The scan gets to the end of a text with no group open. -/
inductive Scanned : List Bracket → List Char → Prop
  | done : Scanned [] []
  | step {stack cs stack' rest} (h : Step stack cs stack' rest) (hs : Scanned stack' rest) :
    Scanned stack cs

/-! ## Open groups -/

/-- The open groups after a lexeme, unless it does not fit. -/
def Lexeme.advance (stack : List Bracket) : Lexeme → Option (List Bracket)
  | .opening b => some (b :: stack)
  | .closing b =>
    match stack with
    | [] => none
    | b' :: stack => if b = b' then some stack else none
  | .fault _ => none
  | _ => some stack

/-- Lexemes are read as far as their groups are balanced and there is no fault. -/
theorem readLexemes_isOk {outer : List (Bracket × Frame)} {frame : Frame} {ls : List Lexeme} :
    (∃ p, (readLexemes outer frame ls).outcome = .ok p) ↔
      ls.foldlM Lexeme.advance (outer.map (·.1)) = some [] := by
  induction ls generalizing outer frame with
  | nil =>
    cases outer with
    | nil => exact ⟨fun _ => rfl, fun _ => ⟨_, rfl⟩⟩
    | cons e outer =>
      constructor
      · rintro ⟨_, h⟩
        cases h
      · intro h
        cases h
  | cons l ls ih =>
    rw [List.foldlM_cons]
    cases l with
    | closing b =>
      cases outer with
      | nil =>
        constructor
        · rintro ⟨_, h⟩
          cases h
        · intro h
          cases h
      | cons e outer =>
        simp only [readLexemes, List.map_cons, Lexeme.advance]
        split
        · exact ih
        · constructor
          · rintro ⟨_, h⟩
            cases h
          · intro h
            cases h
    | bare word =>
      simp only [readLexemes]
      split
      · simp only [Traced.outcome_bind]
        constructor
        · rintro ⟨p, _, _, h⟩
          exact ih.1 ⟨p, h⟩
        · intro h
          obtain ⟨p, hp⟩ := ih.2 h
          exact ⟨p, (), rfl, hp⟩
      · exact ih
    | fault f =>
      constructor
      · rintro ⟨_, h⟩
        cases h
      · intro h
        cases h
    | _ => exact ih

/-! ## Names and suffixes -/

theorem head?_dropWhile {α : Type} (test : α → Bool) (l : List α) :
    ∀ a ∈ (l.dropWhile test).head?, test a = false := by
  intro a ha
  have hhead := List.head?_dropWhile_not test l
  rw [Option.mem_def.1 ha] at hhead
  simpa using hhead

theorem readName_eq_some {cs more : List Char} {name : String} :
    readName cs = some (name, more) ↔ isName name = true ∧
      (∀ c ∈ more.head?, Text.isWordChar c = false) ∧ cs = name.toList ++ more := by
  constructor
  · intro h
    refine ⟨isName_of_readName h, ?_⟩
    unfold readName at h
    split at h
    · cases h
    · split at h
      · cases h
        rw [String.toList_ofList, List.cons_append, List.takeWhile_append_dropWhile]
        exact ⟨head?_dropWhile _ _, rfl⟩
      · cases h
  · rintro ⟨hname, hend, rfl⟩
    exact readName_append hname hend

variable {stack stack' : List Bracket} {cs rest : List Char}

theorem quantifier?_eq_none {c : Char} : quantifier? c = none ↔ c ∉ ['?', '*', '+'] := by
  unfold quantifier?
  split <;> simp_all

theorem quantified_iff : Quantified cs rest ↔ (readQuantifier cs).2 = rest := by
  constructor
  · rintro (h | h)
    · cases cs with
      | nil => rfl
      | cons c cs => rw [readQuantifier, quantifier?_eq_none.2 (h c rfl)]
    · obtain ⟨q, hq⟩ := Option.ne_none_iff_exists'.1 fun hnone => quantifier?_eq_none.1 hnone h
      rw [readQuantifier, hq]
  · rintro rfl
    unfold readQuantifier
    split
    · refine .absent fun d hd => ?_
      cases hd
    · rename_i c cs
      split
      · rename_i q hq
        refine .mark (Decidable.byContradiction fun hc => ?_)
        rw [quantifier?_eq_none.2 hc] at hq
        cases hq
      · rename_i hnone
        refine .absent fun d hd => ?_
        cases hd
        exact quantifier?_eq_none.1 hnone

theorem advance_readQuantifier (stack : List Bracket) (cs : List Char) :
    (readQuantifier cs).1.foldlM Lexeme.advance stack = some stack := by
  unfold readQuantifier
  split
  · rfl
  · split <;> rfl

/-- A field name is read where there is one, and there is no fault if there is none. -/
theorem fieldMarked_iff : FieldMarked cs rest ∧ stack = stack' ↔
    (readField cs).1.foldlM Lexeme.advance stack = some stack' ∧ (readField cs).2 = rest := by
  constructor
  · rintro ⟨h | ⟨hname, hend⟩, rfl⟩
    · unfold readField
      split
      · exact absurd rfl h
      · exact ⟨rfl, rfl⟩
    · rw [readField, readName_append hname hend]
      exact ⟨rfl, rfl⟩
  · unfold readField
    split
    · split
      · rename_i hread
        obtain ⟨hname, hend, heq⟩ := readName_eq_some.1 hread
        rintro ⟨hstack, rfl⟩
        cases hstack
        exact ⟨heq ▸ .mark hname hend, rfl⟩
      · rintro ⟨h, _⟩
        cases h
    · rename_i hcolon
      rintro ⟨hstack, rfl⟩
      cases hstack
      refine ⟨.absent fun hmem => ?_, rfl⟩
      obtain ⟨more, rfl⟩ := List.head?_eq_some_iff.1 (Option.mem_def.1 hmem)
      exact hcolon more rfl

theorem suffixed_iff : (∃ mid, Quantified cs mid ∧ FieldMarked mid rest) ∧ stack = stack' ↔
    (readSuffix cs).1.foldlM Lexeme.advance stack = some stack' ∧ (readSuffix cs).2 = rest := by
  have hsuffix : (readSuffix cs).1.foldlM Lexeme.advance stack =
      (readField (readQuantifier cs).2).1.foldlM Lexeme.advance stack := by
    rw [readSuffix, List.foldlM_append, advance_readQuantifier]
    rfl
  rw [hsuffix]
  refine Iff.trans ?_ fieldMarked_iff
  constructor
  · rintro ⟨⟨mid, hq, hf⟩, hstack⟩
    rw [quantified_iff.1 hq]
    exact ⟨hf, hstack⟩
  · rintro ⟨hf, hstack⟩
    exact ⟨⟨_, quantified_iff.2 rfl, hf⟩, hstack⟩

/-! ## Literals -/

/-- A literal is read up to the quote that closes it. -/
theorem quoted_iff {quote : Char} (hquote : quote ≠ '\\') :
    Quoted quote cs rest ↔ ∃ value, readQuoted quote cs = some (value, rest) := by
  constructor
  · intro h
    induction h with
    | @close quote rest h =>
      cases rest with
      | nil => exact ⟨[], if_pos rfl⟩
      | cons d rest =>
        refine ⟨[], ?_⟩
        rw [readQuoted, if_neg hquote, if_pos rfl, if_neg]
        rintro ⟨rfl, rfl⟩
        exact h rfl rfl
    | escaped _ ih =>
      obtain ⟨value, hvalue⟩ := ih hquote
      exact ⟨_ :: value, by rw [readQuoted, if_pos rfl, hvalue, Option.map_some]⟩
    | doubled _ ih =>
      obtain ⟨value, hvalue⟩ := ih hquote
      refine ⟨'\'' :: value, ?_⟩
      rw [readQuoted, if_neg hquote, if_pos rfl, if_pos ⟨rfl, rfl⟩, hvalue, Option.map_some]
    | @other quote c cs rest hc _ ih =>
      obtain ⟨value, hvalue⟩ := ih hquote
      cases cs with
      | nil => cases hvalue
      | cons d cs =>
        exact ⟨c :: value, by rw [readQuoted, if_neg hc.1, if_neg hc.2, hvalue, Option.map_some]⟩
  · rintro ⟨value, h⟩
    fun_induction readQuoted quote cs generalizing value with
    | case1 => cases h
    | case2 =>
      cases h
      exact .close fun _ h => by cases h
    | case3 => cases h
    | case4 d cs ih =>
      obtain ⟨⟨value, _⟩, hvalue, heq⟩ := Option.map_eq_some_iff.1 h
      cases heq
      exact .escaped (ih value hvalue)
    | case5 c cs hd _ ih =>
      obtain ⟨⟨value, _⟩, hvalue, heq⟩ := Option.map_eq_some_iff.1 h
      cases heq
      obtain ⟨rfl, rfl⟩ := hd
      exact .doubled (ih value hvalue)
    | case6 d cs hd =>
      cases h
      refine .close fun hq hmem => hd ⟨hq, ?_⟩
      exact Option.some.inj hmem
    | case7 c d cs hc hq ih =>
      obtain ⟨⟨value, _⟩, hvalue, heq⟩ := Option.map_eq_some_iff.1 h
      cases heq
      exact .other ⟨hc, hq⟩ (ih value hvalue)

/-! ## References -/

/-- A field name is read if the text does not end in a blank. -/
theorem referenceField_iff (hend : ∀ c ∈ cs.getLast?, Text.isBlank c = false) :
    (∃ ls, referenceField? cs = some ls) ↔ IsReferenceField cs := by
  constructor
  · rintro ⟨ls, h⟩
    have hcs := List.takeWhile_append_dropWhile (p := Text.isBlank) (l := cs)
    unfold referenceField? at h
    split at h
    · rename_i hdrop
      rw [hdrop, List.append_nil] at hcs
      refine Or.inl (List.getLast?_eq_none_iff.1 (Option.eq_none_iff_forall_not_mem.2 fun c hc => ?_))
      have hblank := List.all_eq_true.1 List.all_takeWhile c (hcs.symm ▸ List.mem_of_getLast? hc)
      rw [hend c hc] at hblank
      cases hblank
    · rename_i rest hdrop
      split at h
      · rename_i field hname
        obtain ⟨hname, _, htarget⟩ := readName_eq_some.1 hname
        rw [List.append_nil] at htarget
        have hrest := List.takeWhile_append_dropWhile (p := Text.isBlank) (l := rest)
        refine Or.inr ⟨cs.takeWhile Text.isBlank, rest.takeWhile Text.isBlank, field, ?_, hname, ?_⟩
        · rw [List.forall_mem_append]
          exact ⟨List.all_eq_true.1 List.all_takeWhile, List.all_eq_true.1 List.all_takeWhile⟩
        · rw [← htarget, hrest, ← hdrop, hcs]
      · cases h
    · cases h
  · rintro (rfl | ⟨before, after, target, hblank, htarget, rfl⟩)
    · exact ⟨[], rfl⟩
    · rw [List.forall_mem_append] at hblank
      have hread : readName target.toList = some (target, []) :=
        readName_eq_some.2 ⟨htarget, nofun, (List.append_nil _).symm⟩
      have hafter : (after ++ target.toList).dropWhile Text.isBlank = target.toList := by
        obtain ⟨c, cs, htext, hc, _⟩ := isName_cons htarget
        have hstart := Text.isBlank_of_isWordChar (isWordChar_of_isNameStart hc)
        rw [List.dropWhile_append_of_pos hblank.2, htext, List.dropWhile_cons_of_neg (by simp [hstart])]
      refine ⟨[.fieldName target], ?_⟩
      unfold referenceField?
      rw [List.dropWhile_append_of_pos hblank.1, List.dropWhile_cons_of_neg (by decide)]
      simp only [hafter, hread]

/-- What follows the name and quantifier of a reference does not go on with the name. -/
theorem IsReferenceField.head (h : IsReferenceField cs) :
    ∀ c ∈ cs.head?, Text.isWordChar c = false := by
  rcases h with rfl | ⟨before, after, target, hblank, _, rfl⟩
  · exact nofun
  · intro c hc
    cases before with
    | nil =>
      cases hc
      decide
    | cons b before =>
      cases hc
      refine Bool.eq_false_iff.2 fun hword => ?_
      have hb := hblank c List.mem_cons_self
      rw [Text.isBlank_of_isWordChar hword] at hb
      cases hb

theorem isWordChar_of_quantifier {c : Char} (h : c ∈ ['?', '*', '+']) :
    Text.isWordChar c = false := by
  have hall : ['?', '*', '+'].all (!Text.isWordChar ·) = true := by decide
  simpa using List.all_eq_true.1 hall c h

/-- What stands between angle brackets is a reference if its parts can be read. -/
theorem isReference_iff {content : List Char}
    (hend : ∀ c ∈ content.getLast?, Text.isBlank c = false) :
    IsReference content ↔ ∃ found, readName content = some found ∧
      ∃ ls, referenceField? (readQuantifier found.2).2 = some ls := by
  -- the end of a text is that of what is left of it
  have hlast : ∀ {name : String} {after field : List Char}, content = name.toList ++ after →
      Quantified after field → ∀ c ∈ field.getLast?, Text.isBlank c = false := by
    rintro name after field rfl hq c hc
    have hafter : c ∈ after.getLast? := by
      cases hq with
      | absent => exact hc
      | mark => rw [List.getLast?_cons, Option.mem_def.1 hc, Option.getD_some, Option.mem_some_iff]
    exact hend c (by rw [List.getLast?_append, Option.mem_def.1 hafter]; rfl)
  constructor
  · rintro ⟨name, after, field, hname, hcontent, hq, hfield⟩
    have hword : ∀ c ∈ after.head?, Text.isWordChar c = false := by
      cases hq with
      | absent => exact hfield.head
      | mark h =>
        intro c hc
        cases hc
        exact isWordChar_of_quantifier h
    refine ⟨(name, after), readName_eq_some.2 ⟨hname, hword, hcontent⟩, ?_⟩
    rw [quantified_iff.1 hq]
    exact (referenceField_iff (hlast hcontent hq)).2 hfield
  · rintro ⟨⟨name, after⟩, hread, hfield⟩
    obtain ⟨hname, _, hcontent⟩ := readName_eq_some.1 hread
    have hq : Quantified after (readQuantifier after).2 := quantified_iff.2 rfl
    exact ⟨name, after, _, hname, hcontent, hq, (referenceField_iff (hlast hcontent hq)).1 hfield⟩

theorem advance_referenceField {ls : List Lexeme} (h : referenceField? cs = some ls)
    (stack : List Bracket) : ls.foldlM Lexeme.advance stack = some stack := by
  unfold referenceField? at h
  split at h
  · cases h
    rfl
  · split at h
    · cases h
      rfl
    · cases h
  · cases h

/-- A reference is read if what stands between the angle brackets is one. -/
theorem reference_iff {content : List Char}
    (hend : ∀ c ∈ content.getLast?, Text.isBlank c = false) : IsReference content ∧ stack = stack' ↔
    (referenceLexemes content).foldlM Lexeme.advance stack = some stack' := by
  rw [isReference_iff hend]
  unfold referenceLexemes
  cases hname : readName content with
  | none => exact ⟨fun ⟨⟨_, h, _⟩, _⟩ => (nomatch h), nofun⟩
  | some found =>
    cases hfield : referenceField? (readQuantifier found.2).2 with
    | none =>
      simp only [hfield, bind, Option.bind, Option.getD_none]
      refine ⟨?_, nofun⟩
      rintro ⟨⟨_, h, ls, hls⟩, _⟩
      cases h
      rw [hfield] at hls
      cases hls
    | some field =>
      simp only [hfield, Option.bind_eq_bind, Option.bind_some, Option.getD_some, List.cons_append,
        List.foldlM_cons, List.foldlM_append]
      simp only [Lexeme.advance, Option.bind_some, advance_readQuantifier,
        advance_referenceField hfield, Option.some.injEq]
      exact ⟨fun h => h.2, fun h => ⟨⟨found, rfl, field, hfield⟩, h⟩⟩

/-! ## The lexer -/

theorem getLast?_trimBlank (cs : List Char) :
    ∀ c ∈ (Text.trimBlank cs).getLast?, Text.isBlank c = false := by
  rw [Text.trimBlank, List.getLast?_reverse]
  exact head?_dropWhile _ _

theorem firstLexemes_of_blank {c : Char} (h : Text.isBlank c = true) :
    firstLexemes c cs = ([], cs) := by
  unfold firstLexemes
  split
  case h_10 =>
    rw [if_neg, if_pos h]
    rintro (rfl | rfl) <;> exact absurd h (by decide)
  all_goals exact absurd h (by decide)

theorem isBareChar_iff {c : Char} : isBareChar c = true ↔ Text.isBlank c = false ∧
    c ∉ ['<', '>', '[', ']', '\x7b', '\x7d', '(', ')', '|', '\'', '"'] := by
  have hspecial : "<>[]\x7b\x7d()|'\"".toList =
      ['<', '>', '[', ']', '\x7b', '\x7d', '(', ')', '|', '\'', '"'] := rfl
  rw [isBareChar, hspecial, Bool.not_eq_true', Bool.or_eq_false_iff,
    ← Bool.not_eq_true (List.contains _ _), List.contains_iff_mem]

theorem firstLexemes_of_bare {c : Char} (h : isBareChar c = true) :
    firstLexemes c cs =
      ([.bare (String.ofList (c :: cs.takeWhile isBareChar))], cs.dropWhile isBareChar) := by
  unfold firstLexemes
  split
  case h_10 =>
    rw [if_neg, if_neg]
    · intro hblank
      rw [isBareChar, hblank] at h
      cases h
    · rintro (rfl | rfl) <;> exact absurd h (by decide)
  all_goals exact absurd h (by decide)

theorem firstLexemes_of_quoted {quote : Char} (hquote : quote = '\'' ∨ quote = '"') {after : List Char}
    (h : Quoted quote cs after) : ∃ value, firstLexemes quote cs =
      (.literal value :: (readSuffix after).1, (readSuffix after).2) := by
  have hne : quote ≠ '\\' := by rcases hquote with rfl | rfl <;> decide
  obtain ⟨value, hvalue⟩ := (quoted_iff hne).1 h
  refine ⟨String.ofList value, ?_⟩
  rcases hquote with rfl | rfl
  · simp [firstLexemes, hvalue]
  · simp [firstLexemes, hvalue]

theorem firstLexemes_of_angle {inside : List Char} (h : '>' ∉ inside) (rest : List Char) :
    firstLexemes '<' (inside ++ '>' :: rest) = (referenceLexemes (Text.trimBlank inside), rest) := by
  have hall : ∀ c ∈ inside, (c != '>') = true := fun c hc => bne_iff_ne.2 fun heq => h (heq ▸ hc)
  have hdrop : (inside ++ '>' :: rest).dropWhile (· != '>') = '>' :: rest := by
    rw [List.dropWhile_append_of_pos hall]
    rfl
  have htake : (inside ++ '>' :: rest).takeWhile (· != '>') = inside := by
    rw [List.takeWhile_append_of_pos hall]
    exact List.append_nil _
  simp only [firstLexemes, hdrop, htake]

/-- What a step takes, the lexer takes. -/
theorem Step.firstLexemes {c : Char} (h : Step stack (c :: cs) stack' rest) :
    (firstLexemes c cs).1.foldlM Lexeme.advance stack = some stack' ∧ (firstLexemes c cs).2 = rest := by
  cases h with
  | blank h =>
    rw [firstLexemes_of_blank h]
    exact ⟨rfl, rfl⟩
  | bar => exact ⟨rfl, rfl⟩
  | opening b => cases b <;> exact ⟨rfl, rfl⟩
  | closeRound hq hf => exact suffixed_iff.1 ⟨⟨_, hq, hf⟩, rfl⟩
  | @close _ b _ _ hb hf =>
    cases b with
    | round => exact absurd rfl hb
    | square => exact fieldMarked_iff.1 ⟨hf, rfl⟩
    | curly => exact fieldMarked_iff.1 ⟨hf, rfl⟩
  | reference hinside h =>
    rw [firstLexemes_of_angle hinside]
    exact ⟨(reference_iff (getLast?_trimBlank _)).1 ⟨h, rfl⟩, rfl⟩
  | literal hquote h hq hf =>
    obtain ⟨value, hfirst⟩ := firstLexemes_of_quoted hquote h
    rw [hfirst]
    exact suffixed_iff.1 ⟨⟨_, hq, hf⟩, rfl⟩
  | @bare _ _ run _ hrun hend =>
    rw [List.forall_mem_cons] at hrun
    rw [firstLexemes_of_bare hrun.1]
    refine ⟨rfl, ?_⟩
    simp only [List.dropWhile_append_of_pos hrun.2]
    cases rest with
    | nil => rfl
    | cons d rest => exact List.dropWhile_cons_of_neg (by simp [hend d rfl])

theorem exists_of_advance_closing {b : Bracket} {ls : List Lexeme}
    (h : (Lexeme.closing b :: ls).foldlM Lexeme.advance stack = some stack') :
    ∃ outer, stack = b :: outer ∧ ls.foldlM Lexeme.advance outer = some stack' := by
  rw [List.foldlM_cons] at h
  obtain ⟨outer, hclose, hrest⟩ := Option.bind_eq_some_iff.1 h
  cases stack with
  | nil => cases hclose
  | cons b' stack =>
    simp only [Lexeme.advance] at hclose
    split at hclose
    · rename_i heq
      cases hclose
      exact ⟨outer, by rw [heq], hrest⟩
    · cases hclose

/-- What the lexer takes, a step takes if the groups fit. -/
theorem step_of_advance {c : Char}
    (h : (firstLexemes c cs).1.foldlM Lexeme.advance stack = some stack') :
    Step stack (c :: cs) stack' (firstLexemes c cs).2 := by
  revert h
  fun_cases Pattern.firstLexemes c cs with
  | case1 =>
    rintro ⟨⟩
    exact .bar
  | case2 =>
    rintro ⟨⟩
    exact .opening .round
  | case3 =>
    rintro ⟨⟩
    exact .opening .square
  | case4 =>
    rintro ⟨⟩
    exact .opening .curly
  | case5 =>
    intro h
    obtain ⟨outer, rfl, h⟩ := exists_of_advance_closing h
    obtain ⟨⟨mid, hq, hf⟩, rfl⟩ := suffixed_iff.2 ⟨h, rfl⟩
    exact .closeRound hq hf
  | case6 =>
    intro h
    obtain ⟨outer, rfl, h⟩ := exists_of_advance_closing h
    obtain ⟨hf, rfl⟩ := fieldMarked_iff.2 ⟨h, rfl⟩
    exact .close (b := .square) nofun hf
  | case7 =>
    intro h
    obtain ⟨outer, rfl, h⟩ := exists_of_advance_closing h
    obtain ⟨hf, rfl⟩ := fieldMarked_iff.2 ⟨h, rfl⟩
    exact .close (b := .curly) nofun hf
  | case8 => exact nofun
  | case9 d more hdrop =>
    intro h
    obtain ⟨href, rfl⟩ := (reference_iff (getLast?_trimBlank _)).2 h
    have hcs := List.takeWhile_append_dropWhile (p := (· != '>')) (l := cs)
    have hhead := head?_dropWhile (· != '>') cs d (hdrop ▸ rfl)
    rw [hdrop, show d = '>' by simpa using hhead] at hcs
    have hinside : '>' ∉ cs.takeWhile (· != '>') := by
      intro hmem
      have hall := List.all_eq_true.1 (List.all_takeWhile (p := (· != '>')) (l := cs)) '>' hmem
      exact absurd hall (by decide)
    have hstep : Step stack ('<' :: (cs.takeWhile (· != '>') ++ '>' :: more)) stack more :=
      .reference hinside href
    rwa [hcs] at hstep
  | case10 => exact nofun
  | case11 c hquote value more hread =>
    rw [if_pos hquote, hread]
    intro h
    obtain ⟨⟨mid, hq, hf⟩, rfl⟩ := suffixed_iff.2 ⟨h, rfl⟩
    have hne : c ≠ '\\' := by rcases hquote with rfl | rfl <;> decide
    exact .literal hquote ((quoted_iff hne).2 ⟨value, hread⟩) hq hf
  | case12 c hquote hread =>
    rw [if_pos hquote, hread]
    exact nofun
  | case13 c hquote hblank =>
    rw [if_neg hquote, if_pos hblank]
    rintro ⟨⟩
    exact .blank hblank
  | case14 c hquote hblank hbar hround hsquare hcurly hround' hsquare' hcurly' hangle hangle' =>
    rw [if_neg hquote, if_neg hblank]
    rintro ⟨⟩
    have hcs := List.takeWhile_append_dropWhile (p := isBareChar) (l := cs)
    have hbare : isBareChar c = true := by
      rw [not_or] at hquote
      refine isBareChar_iff.2 ⟨by simpa using hblank, ?_⟩
      simp only [List.mem_cons, List.not_mem_nil, or_false, not_or]
      exact ⟨hangle, hangle', hsquare, hsquare', hcurly, hcurly', hround, hround', hbar, hquote⟩
    have hrun : ∀ d ∈ c :: cs.takeWhile isBareChar, isBareChar d = true :=
      List.forall_mem_cons.2 ⟨hbare, List.all_eq_true.1 List.all_takeWhile⟩
    have hstep : Step stack (c :: (cs.takeWhile isBareChar ++ cs.dropWhile isBareChar)) stack
        (cs.dropWhile isBareChar) := .bare hrun (head?_dropWhile isBareChar cs)
    rwa [hcs] at hstep

/-- The scan gets to the end of a text if its lexemes leave no group open. -/
theorem scanned_iff : Scanned stack cs ↔ (lex cs).foldlM Lexeme.advance stack = some [] := by
  fun_induction lex cs generalizing stack with
  | case1 =>
    constructor
    · rintro (_ | ⟨⟨⟩, _⟩)
      rfl
    · intro h
      cases h
      exact .done
  | case2 c cs ih =>
    rw [List.foldlM_append]
    constructor
    · rintro (_ | ⟨hstep, hs⟩)
      obtain ⟨hadvance, rfl⟩ := hstep.firstLexemes
      rw [hadvance]
      exact ih.1 hs
    · intro h
      obtain ⟨stack', hadvance, h⟩ := Option.bind_eq_some_iff.1 h
      exact .step (step_of_advance hadvance) (ih.2 h)

/-- **Patterns are read if and only if the scan gets to their end.** -/
theorem read_accepts (pattern : String) :
    (∃ p, (read pattern).outcome = .ok p) ↔ Scanned [] pattern.toList := by
  have hembed : (∃ p, (read pattern).outcome = .ok p) ↔
      ∃ p, (readLexemes [] {} (lex pattern.toList)).outcome = .ok p := by
    refine ⟨fun ⟨p, h⟩ => ⟨p, Traced.outcome_embed h⟩, fun ⟨p, h⟩ => ⟨p, ?_⟩⟩
    simp only [read, Traced.embed, h]
  rw [hembed, readLexemes_isOk, scanned_iff]
  rfl

end LayeredGrammar.Pattern
