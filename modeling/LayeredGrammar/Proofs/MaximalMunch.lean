import LayeredGrammar.Proofs.Engine.Ahead

/-!
# The longest literal

At a position of a text stands a literal of the grammar if the text goes on with its characters and,
when the last of them is a word character, not with another word character. The literal that a
session finds is the longest that stands there (`Session.literalAt_longest`).

It is found as the first that fits in a list with longer literals first. Two literals of one length
that fit are the same, so all such lists lead to the same literal (`Session.find?_fits_congr`): how
literals of one length are ordered plays no part, nor do literals that start with another character
than the text has.
-/

namespace LayeredGrammar

/-- The grammar has a literal in the body of a rule. -/
def Grammar.Uses (g : Grammar) (value : String) : Prop :=
  ∃ rule body, (rule, body) ∈ g.rules ∧ Production.lit value ∈ body.walk

theorem Grammar.mem_literals {g : Grammar} {value : String} : value ∈ g.literals ↔ g.Uses value := by
  have hlit : ∀ p, Production.litValue? p = some value ↔ p = .lit value := by
    intro p
    cases p <;> simp [Production.litValue?]
  unfold Grammar.literals Grammar.Uses Production.literals
  simp only [mem_sortedNames, List.mem_flatMap, List.mem_filterMap, hlit, exists_eq_right,
    Prod.exists]

theorem ParseTable.mem_literals {g : Grammar} {l : Literal} :
    l ∈ (ofGrammar g).literals ↔ ∃ value, g.Uses value ∧ l = .ofText value := by
  simp only [ofGrammar, mem_sortBy, List.mem_map, Grammar.mem_literals, eq_comm]

namespace Session

variable {s : Session} {pos : Nat} {value : String}

/-! ## Literals that stand at a position -/

theorem hasAt_iff {cs : List Char} : hasAt s.text pos cs = true ↔ cs <+: s.text.toList.drop pos := by
  constructor
  · exact fun h => List.prefix_iff_eq_take.2 (take_of_hasAt h).symm
  · intro h
    rcases Nat.lt_or_ge s.size pos with hpos | hpos
    · rw [List.drop_eq_nil_of_le (by simpa [size] using Nat.le_of_lt hpos), List.prefix_nil] at h
      subst h
      rfl
    · have hahead : s.Ahead pos (s.text.toList.drop pos) := ⟨hpos, rfl⟩
      rw [hahead.hasAt_eq, List.isPrefixOf_iff_prefix]
      exact h

/-- A literal of the grammar stands at a position, and does not end within a word. -/
structure Stands (s : Session) (pos : Nat) (value : String) : Prop where
  used : s.grammar.Uses value
  spelled : value.toList <+: s.text.toList.drop pos
  whole : ∀ c ∈ value.toList.getLast?, Text.isWordChar c = true →
    ∀ d ∈ s.text[pos + value.length]?, Text.isWordChar d = false

theorem stands_iff :
    s.Stands pos value ↔ s.grammar.Uses value ∧ s.fits pos (.ofText value) = true := by
  have hwhole : (!((Literal.ofText value).wordLike &&
        Regex.wordAt s.text (pos + (Literal.ofText value).chars.length))) = true ↔
      ∀ c ∈ value.toList.getLast?, Text.isWordChar c = true →
        ∀ d ∈ s.text[pos + value.length]?, Text.isWordChar d = false := by
    have hlength : (Literal.ofText value).chars.length = value.length := String.length_toList
    rw [hlength]
    show (!(value.toList.getLast?.any Text.isWordChar && Regex.wordAt s.text (pos + value.length))) =
      true ↔ _
    unfold Regex.wordAt
    cases value.toList.getLast? with
    | none => simp
    | some c =>
      cases s.text[pos + value.length]? with
      | none => simp
      | some d => cases hc : Text.isWordChar c <;> simp [hc]
  unfold fits
  rw [Bool.and_eq_true, hasAt_iff, hwhole]
  exact ⟨fun h => ⟨h.used, h.spelled, h.whole⟩, fun h => ⟨h.1, h.2.1, h.2.2⟩⟩

/-- A literal that stands at a position starts with the character there. -/
theorem Stands.head? (h : s.Stands pos value) (hvalue : value ≠ "") :
    value.toList.head? = s.text[pos]? := by
  obtain ⟨rest, hrest⟩ := h.spelled
  rw [← Array.getElem?_toList, ← List.head?_drop, ← hrest, List.head?_append]
  cases htext : value.toList with
  | nil => exact absurd (String.toList_eq_nil_iff.1 htext) hvalue
  | cons c cs => rfl

/-- Of the lists with longer literals first, those with the same literals that fit have the same
literal that fits first. -/
theorem find?_fits_congr {listed listed' : List Literal} (hsort : LongestFirst listed)
    (hsort' : LongestFirst listed') (htext : ∀ l ∈ listed, ∃ value, l = .ofText value)
    (hmem : ∀ l, s.fits pos l = true → (l ∈ listed ↔ l ∈ listed')) :
    listed.find? (s.fits pos) = listed'.find? (s.fits pos) := by
  cases h : listed.find? (s.fits pos) with
  | none =>
    rw [List.find?_eq_none] at h
    refine (List.find?_eq_none.2 fun l hl hfit => ?_).symm
    exact h l ((hmem l hfit).2 hl) hfit
  | some l =>
    have hfit := List.find?_some h
    have hl := List.mem_of_find?_eq_some h
    obtain ⟨l', h'⟩ := Option.isSome_iff_exists.1
      (List.find?_isSome.2 ⟨l, (hmem l hfit).1 hl, hfit⟩)
    have hfit' := List.find?_some h'
    have hl' := (hmem l' hfit').2 (List.mem_of_find?_eq_some h')
    have hle := hsort.length_le h hl' hfit'
    have hle' := hsort'.length_le h' ((hmem l hfit).1 hl) hfit
    obtain ⟨v, rfl⟩ := htext l hl
    obtain ⟨w, rfl⟩ := htext l' hl'
    have hlength : v.length = w.length := by
      simpa only [Literal.ofText, String.length_toList] using Nat.le_antisymm hle' hle
    rw [h', eq_of_fits hfit hfit' hlength]

/-- Behind the end of the text no literal fits that is not empty. -/
theorem literalAt_eq_find? (htable : s.table = .ofGrammar s.grammar) (hempty : ¬s.grammar.Uses "")
    (pos : Nat) : s.literalAt pos = s.table.literals.find? (s.fits pos) := by
  unfold literalAt
  split
  · rename_i hpos
    refine (List.find?_eq_none.2 fun l hl hfit => ?_).symm
    rw [htable] at hl
    obtain ⟨value, hv, rfl⟩ := ParseTable.mem_literals.1 hl
    have hspelled := (stands_iff.2 ⟨hv, hfit⟩).spelled
    rw [List.drop_eq_nil_of_le (by simpa [size] using hpos), List.prefix_nil,
      String.toList_eq_nil_iff] at hspelled
    exact hempty (hspelled ▸ hv)
  · rfl

/-! ## The literal that is found -/

section Built

variable (hb : s.table.Built)
include hb

theorem literalAt_eq_none_iff : s.literalAt pos = none ↔ ∀ value, ¬s.Stands pos value := by
  have hempty : ¬s.grammar.Uses "" := fun h => hb.literals (Grammar.mem_literals.2 h)
  rw [literalAt_eq_find? hb.table hempty, List.find?_eq_none, hb.table]
  constructor
  · intro h value hstands
    obtain ⟨hused, hfit⟩ := stands_iff.1 hstands
    exact h _ (ParseTable.mem_literals.2 ⟨value, hused, rfl⟩) hfit
  · intro h l hl hfit
    obtain ⟨value, hused, rfl⟩ := ParseTable.mem_literals.1 hl
    exact h value (stands_iff.2 ⟨hused, hfit⟩)

theorem stands_of_literalAt {l : Literal} (h : s.literalAt pos = some l) :
    s.Stands pos l.text ∧ ∀ other, s.Stands pos other → other.length ≤ l.text.length := by
  have hl := literalAt_eq_ofText hb h
  have hfit := fits_of_literalAt h
  rw [hl] at hfit
  refine ⟨stands_iff.2 ⟨Grammar.mem_literals.1 (literal_mem hb h), hfit⟩, fun other ho => ?_⟩
  obtain ⟨hused, hfit'⟩ := stands_iff.1 ho
  have hle := length_le_of_literalAt hb h (Grammar.mem_literals.2 hused) hfit'
  rwa [hl, Literal.ofText, String.length_toList] at hle

theorem literalAt_eq_some_iff : (s.literalAt pos).map (·.text) = some value ↔
    s.Stands pos value ∧ ∀ other, s.Stands pos other → other.length ≤ value.length := by
  constructor
  · intro h
    obtain ⟨l, hl, rfl⟩ := Option.map_eq_some_iff.1 h
    exact stands_of_literalAt hb hl
  · rintro ⟨hstands, hlongest⟩
    cases h : s.literalAt pos with
    | none => exact absurd hstands ((literalAt_eq_none_iff hb).1 h value)
    | some l =>
      obtain ⟨hstands', hlongest'⟩ := stands_of_literalAt hb h
      have hlength := Nat.le_antisymm (hlongest _ hstands') (hlongest' _ hstands)
      exact congrArg some (eq_of_fits (stands_iff.1 hstands').2 (stands_iff.1 hstands).2 hlength)

end Built

/-- **The literal at a position is the longest that stands there**, and there is none if none does.
The order in which literals were collected plays no part: it is the first that fits in any list,
longer ones first, of the literals that start with the character of the text there, and rules that
have the same literals in another order have the same literal at every position. -/
theorem literalAt_longest {layers : List Layer} {t : ParseTable}
    (ht : (ParseTable.ofLayers layers).outcome = .ok t) (recover : Bool) (text : Array Char)
    (pos : Nat) :
    let s : Session := ⟨t, recover, text⟩
    (∀ value, (s.literalAt pos).map (·.text) = some value ↔
      s.Stands pos value ∧ ∀ other, s.Stands pos other → other.length ≤ value.length) ∧
    (s.literalAt pos = none ↔ ∀ value, ¬s.Stands pos value) ∧
    (∀ listed : List Literal,
      (∀ l, l ∈ listed ↔
        ∃ value, t.grammar.Uses value ∧ l = .ofText value ∧ value.toList.head? = text[pos]?) →
      LongestFirst listed → listed.find? (s.fits pos) = s.literalAt pos) ∧
    ∀ g : Grammar, (∀ value, g.Uses value ↔ t.grammar.Uses value) →
      literalAt ⟨.ofGrammar g, recover, text⟩ pos = s.literalAt pos := by
  intro s
  have hb : s.table.Built := ParseTable.built ht
  have hempty : ¬s.grammar.Uses "" := fun h => hb.literals (Grammar.mem_literals.2 h)
  have hfind := literalAt_eq_find? hb.table hempty pos
  have hsort : LongestFirst s.table.literals := by
    rw [hb.table]
    exact longestFirst_ofGrammar _
  have hmem : ∀ l, l ∈ s.table.literals ↔ ∃ value, s.grammar.Uses value ∧ l = .ofText value := by
    rw [hb.table]
    exact fun l => ParseTable.mem_literals
  refine ⟨fun value => literalAt_eq_some_iff hb, literalAt_eq_none_iff hb, ?_, ?_⟩
  · intro listed hlisted hsort'
    rw [hfind]
    refine find?_fits_congr hsort' hsort ?_ fun l hfit => ?_
    · intro l hl
      obtain ⟨value, _, hl, _⟩ := (hlisted l).1 hl
      exact ⟨value, hl⟩
    · rw [hlisted, hmem]
      constructor
      · rintro ⟨value, hused, hl, _⟩
        exact ⟨value, hused, hl⟩
      · rintro ⟨value, hused, rfl⟩
        have hvalue : value ≠ "" := fun hv => hempty (hv ▸ hused)
        exact ⟨value, hused, rfl, (stands_iff.2 ⟨hused, hfit⟩ : s.Stands pos value).head? hvalue⟩
  · intro g hg
    have hempty' : ¬g.Uses "" := fun h => hempty ((hg "").1 h)
    rw [hfind, literalAt_eq_find? (s := ⟨.ofGrammar g, recover, text⟩) rfl hempty']
    refine find?_fits_congr (s := s) (longestFirst_ofGrammar g) hsort ?_ fun l _ => ?_
    · intro l hl
      obtain ⟨value, _, hl⟩ := ParseTable.mem_literals.1 hl
      exact ⟨value, hl⟩
    · rw [hmem, ParseTable.mem_literals]
      exact exists_congr fun value => and_congr_left' (hg value)

/-- Operators and words that start alike. -/
def alikeLayer : Layer where
  name := "Alike"
  start := some (some "_pieces")
  word := some none
  members :=
    [("_pieces", .rule none (.rep (.ref "piece") 0 true)),
     ("piece", .rule none (.choice [.lit "+", .lit "+in", .lit "in", .lit "int"]))]

/-- The longer of two literals is found, unless it would end within a word. -/
theorem literalAt_alike : ∃ table, (ParseTable.ofLayers [alikeLayer]).outcome = .ok table ∧
    let s : Session := ⟨table, true, #['+', 'i', 'n', 't']⟩
    (s.Stands 0 "+" ∧ ∀ other, s.Stands 0 other → other.length ≤ 1) ∧
    (s.Stands 1 "int" ∧ ∀ other, s.Stands 1 other → other.length ≤ 3) ∧
    (∀ value, ¬s.Stands 2 value) ∧
    s.grammar.Uses "+in" ∧ "+in".toList <+: s.text.toList.drop 0 := by
  have hrun : ((ParseTable.ofLayers [alikeLayer]).outcome.toOption.any fun table =>
      let s : Session := ⟨table, true, #['+', 'i', 'n', 't']⟩
      decide ((s.literalAt 0).map (·.text) = some "+" ∧ (s.literalAt 1).map (·.text) = some "int" ∧
        s.literalAt 2 = none ∧ "+in" ∈ s.grammar.literals)) = true := by
    decide +kernel
  obtain ⟨table, htable, hrun⟩ := Traced.exists_of_any hrun
  obtain ⟨hplus, hint, hnone, hin⟩ := of_decide_eq_true hrun
  have hfound := literalAt_longest htable true #['+', 'i', 'n', 't']
  exact ⟨table, htable, ((hfound 0).1 "+").1 hplus, ((hfound 1).1 "int").1 hint,
    (hfound 2).2.1.1 hnone, Grammar.mem_literals.1 hin, ⟨['t'], rfl⟩⟩

end Session

end LayeredGrammar
