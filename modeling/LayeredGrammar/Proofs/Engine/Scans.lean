import LayeredGrammar.Proofs.Engine.Boundaries
import LayeredGrammar.Proofs.Engine.Formed

/-!
# Sessions that scan a text in the same way

Two sessions over one text scan it in the same way if they skip the same extras, have the same tokens
and find the same literal at every position they come to. They find the same literals already if the
one with more literals finds none that only it has (`Session.literalAt_eq`).

Raw tokens that start with a character with which neither a literal nor a token starts are single
characters (`Session.rawToken?_of_shuns`), so they are no keywords that start with it.
-/

namespace LayeredGrammar

namespace Session

variable {s s' : Session}

/-- Two sessions that scan a text in the same way at the positions of a set. -/
structure ScansAlike (s s' : Session) (reached : Nat → Prop) : Prop where
  confined : s.Confined reached
  text : s'.text = s.text
  extras : s'.grammar.extras = s.grammar.extras
  tokens : s'.grammar.tokens = s.grammar.tokens
  word : s'.grammar.word = s.grammar.word
  reserved : s'.grammar.reserved = s.grammar.reserved
  literalAt : ∀ {pos}, reached pos → s'.literalAt (s.skip pos) = s.literalAt (s.skip pos)
  stops : ∀ {pos token}, reached pos → s.rawToken? (s.skip pos) = some token →
    s'.isStop token = s.isStop token

namespace ScansAlike

variable {reached : Nat → Prop} {pos : Nat}

theorem size (h : ScansAlike s s' reached) : s'.size = s.size := by
  unfold Session.size
  rw [h.text]

theorem slice (h : ScansAlike s s' reached) (start stop : Nat) :
    s'.slice start stop = s.slice start stop := by
  unfold Session.slice
  rw [h.text]

theorem skip (h : ScansAlike s s' reached) (pos : Nat) : s'.skip pos = s.skip pos := by
  unfold Session.skip
  rw [h.extras, h.text]

theorem matchLiteral (h : ScansAlike s s' reached) (value : String) (hpos : reached pos) :
    s'.matchLiteral value pos = s.matchLiteral value pos := by
  unfold Session.matchLiteral
  simp only [h.skip, h.literalAt hpos]

theorem matchToken (h : ScansAlike s s' reached) (name : String) (t : Token) (pos : Nat) :
    s'.matchToken name t pos = s.matchToken name t pos := by
  unfold Session.matchToken
  simp only [h.skip, h.text, h.word, h.reserved, h.slice]

theorem rawTokenEnd (h : ScansAlike s s' reached) (hpos : reached pos) :
    s'.rawTokenEnd (s.skip pos) = s.rawTokenEnd (s.skip pos) := by
  unfold Session.rawTokenEnd
  rw [h.literalAt hpos, h.tokens, h.text]

theorem rawToken? (h : ScansAlike s s' reached) (hpos : reached pos) :
    s'.rawToken? (s.skip pos) = s.rawToken? (s.skip pos) := by
  unfold Session.rawToken?
  rw [h.size, h.slice, h.rawTokenEnd hpos]

/-- Neither of the two sessions leaves the set. -/
theorem confined' (h : ScansAlike s s' reached) : s'.Confined reached where
  origin := h.confined.origin
  skip hpos := h.skip _ ▸ h.confined.skip hpos
  literal hpos hl := by
    rw [h.skip, h.literalAt hpos] at hl
    rw [h.skip]
    exact h.confined.literal hpos hl
  token hpos ht hm := by
    rw [h.tokens] at ht
    rw [h.skip, h.text] at hm
    exact h.confined.token hpos ht hm
  rawToken hpos hlt := by
    rw [h.skip, h.size] at hlt
    rw [h.skip, h.rawTokenEnd hpos]
    exact h.confined.rawToken hpos hlt

theorem regionPass (h : ScansAlike s s' reached) (depth : Nat) (hpos : reached pos) :
    s'.regionPass depth pos = s.regionPass depth pos := by
  unfold Session.regionPass
  simp only [h.skip, h.rawToken? hpos, h.rawTokenEnd hpos]
  cases htoken : s.rawToken? (s.skip pos) with
  | none => rfl
  | some token => simp only [h.stops hpos htoken]

theorem regionEnd (h : ScansAlike s s' reached) (n depth : Nat) (hpos : reached pos) :
    s'.regionEnd n depth pos = s.regionEnd n depth pos := by
  induction n generalizing depth pos with
  | zero => rfl
  | succ n ih =>
    unfold Session.regionEnd
    rw [h.regionPass depth hpos]
    cases hpass : s.regionPass depth pos with
    | none => rfl
    | some step =>
      obtain ⟨stop, next⟩ := step
      cases next with
      | none => rfl
      | some depth' =>
        obtain ⟨hlt, rfl⟩ := regionPass_eq_some hpass
        exact ih depth' (h.confined.rawToken hpos hlt)

theorem errorSpan (h : ScansAlike s s' reached) (hpos : reached pos) :
    s'.errorSpan pos = s.errorSpan pos := by
  unfold Session.errorSpan
  simp only [h.skip, h.rawToken? hpos, h.size, h.regionEnd _ _ (h.confined.skip hpos)]
  cases htoken : s.rawToken? (s.skip pos) with
  | none => rfl
  | some token => simp only [h.stops hpos htoken]

end ScansAlike

/-! ## Literals -/

/-- A literal that fits stands in the text. -/
theorem infix_of_fits {pos : Nat} {l : Literal} (h : s.fits pos l = true) :
    l.chars <:+: s.text.toList := by
  simp only [fits, Bool.and_eq_true] at h
  rw [← take_of_hasAt h.1]
  exact (List.take_prefix _ _).isInfix.trans (List.drop_suffix _ _).isInfix

theorem fits_of_literalAt {pos : Nat} {l : Literal} (h : s.literalAt pos = some l) :
    s.fits pos l = true := by
  unfold literalAt at h
  split at h
  · cases h
  · exact List.find?_some h

/-- Where no literal is found, none fits. -/
theorem fits_eq_false (hb : s.table.Built) {pos : Nat} (hpos : pos < s.size)
    (h : s.literalAt pos = none) {value : String} (hv : value ∈ s.grammar.literals) :
    s.fits pos (.ofText value) = false := by
  unfold literalAt at h
  rw [if_neg (Nat.not_le.2 hpos), List.find?_eq_none] at h
  have hmem : Literal.ofText value ∈ s.table.literals := by
    rw [hb.table]
    exact mem_sortBy.2 (List.mem_map.2 ⟨value, hv, rfl⟩)
  simpa using h _ hmem

/-- A literal that fits is found, unless a longer one is. -/
theorem exists_of_fits (hb : s.table.Built) {pos : Nat} (hpos : pos < s.size) {value : String}
    (hv : value ∈ s.grammar.literals) (hfit : s.fits pos (.ofText value) = true) :
    ∃ l, s.literalAt pos = some l ∧ value.length ≤ l.chars.length := by
  cases h : s.literalAt pos with
  | none =>
    rw [fits_eq_false hb hpos h hv] at hfit
    cases hfit
  | some l => exact ⟨l, rfl, length_le_of_literalAt hb h hv hfit⟩

/-- Two literals of one length that stand at one place are the same. -/
theorem eq_of_fits {pos : Nat} {v w : String} (hv : s.fits pos (.ofText v) = true)
    (hw : s.fits pos (.ofText w) = true) (hlen : v.length = w.length) : v = w := by
  simp only [fits, Bool.and_eq_true] at hv hw
  have h1 := take_of_hasAt hv.1
  have h2 := take_of_hasAt hw.1
  have hchars : (Literal.ofText v).chars.length = (Literal.ofText w).chars.length := by
    show v.toList.length = w.toList.length
    rw [String.length_toList, String.length_toList, hlen]
  rw [hchars, h2] at h1
  exact (String.toList_inj.1 h1).symm

/-- **Literals that are not found do not matter** for those that are. -/
theorem literalAt_eq (hb : s.table.Built) (hb' : s'.table.Built) (htext : s'.text = s.text)
    (hsub : s.grammar.literals ⊆ s'.grammar.literals) {pos : Nat}
    (hboth : ∀ l, s'.literalAt pos = some l → l.text ∈ s.grammar.literals) :
    s'.literalAt pos = s.literalAt pos := by
  have hfits : s'.fits = s.fits := by
    unfold fits
    rw [htext]
  have hsize : s'.size = s.size := by
    unfold size
    rw [htext]
  cases h : s.literalAt pos with
  | some l =>
    have hlt := lt_size_of_literalAt h
    have hl := literalAt_eq_ofText hb h
    have hfit := fits_of_literalAt h
    rw [hl] at hfit
    obtain ⟨l', hl', hle'⟩ := exists_of_fits hb' (hsize ▸ hlt) (hsub (literal_mem hb h)) (hfits ▸ hfit)
    have hofText' := literalAt_eq_ofText hb' hl'
    have hfit' := fits_of_literalAt hl'
    rw [hofText', hfits] at hfit'
    have hle := length_le_of_literalAt hb h (hboth l' hl') hfit'
    have hlen : l.chars.length = l.text.length := by
      rw [hl]
      exact String.length_toList
    have hlen' : l'.chars.length = l'.text.length := by
      rw [hofText']
      exact String.length_toList
    have htexts : l'.text = l.text := eq_of_fits hfit' hfit (by omega)
    rw [hl', hofText', hl, htexts]
  | none =>
    cases h' : s'.literalAt pos with
    | none => rfl
    | some l =>
      have hlt := lt_size_of_literalAt h'
      have hfit := fits_of_literalAt h'
      rw [literalAt_eq_ofText hb' h', hfits] at hfit
      rw [fits_eq_false hb (hsize ▸ hlt) h (hboth l h')] at hfit
      cases hfit

/-- A literal that stands nowhere in a text is not found. -/
theorem literal_mem_of_absent (hb' : s'.table.Built) {literals : List String}
    (hnew : ∀ value ∈ s'.grammar.literals, value ∉ literals → ¬value.toList <:+: s'.text.toList)
    {pos : Nat} {l : Literal} (hl : s'.literalAt pos = some l) : l.text ∈ literals := by
  refine Classical.byContradiction fun hnot => hnew l.text (literal_mem hb' hl) hnot ?_
  have hinfix := infix_of_fits (fits_of_literalAt hl)
  rwa [literalAt_eq_ofText hb' hl] at hinfix

end Session

/-! ## Raw tokens -/

namespace Regex

variable {mode : Mode} {c : Char}

/-- Whether an expression matches nothing where a character stands. -/
def refuses (mode : Mode) (c : Char) : Regex → Bool
  | .char d => !mode.test (· == d) c
  | .dot => !mode.acrossLines && c == '\n'
  | .oneOf negated items => mode.test (fun d => items.any (·.has d)) c == negated
  | .seq a b => refuses mode c a || (a == .boundary && refuses mode c b)
  | .alt a b => refuses mode c a && refuses mode c b
  | .empty | .boundary | .loop _ _ _ => false

theorem run_eq_none_of_refuses {text : Array Char} {pos : Nat} (hc : text[pos]? = some c) :
    ∀ (r : Regex) (k : Nat → Option Nat), r.refuses mode c = true → run mode text r k pos = none
  | .char d, k, h => by
    simp only [refuses, Bool.not_eq_true'] at h
    simp only [run, step, hc, h, Bool.false_eq_true, if_false]
  | .dot, k, h => by
    simp only [refuses, Bool.and_eq_true, Bool.not_eq_true', beq_iff_eq] at h
    simp [run, step, hc, h.1, h.2]
  | .oneOf negated items, k, h => by
    simp only [refuses, beq_iff_eq] at h
    simp [run, step, hc, h]
  | .seq a b, k, h => by
    simp only [refuses, Bool.or_eq_true, Bool.and_eq_true, beq_iff_eq] at h
    rw [run]
    rcases h with ha | ⟨rfl, hb⟩
    · exact run_eq_none_of_refuses hc a _ ha
    · simp only [run, run_eq_none_of_refuses hc b k hb, ite_self]
  | .alt a b, k, h => by
    simp only [refuses, Bool.and_eq_true] at h
    rw [run, run_eq_none_of_refuses hc a k h.1, run_eq_none_of_refuses hc b k h.2]
    rfl

end Regex

namespace Token

/-- Whether no match of a token starts with a character. -/
def refuses (t : Token) (c : Char) : Bool := t.regex.all (·.refuses t.mode c)

theorem matchAt_eq_none_of_refuses {t : Token} {text : Array Char} {pos : Nat} {c : Char}
    (hc : text[pos]? = some c) (h : t.refuses c = true) : t.matchAt text pos = none := by
  rw [Option.eq_none_iff_forall_ne_some]
  intro stop hstop
  obtain ⟨r, hr, hm⟩ := matchAt_eq_some.1 hstop
  have hle : pos ≤ text.size := Nat.le_of_lt (Array.getElem?_eq_some_iff.1 hc).1
  have hrefuses : r.refuses t.mode c = true := by simpa [refuses, hr] using h
  unfold Regex.matchAt at hm
  rw [Nat.min_eq_left hle, Regex.run_eq_none_of_refuses hc _ _ hrefuses] at hm
  cases hm

end Token

/-- A character with which neither a literal nor a token of a grammar starts. -/
def Grammar.Shuns (g : Grammar) (c : Char) : Prop :=
  (∀ value ∈ g.literals, value.toList.head? ≠ some c) ∧ ∀ e ∈ g.tokens, e.2.refuses c = true

instance (g : Grammar) (c : Char) : Decidable (g.Shuns c) :=
  inferInstanceAs (Decidable ((∀ value ∈ g.literals, value.toList.head? ≠ some c) ∧
    ∀ e ∈ g.tokens, e.2.refuses c = true))

namespace Session

variable {s : Session} {pos : Nat} {c : Char}

/-- Where neither a literal nor a token stands, a raw token is a single character. -/
theorem rawTokenEnd_of_none (hl : s.literalAt pos = none)
    (ht : ∀ e ∈ s.grammar.tokens, e.2.matchAt s.text pos = none) :
    s.rawTokenEnd pos = pos + 1 := by
  have hfold : ∀ tokens : List (String × Token), (∀ e ∈ tokens, e.2.matchAt s.text pos = none) →
      tokens.foldl (fun stop e => max stop ((e.2.matchAt s.text pos).getD pos)) pos = pos := by
    intro tokens
    induction tokens with
    | nil => exact fun _ => rfl
    | cons e tokens ih =>
      intro h
      obtain ⟨name, t⟩ := e
      obtain ⟨he, hrest⟩ := List.forall_mem_cons.1 h
      have hstep : max pos ((t.matchAt s.text pos).getD pos) = pos := by
        rw [show t.matchAt s.text pos = none from he, Option.getD_none, Nat.max_self]
      rw [List.foldl_cons]
      simp only [hstep]
      exact ih hrest
  unfold rawTokenEnd
  rw [hl]
  simp only
  rw [hfold _ ht]
  omega

theorem literalAt_of_shuns (hb : s.table.Built) (hc : s.grammar.Shuns c)
    (hpos : s.text[pos]? = some c) : s.literalAt pos = none := by
  cases h : s.literalAt pos with
  | none => rfl
  | some l =>
    have hfit := fits_of_literalAt h
    have hne := (slice_of_literalAt hb h).2
    have hhead := hc.1 l.text (literal_mem hb h)
    rw [literalAt_eq_ofText hb h] at hfit hne
    simp only [fits, Bool.and_eq_true] at hfit
    cases hchars : l.text.toList with
    | nil =>
      exact absurd hne (by rw [show (Literal.ofText l.text).chars = [] from hchars]; simp)
    | cons d cs =>
      have hat := hfit.1
      rw [show (Literal.ofText l.text).chars = d :: cs from hchars] at hat
      simp only [hasAt, Bool.and_eq_true, beq_iff_eq] at hat
      rw [hpos] at hat
      rw [hchars, hat.1] at hhead
      exact absurd rfl hhead

/-- A raw token that starts with a shunned character is that character. -/
theorem rawToken?_of_shuns (hb : s.table.Built) (hc : s.grammar.Shuns c) {token : String}
    (h : s.rawToken? pos = some token) (hhead : token.toList.head? = some c) :
    token.toList = [c] := by
  have hlt := lt_size_of_rawToken? h
  unfold rawToken? at h
  rw [if_pos hlt] at h
  cases h
  have hslice : ∀ stop, (s.slice pos stop).toList = (s.text.toList.drop pos).take (stop - pos) := by
    intro stop
    unfold slice
    rw [String.toList_ofList, Array.toList_extract, List.extract_eq_take_drop]
  have hstop := lt_rawTokenEnd s pos
  have hchar : s.text.toList.drop pos = c :: s.text.toList.drop (pos + 1) := by
    rw [hslice, List.head?_take, if_neg (by omega), List.head?_drop] at hhead
    obtain ⟨hlt', heq⟩ := List.getElem?_eq_some_iff.1 hhead
    rw [List.drop_eq_getElem_cons hlt', heq]
  have hpos : s.text[pos]? = some c := by
    rw [← Array.getElem?_toList, ← List.head?_drop, hchar]
    rfl
  have htokens : ∀ e ∈ s.grammar.tokens, e.2.matchAt s.text pos = none :=
    fun e he => Token.matchAt_eq_none_of_refuses hpos (hc.2 e he)
  rw [hslice, rawTokenEnd_of_none (literalAt_of_shuns hb hc hpos) htokens, hchar,
    Nat.add_sub_cancel_left]
  rfl

end Session

end LayeredGrammar
