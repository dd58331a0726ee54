import LayeredGrammar.Proofs.ErrorRegions
import LayeredGrammar.Proofs.Catalog.Lexicon

/-!
# Semicolons in error regions

An error region ends with the first semicolon outside all brackets, as long as raw tokens are no
longer than a reader takes them to be. In the ready-made grammars one token is: text in angle
brackets, of use behind `#include` only, is a raw token everywhere, so that `a < b; int y; c > d;`
has a token from the first angle bracket to the second one. `Session.errorSpan_overruns` is a region
that takes in three statements in this way.

`Session.errorSpan_semicolon` is what does hold: where quotes, comments and such tokens are out of the
way (`Unquoted`), no semicolon outside all brackets stands in a region before its end. Brackets can
then be counted character by character (`Session.nesting`), which gives the depth that the region
scanner counts token by token (`Session.nesting_eq_depth`).
-/

namespace LayeredGrammar

open Catalog

/-! ## Brackets between two positions -/

/-- How many brackets are open behind some characters, less those that were never opened. -/
def bracketDepth (cs : List Char) : Int :=
  (cs.countP fun c => ['(', '[', '\x7b'].contains c) -
    (cs.countP fun c => [')', ']', '\x7d'].contains c)

@[simp] theorem bracketDepth_nil : bracketDepth [] = 0 := rfl

@[simp] theorem bracketDepth_append (cs ds : List Char) :
    bracketDepth (cs ++ ds) = bracketDepth cs + bracketDepth ds := by
  simp only [bracketDepth, List.countP_append]
  omega

/-- Characters that delimit nothing do not change the depth. -/
theorem bracketDepth_eq_zero {cs : List Char} (h : ∀ c ∈ delimiters, c ∉ cs) :
    bracketDepth cs = 0 := by
  have hopen : cs.countP (fun c => ['(', '[', '\x7b'].contains c) = 0 := by
    refine List.countP_eq_zero.2 fun c hc hmem => h c ?_ hc
    have hmem := List.contains_iff_mem.1 hmem
    simp only [List.mem_cons, List.not_mem_nil, or_false] at hmem
    rcases hmem with rfl | rfl | rfl <;> simp [delimiters]
  have hclose : cs.countP (fun c => [')', ']', '\x7d'].contains c) = 0 := by
    refine List.countP_eq_zero.2 fun c hc hmem => h c ?_ hc
    have hmem := List.contains_iff_mem.1 hmem
    simp only [List.mem_cons, List.not_mem_nil, or_false] at hmem
    rcases hmem with rfl | rfl | rfl <;> simp [delimiters]
  rw [bracketDepth, hopen, hclose]
  rfl

namespace Session

variable {s : Session}

theorem toList_slice (s : Session) (a b : Nat) :
    (s.slice a b).toList = (s.text.toList.drop a).take (b - a) := by
  rw [slice, String.toList_ofList, Array.toList_extract, List.extract_eq_take_drop]

theorem mem_slice {a b : Nat} {c : Char} :
    c ∈ (s.slice a b).toList ↔ ∃ i, a ≤ i ∧ i < b ∧ s.text[i]? = some c := by
  rw [toList_slice, List.mem_iff_getElem?]
  constructor
  · rintro ⟨j, hj⟩
    rw [List.getElem?_take] at hj
    split at hj
    · rw [List.getElem?_drop, Array.getElem?_toList] at hj
      exact ⟨a + j, by omega, by omega, hj⟩
    · cases hj
  · rintro ⟨i, hi, hi', hc⟩
    refine ⟨i - a, ?_⟩
    rw [List.getElem?_take, if_pos (by omega), List.getElem?_drop, Array.getElem?_toList,
      Nat.add_sub_cancel' hi, hc]

/-- The depth of the text from one position up to another. -/
def nesting (s : Session) (a b : Nat) : Int := bracketDepth (s.slice a b).toList

@[simp] theorem nesting_self (s : Session) (a : Nat) : s.nesting a a = 0 := by
  simp [nesting, toList_slice]

theorem nesting_add (s : Session) {a b c : Nat} (hab : a ≤ b) (hbc : b ≤ c) :
    s.nesting a c = s.nesting a b + s.nesting b c := by
  have hsplit : (s.slice a c).toList = (s.slice a b).toList ++ (s.slice b c).toList := by
    rw [toList_slice, toList_slice, toList_slice, show c - a = (b - a) + (c - b) by omega,
      List.take_add, List.drop_drop, Nat.add_sub_cancel' hab]
  rw [nesting, hsplit, bracketDepth_append]
  rfl

/-! ## Raw tokens of the ready-made grammars -/

theorem foldl_max_cases {α : Type} (f : α → Nat) : ∀ (l : List α) (init : Nat),
    l.foldl (fun m a => max m (f a)) init = init ∨
      ∃ a ∈ l, l.foldl (fun m a => max m (f a)) init = f a
  | [], init => .inl rfl
  | a :: l, init => by
    rw [List.foldl_cons]
    rcases foldl_max_cases f l (max init (f a)) with h | ⟨b, hb, h⟩
    · rcases Nat.le_total init (f a) with hle | hle
      · exact .inr ⟨a, List.mem_cons_self, by rw [h, Nat.max_eq_right hle]⟩
      · exact .inl (by rw [h, Nat.max_eq_left hle])
    · exact .inr ⟨b, List.mem_cons_of_mem _ hb, h⟩

/-- A raw token is as long as the longest token, or as the literal where it starts. -/
theorem exists_rawTokenEnd_eq (s : Session) (pos : Nat) : ∃ init,
    (init = pos ∨ ∃ l, s.literalAt pos = some l ∧ init = pos + l.chars.length) ∧
    s.rawTokenEnd pos = max (s.grammar.tokens.foldl
      (fun longest e => max longest ((e.2.matchAt s.text pos).getD pos)) init) (pos + 1) := by
  unfold rawTokenEnd
  cases hl : s.literalAt pos with
  | none => exact ⟨pos, .inl rfl, rfl⟩
  | some l => exact ⟨pos + l.chars.length, .inr ⟨l, rfl, rfl⟩, rfl⟩

/-- A raw token is a single character, a literal or a token. -/
theorem rawTokenEnd_cases (s : Session) (pos : Nat) : s.rawTokenEnd pos = pos + 1 ∨
    (∃ l, s.literalAt pos = some l ∧ s.rawTokenEnd pos = pos + l.chars.length) ∨
    ∃ e ∈ s.grammar.tokens, e.2.matchAt s.text pos = some (s.rawTokenEnd pos) := by
  obtain ⟨init, hinit, hlongest⟩ := exists_rawTokenEnd_eq s pos
  have hmax : ∀ n, s.rawTokenEnd pos = max n (pos + 1) →
      s.rawTokenEnd pos = pos + 1 ∨ s.rawTokenEnd pos = n := by omega
  refine (hmax _ hlongest).elim .inl fun hlongest => ?_
  rcases foldl_max_cases (fun e : String × Token => (e.2.matchAt s.text pos).getD pos)
    s.grammar.tokens init with h | ⟨e, he, h⟩
  · have h := hlongest.trans h
    rcases hinit with rfl | ⟨l, hl, rfl⟩
    · have hpos := lt_rawTokenEnd s init
      omega
    · exact .inr (.inl ⟨l, hl, h⟩)
  · have h := hlongest.trans h
    have hpos := lt_rawTokenEnd s pos
    cases hm : e.2.matchAt s.text pos with
    | none =>
      rw [hm, Option.getD_none] at h
      omega
    | some q =>
      rw [hm, Option.getD_some] at h
      exact .inr (.inr ⟨e, he, by rw [hm, h]⟩)

/-- A text without quotes and slashes in which no delimiter stands between angle brackets on one
line. -/
structure Unquoted (text : Array Char) : Prop where
  quotes : ∀ (i : Nat), ∀ c ∈ quotes, text[i]? ≠ some c
  slash : ∀ (i : Nat), text[i]? ≠ some '/'
  angles : ∀ i j : Nat, text[i]? = some '<' → text[j]? = some '>' → i < j →
    (∀ k, i < k → k < j → text[k]? ≠ some '>' ∧ text[k]? ≠ some '\n') →
    ∀ k, i < k → k < j → ∀ c ∈ delimiters, text[k]? ≠ some c

variable {pos : Nat}

/-- What is skipped holds no delimiter. -/
theorem spared_skip (ht : Shipped s.table) (hs : Unquoted s.text) {i : Nat} (hi : pos ≤ i)
    (hi' : i < s.skip pos) : ∀ c ∈ delimiters, s.text[i]? ≠ some c := by
  intro c hc
  rcases Nat.lt_or_ge i s.text.size with hlt | hge
  · have habsent : ∀ (i : Nat), ∀ d ∈ ['/'], s.text[i]? ≠ some d := by
      simpa using hs.slash
    unfold skip Extras.skip at hi'
    cases hm : s.grammar.extras.regex.matchAt { acrossLines := true } s.text pos with
    | none =>
      rw [hm, Option.getD_none] at hi'
      omega
    | some q =>
      rw [hm, Option.getD_some] at hi'
      exact Regex.matchAt_spares habsent ht.extras_spare (by omega) hm i hi hi' c hc
  · simp [Array.getElem?_eq_none hge]

/-- A raw token that holds a delimiter is that delimiter. -/
theorem rawTokenEnd_of_delimiter (ht : Shipped s.table) (hs : Unquoted s.text) (hpos : pos < s.size)
    {i : Nat} (hi : pos ≤ i) (hi' : i < s.rawTokenEnd pos) {c : Char} (hc : c ∈ delimiters)
    (hat : s.text[i]? = some c) : s.rawTokenEnd pos = pos + 1 := by
  rcases s.rawTokenEnd_cases pos with h | ⟨l, hl, h⟩ | ⟨e, he, h⟩
  · exact h
  · -- a literal
    have hchars : l.chars = l.text.toList := congrArg Literal.chars (literalAt_eq_ofText ht.built hl)
    have hslice := (slice_of_literalAt ht.built hl).1
    have hmem : c ∈ l.text.toList := by
      rw [← hslice]
      exact mem_slice.2 ⟨i, hi, by omega, hat⟩
    rw [h, hchars, ht.literal_eq_delimiter (literal_mem ht.built hl) hc hmem]
    rfl
  · obtain ⟨r, hr, h⟩ := Token.matchAt_eq_some.1 h
    obtain ⟨hcase, rfl | hspares⟩ := ht.token_spares he hr
    · -- text in angle brackets
      obtain ⟨p, hstop, hp, hopen, hclose, hline⟩ :=
        Regex.matchAt_angled hcase (Nat.le_of_lt hpos) h
      rcases Nat.lt_or_eq_of_le hi with hlt | rfl
      · rcases Nat.lt_or_ge i p with hlt' | hge
        · exact absurd hat (hs.angles pos p hopen hclose hp hline i hlt hlt' c hc)
        · obtain rfl : i = p := by omega
          rw [hclose, Option.some.injEq] at hat
          subst hat
          exact absurd hc (by decide)
      · rw [hopen, Option.some.injEq] at hat
        subst hat
        exact absurd hc (by decide)
    · exact absurd hat (Regex.matchAt_spares hs.quotes hspares (Nat.le_of_lt hpos) h i hi hi' c hc)

/-! ## Counting brackets by tokens and by characters -/

/-- What a raw token does to the depth is what its characters do. -/
theorem nesting_rawToken (ht : Shipped s.table) (hs : Unquoted s.text) {text : String}
    (htoken : s.rawToken? pos = some text) : s.nesting pos (s.rawTokenEnd pos) =
      (if isOpener text then 1 else 0) - (if isCloser text then 1 else 0) := by
  have hpos := lt_size_of_rawToken? htoken
  have htext : text = s.slice pos (s.rawTokenEnd pos) := by
    rw [rawToken?, if_pos hpos, Option.some.injEq] at htoken
    exact htoken.symm
  by_cases hfree : ∀ c ∈ delimiters, c ∉ text.toList
  · -- neither the token nor one of its characters is a bracket
    have hopen : isOpener text = false := by
      rw [← Bool.not_eq_true]
      intro hopen
      simp only [isOpener, Bool.or_eq_true, beq_iff_eq] at hopen
      rcases hopen with (rfl | rfl) | rfl <;> exact hfree _ (by decide) (List.mem_singleton.2 rfl)
    have hclose : isCloser text = false := by
      rw [← Bool.not_eq_true]
      intro hclose
      simp only [isCloser, Bool.or_eq_true, beq_iff_eq] at hclose
      rcases hclose with (rfl | rfl) | rfl <;> exact hfree _ (by decide) (List.mem_singleton.2 rfl)
    rw [nesting, ← htext, bracketDepth_eq_zero hfree, hopen, hclose]
    rfl
  · -- the token is a delimiter
    obtain ⟨c, hc, hmem⟩ : ∃ c ∈ delimiters, c ∈ text.toList :=
      Classical.byContradiction fun hno => hfree fun c hc hmem => hno ⟨c, hc, hmem⟩
    rw [htext] at hmem
    obtain ⟨i, hi, hi', hat⟩ := mem_slice.1 hmem
    have hstop := rawTokenEnd_of_delimiter ht hs hpos hi hi' hc hat
    obtain rfl : i = pos := by omega
    have hchars : text.toList = [c] := by
      obtain ⟨hlt, heq⟩ := Array.getElem?_eq_some_iff.1 hat
      rw [htext, hstop, toList_slice, List.drop_eq_getElem_cons (by simpa using hlt),
        Nat.add_sub_cancel_left, Array.getElem_toList, heq]
      rfl
    have hsingle : text = String.ofList [c] := by rw [← hchars, String.ofList_toList]
    rw [nesting, ← htext, hchars, hsingle]
    simp only [delimiters, List.mem_cons, List.not_mem_nil, or_false] at hc
    rcases hc with rfl | rfl | rfl | rfl | rfl | rfl | rfl <;> decide

/-- Up to a raw token, characters and tokens give the same depth. -/
theorem nesting_eq_depth (ht : Shipped s.table) (hs : Unquoted s.text) {k : Nat} {t : RawToken}
    (h : (s.rawTokens pos)[k]? = some t) :
    pos ≤ t.start ∧ s.nesting pos t.start = depth ((s.rawTokens pos).take k) := by
  have hskip : ∀ {pos}, pos ≤ s.skip pos → s.nesting pos (s.skip pos) = 0 := by
    intro pos hle
    refine bracketDepth_eq_zero fun c hc hmem => ?_
    obtain ⟨i, hi, hi', hat⟩ := mem_slice.1 hmem
    exact spared_skip ht hs hi hi' c hc hat
  induction k generalizing pos with
  | zero =>
    cases htoken : s.rawToken? (s.skip pos) with
    | none => simp [rawTokens_of_none htoken] at h
    | some text =>
      rw [rawTokens_of_some htoken, List.getElem?_cons_zero, Option.some.injEq] at h
      subst h
      have hle := le_skip_of_lt (lt_size_of_rawToken? htoken)
      exact ⟨hle, by rw [hskip hle]; rfl⟩
  | succ k ih =>
    cases htoken : s.rawToken? (s.skip pos) with
    | none => simp [rawTokens_of_none htoken] at h
    | some text =>
      have hle := le_skip_of_lt (lt_size_of_rawToken? htoken)
      have hend := lt_rawTokenEnd s (s.skip pos)
      have htokens := rawTokens_of_some htoken
      rw [htokens, List.getElem?_cons_succ] at h
      obtain ⟨hstart, hdepth⟩ := ih h
      have htoken := nesting_rawToken ht hs htoken
      refine ⟨by omega, ?_⟩
      rw [nesting_add s (show pos ≤ s.skip pos from hle) (by omega), hskip hle,
        nesting_add s (Nat.le_of_lt hend) hstart, hdepth, htoken, htokens, List.take_succ_cons]
      simp only [depth, List.countP_cons]
      split <;> split <;> omega

/-- Every semicolon is a raw token. -/
theorem exists_semicolon (ht : Shipped s.table) (hs : Unquoted s.text) {i : Nat} (hi : pos ≤ i)
    (hat : s.text[i]? = some ';') :
    ∃ k : Nat, (s.rawTokens pos)[k]? = some ⟨i, i + 1, ";"⟩ := by
  have hsemi : ';' ∈ delimiters := by decide
  induction pos using rawTokens.induct s with
  | case1 pos hnone =>
    have hsize : i < s.size := (Array.getElem?_eq_some_iff.1 hat).1
    have hskip : s.skip pos ≤ i := by
      refine Nat.le_of_not_lt fun hlt => ?_
      exact spared_skip ht hs hi hlt _ hsemi hat
    rw [rawToken?, if_pos (Nat.lt_of_le_of_lt hskip hsize)] at hnone
    cases hnone
  | case2 pos text htoken ih =>
    have hskip : s.skip pos ≤ i := by
      refine Nat.le_of_not_lt fun hlt => ?_
      exact spared_skip ht hs hi hlt _ hsemi hat
    rw [rawTokens_of_some htoken]
    rcases Nat.lt_or_ge i (s.rawTokenEnd (s.skip pos)) with hlt | hge
    · have hpos := lt_size_of_rawToken? htoken
      have hstop := rawTokenEnd_of_delimiter ht hs hpos hskip hlt hsemi hat
      obtain rfl : i = s.skip pos := by omega
      refine ⟨0, ?_⟩
      have htext : text = ";" := by
        rw [rawToken?, if_pos hpos, hstop, Option.some.injEq] at htoken
        obtain ⟨hlt, heq⟩ := Array.getElem?_eq_some_iff.1 hat
        rw [← htoken, ← String.toList_inj, toList_slice, Nat.add_sub_cancel_left,
          List.drop_eq_getElem_cons (by simpa using hlt), Array.getElem_toList, heq]
        rfl
      rw [List.getElem?_cons_zero, hstop, htext]
    · obtain ⟨k, hk⟩ := ih hge
      exact ⟨k + 1, hk⟩

/-- Raw tokens follow each other. -/
theorem rawTokens_pairwise (s : Session) (pos : Nat) :
    (s.rawTokens pos).Pairwise fun t t' => t.stop ≤ t'.start := by
  have hfrom : ∀ pos, ∀ t ∈ s.rawTokens pos, pos ≤ t.start := by
    intro pos
    induction pos using rawTokens.induct s with
    | case1 pos hnone => simp [rawTokens_of_none hnone]
    | case2 pos text htoken ih =>
      have hle := le_skip_of_lt (lt_size_of_rawToken? htoken)
      have hend := lt_rawTokenEnd s (s.skip pos)
      rw [rawTokens_of_some htoken]
      refine List.forall_mem_cons.2 ⟨hle, fun t hmem => ?_⟩
      have := ih t hmem
      omega
  induction pos using rawTokens.induct s with
  | case1 pos hnone => simp [rawTokens_of_none hnone]
  | case2 pos text htoken ih =>
    rw [rawTokens_of_some htoken]
    exact List.pairwise_cons.2 ⟨fun t hmem => hfrom _ t hmem, ih⟩

/-! ## Semicolons -/

/-- **No semicolon outside all brackets is left behind.** In a text without quotes and comments, in
which no delimiter stands between angle brackets, an error region of a ready-made grammar ends with
the first semicolon outside the brackets it opens. -/
theorem errorSpan_semicolon (ht : Shipped s.table) (hs : Unquoted s.text) {a b : Nat}
    (h : s.errorSpan pos = some (a, b)) {i : Nat} (hi : a ≤ i) (hi' : i + 1 < b)
    (hat : s.text[i]? = some ';') : s.nesting a i ≠ 0 := by
  intro hzero
  obtain ⟨r, hr⟩ := ht.extras_regex
  have hskip := skip_skip (s := s) hr
  obtain ⟨n, first, last, htakes, hfirst, hlast, rfl, rfl⟩ := errorSpan_takes hskip h
  have hstart := (errorSpan_start h).1
  rw [hstart] at hi hzero
  obtain ⟨k, hk⟩ := exists_semicolon ht hs hi hat
  have hdepth := (nesting_eq_depth ht hs hk).2
  rw [rawTokens_skip hskip] at hk hdepth
  rw [hzero] at hdepth
  have hends : EndsRegion (s.rawTokens pos) k := ⟨_, hk, .inl ⟨rfl, hdepth.symm⟩⟩
  -- the last token taken in stands before the semicolon or is the semicolon
  have hpos : n ≠ 0 := by
    rintro rfl
    simp at hlast
  have hlast : (s.rawTokens pos)[n - 1]? = some last := by
    rw [List.getLast?_eq_getElem?, List.length_take, Nat.min_eq_left htakes.within,
      List.getElem?_take, if_pos (by omega)] at hlast
    exact hlast
  rcases Nat.lt_trichotomy (k + 1) n with hlt | heq | hgt
  · exact htakes.goesOn k hlt hends
  · rw [← heq, Nat.add_sub_cancel, hk, Option.some.injEq] at hlast
    rw [← hlast] at hi'
    exact Nat.lt_irrefl _ hi'
  · obtain ⟨hn, hlast⟩ := List.getElem?_eq_some_iff.1 hlast
    obtain ⟨hk', hk⟩ := List.getElem?_eq_some_iff.1 hk
    have hbefore :=
      List.pairwise_iff_getElem.1 (s.rawTokens_pairwise pos) (n - 1) k hn hk' (by omega)
    simp only [hlast, hk] at hbefore
    omega

/-- A semicolon inside brackets does not end a region. -/
theorem errorSpan_semicolon_bracket : ∃ s : Session, Shipped s.table ∧ Unquoted s.text ∧
    s.errorSpan 0 = some (0, 11) ∧ s.text[4]? = some ';' ∧ s.nesting 0 4 ≠ 0 := by
  have hmem : ∀ (i : Nat) (c : Char), "= (a; b) c; d".toList.toArray[i]? = some c →
      c ∈ "= (a; b) c; d".toList := fun i c hat => Array.mem_toList_iff.2 (Array.mem_of_getElem? hat)
  have hplain : ∀ c ∈ "= (a; b) c; d".toList, c ∉ '/' :: '<' :: quotes := by simp [quotes]
  have hs : Unquoted "= (a; b) c; d".toList.toArray :=
    { quotes := fun i c hc hat => hplain c (hmem i c hat) (by simp [hc])
      slash := fun i hat => hplain _ (hmem i _ hat) (by simp)
      angles := fun i j hopen => absurd (by simp) (hplain _ (hmem i _ hopen)) }
  have hshipped : Shipped cBuilt := .inl cTable_eq
  refine ⟨⟨cBuilt, true, "= (a; b) c; d".toList.toArray⟩, hshipped, hs, errorSpan_broken, rfl, ?_⟩
  exact errorSpan_semicolon hshipped hs errorSpan_broken (by decide) (by decide) rfl

set_option maxRecDepth 100000 in
/-- Where delimiters do stand between angle brackets, a region takes in statements behind the one that
is broken. -/
theorem errorSpan_overruns : ∃ s : Session, Shipped s.table ∧
    s.text = "int = a < b; int y; c > d;".toList.toArray ∧
    (∀ (i : Nat), ∀ c ∈ '/' :: quotes, s.text[i]? ≠ some c) ∧ s.errorSpan 0 = some (0, 26) ∧
    s.text[11]? = some ';' ∧ ∀ i ≤ 11, s.nesting 0 i = 0 := by
  have hspan : errorSpan ⟨cBuilt, true, "int = a < b; int y; c > d;".toList.toArray⟩ 0 =
      some (0, 26) := by
    decide +kernel
  refine ⟨_, .inl cTable_eq, rfl, fun i c hc hat => ?_, hspan, rfl, fun i hi => ?_⟩
  · have hall : ∀ d ∈ "int = a < b; int y; c > d;".toList, d ∉ '/' :: quotes := by
      simp [quotes]
    exact hall c (Array.mem_toList_iff.2 (Array.mem_of_getElem? hat)) hc
  · have hall : ∀ d ∈ "int = a < b; int y; c > d;".toList.take 11, d ∉ delimiters := by
      simp [delimiters]
    refine bracketDepth_eq_zero fun c hc hmem => ?_
    rw [toList_slice] at hmem
    exact hall c (List.take_subset_take_left _ hi hmem) hc

end Session

end LayeredGrammar
