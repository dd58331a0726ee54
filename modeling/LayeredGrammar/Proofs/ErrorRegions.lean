import LayeredGrammar.Proofs.Catalog.Shipped

/-!
# What an error region holds

From a position on a text is a list of raw tokens (`Session.rawTokens`), and an error region holds
the first few of them: `Session.Takes` says how many. A token the region stops before
(`Session.StopsBefore`) is not one of them, a token that ends it (`EndsRegion`) is the last one, and
both are counted against the brackets that are open so far (`depth`).

`Session.errorSpan_exact` is the main result: the scanner finds a region exactly if there is a first
token to take in, and the region goes from the start of that token to the end of the last one. Its
step is `Session.Underway.pass`, one token at a time; `Session.Underway.regionEnd` is the run.
-/

namespace LayeredGrammar

/-- A raw token where it stands. -/
structure RawToken where
  start : Nat
  stop : Nat
  text : String
  deriving DecidableEq, Repr

/-- The extras of a grammar are those its layers ask for, as they are read. -/
theorem ParseTable.read_extras {layers : List Layer} {t : ParseTable}
    (h : (ParseTable.ofLayers layers).outcome = .ok t) :
    Regex.read? (Settings.ofLayers layers).extras = some t.grammar.extras.regex := by
  obtain ⟨m, _, _, _, _, h⟩ := Grammar.exists_merged (ParseTable.ofLayers_eq_ok h).1
  rw [← h]
  exact t.grammar.extras.reads

/-- The extras every grammar has by default are a repetition. -/
theorem ParseTable.extras_loop {layers : List Layer} {t : ParseTable}
    (h : (ParseTable.ofLayers layers).outcome = .ok t)
    (hextras : (Settings.ofLayers layers).extras = ({} : Settings).extras) :
    ∃ r, t.grammar.extras.regex = .loop r none true := by
  obtain ⟨other, hother⟩ := Catalog.read_blanks
  have hreads := ParseTable.read_extras h
  rw [hextras, hother] at hreads
  exact ⟨.alt .blanks other, (Option.some.inj hreads).symm⟩

namespace Session

variable {s : Session} {ts : List RawToken}

/-! ## Raw tokens -/

/-- The raw tokens from a position on, each looked for behind the extras after the one before. -/
def rawTokens (s : Session) (pos : Nat) : List RawToken :=
  match _htoken : s.rawToken? (s.skip pos) with
  | none => []
  | some text =>
    ⟨s.skip pos, s.rawTokenEnd (s.skip pos), text⟩ :: s.rawTokens (s.rawTokenEnd (s.skip pos))
termination_by s.size - pos
decreasing_by
  have hlt := lt_size_of_rawToken? _htoken
  have hle := le_skip_of_lt hlt
  have hend := lt_rawTokenEnd s (s.skip pos)
  omega

theorem rawTokens_of_none {pos : Nat} (h : s.rawToken? (s.skip pos) = none) :
    s.rawTokens pos = [] := by
  rw [rawTokens]
  split
  · rfl
  · rename_i text htext
    rw [h] at htext
    cases htext

theorem rawTokens_of_some {pos : Nat} {text : String} (h : s.rawToken? (s.skip pos) = some text) :
    s.rawTokens pos = ⟨s.skip pos, s.rawTokenEnd (s.skip pos), text⟩ ::
      s.rawTokens (s.rawTokenEnd (s.skip pos)) := by
  rw [rawTokens]
  split
  · rename_i htext
    rw [h] at htext
    cases htext
  · rename_i text' htext
    rw [h] at htext
    cases htext
    rfl

/-- Extras in front of the first token do not matter. -/
theorem rawTokens_skip (hskip : ∀ p, s.skip (s.skip p) = s.skip p) (pos : Nat) :
    s.rawTokens (s.skip pos) = s.rawTokens pos := by
  cases h : s.rawToken? (s.skip pos) with
  | none => rw [rawTokens_of_none h, rawTokens_of_none (by rw [hskip, h])]
  | some text =>
    have hagain : s.rawToken? (s.skip (s.skip pos)) = some text := by rw [hskip, h]
    rw [rawTokens_of_some h, rawTokens_of_some hagain, hskip]

/-! ## Brackets -/

/-- How many brackets are open behind some tokens, less those that were never opened. -/
def depth (ts : List RawToken) : Int :=
  (ts.countP fun t => isOpener t.text) - (ts.countP fun t => isCloser t.text)

@[simp] theorem depth_nil : depth [] = 0 := rfl

/-- What one token does to the depth. -/
theorem depth_take_succ {k : Nat} {t : RawToken} (h : ts[k]? = some t) :
    depth (ts.take (k + 1)) = depth (ts.take k) + (if isOpener t.text then 1 else 0) -
      (if isCloser t.text then 1 else 0) := by
  rw [List.take_add_one, h]
  simp only [depth, Option.toList_some, List.countP_append, List.countP_singleton]
  split <;> split <;> omega

theorem not_isCloser_of_isOpener {text : String} (h : isOpener text = true) :
    isCloser text = false := by
  simp only [isOpener, Bool.or_eq_true, beq_iff_eq] at h
  rcases h with (rfl | rfl) | rfl <;> decide

/-! ## How many tokens a region takes in -/

/-- A region stops before the token with a number: a closing bracket or a recovery stop outside all
brackets. -/
def StopsBefore (s : Session) (ts : List RawToken) (i : Nat) : Prop :=
  ∃ t, ts[i]? = some t ∧ s.isStop t.text = true ∧ depth (ts.take i) = 0

/-- A region ends with the token with a number: a semicolon outside all brackets, or a closing brace
that leaves no bracket open. -/
def EndsRegion (ts : List RawToken) (i : Nat) : Prop :=
  ∃ t, ts[i]? = some t ∧
    (t.text = ";" ∧ depth (ts.take i) = 0 ∨ t.text = "\x7d" ∧ depth (ts.take (i + 1)) = 0)

/-- A region takes in the first `n` tokens: all up to the first one that ends it, or to the one
before which it stops, or to the end of the text. -/
structure Takes (s : Session) (ts : List RawToken) (n : Nat) : Prop where
  within : n ≤ ts.length
  passes : ∀ i < n, ¬ s.StopsBefore ts i
  goesOn : ∀ i, i + 1 < n → ¬ EndsRegion ts i
  rests : n = ts.length ∨ s.StopsBefore ts n ∨ ∃ i, n = i + 1 ∧ EndsRegion ts i

theorem Takes.le {n m : Nat} (hn : s.Takes ts n) (hm : s.Takes ts m) : m ≤ n := by
  refine Nat.le_of_not_lt fun hlt => ?_
  rcases hn.rests with h | h | ⟨i, rfl, h⟩
  · have := hm.within
    omega
  · exact hm.passes n hlt h
  · exact hm.goesOn i hlt h

/-- The number of tokens a region takes in is determined. -/
theorem Takes.unique {n m : Nat} (hn : s.Takes ts n) (hm : s.Takes ts m) : n = m :=
  Nat.le_antisymm (hm.le hn) (hn.le hm)

/-- No bracket is closed in a region that was not opened there. -/
theorem depth_nonneg {n : Nat} (hpasses : ∀ i < n, ¬ s.StopsBefore ts i) :
    ∀ k ≤ n, 0 ≤ depth (ts.take k)
  | 0, _ => by simp
  | k + 1, hk => by
    have ih : 0 ≤ depth (ts.take k) := depth_nonneg hpasses k (by omega)
    cases ht : ts[k]? with
    | none => rwa [List.take_add_one, ht, Option.toList_none, List.append_nil]
    | some t =>
      rw [depth_take_succ ht]
      -- a closing bracket is taken in only behind an open one
      have hopen : isCloser t.text = true → depth (ts.take k) ≠ 0 := fun hcloser hzero =>
        hpasses k hk ⟨t, ht, by simp [isStop, hcloser], hzero⟩
      split <;> split <;> rename_i hcloser
      · have := hopen hcloser
        omega
      · omega
      · have := hopen hcloser
        omega
      · omega

/-! ## The scanner -/

/-- The scanner has taken in `k` tokens, which leave `d` brackets open, and goes on at `cursor`. -/
structure Underway (s : Session) (ts : List RawToken) (k d cursor : Nat) : Prop where
  within : k ≤ ts.length
  rest : ts.drop k = s.rawTokens cursor
  depth_eq : depth (ts.take k) = d
  passes : ∀ i < k, ¬ s.StopsBefore ts i
  goesOn : ∀ i < k, ¬ EndsRegion ts i
  stop_eq : ∀ last, (ts.take k).getLast? = some last → last.stop = cursor

theorem underway_zero {cursor : Nat} : s.Underway (s.rawTokens cursor) 0 0 cursor where
  within := Nat.zero_le _
  rest := rfl
  depth_eq := rfl
  passes := fun i hi => absurd hi (Nat.not_lt_zero i)
  goesOn := fun i hi => absurd hi (Nat.not_lt_zero i)
  stop_eq := fun last hlast => by simp at hlast

namespace Underway

variable {k d cursor : Nat}

/-- The next token of the scanner, if there is one. -/
theorem next_token (h : s.Underway ts k d cursor) {text : String}
    (htoken : s.rawToken? (s.skip cursor) = some text) :
    ts[k]? = some ⟨s.skip cursor, s.rawTokenEnd (s.skip cursor), text⟩ ∧
      ts.drop (k + 1) = s.rawTokens (s.rawTokenEnd (s.skip cursor)) := by
  have hrest := h.rest.trans (rawTokens_of_some htoken)
  constructor
  · rw [← List.head?_drop, hrest, List.head?_cons]
  · rw [← List.tail_drop, hrest, List.tail_cons]

/-- Behind the last token the text is done. -/
theorem length_eq (h : s.Underway ts k d cursor)
    (htoken : s.rawToken? (s.skip cursor) = none) : k = ts.length := by
  have hnil : ts.drop k = [] := h.rest.trans (rawTokens_of_none htoken)
  have := h.within
  have := List.drop_eq_nil_iff.1 hnil
  omega

/-- One more token that does not end the region. -/
theorem succ (h : s.Underway ts k d cursor) {text : String} {d' : Nat}
    (htoken : s.rawToken? (s.skip cursor) = some text) (hdepth : depth (ts.take (k + 1)) = d')
    (hstop : ¬ s.StopsBefore ts k) (hend : ¬ EndsRegion ts k) :
    s.Underway ts (k + 1) d' (s.rawTokenEnd (s.skip cursor)) where
  within := by
    obtain ⟨hk, _⟩ := List.getElem?_eq_some_iff.1 (h.next_token htoken).1
    omega
  rest := (h.next_token htoken).2
  depth_eq := hdepth
  passes := fun i hi => by
    rcases Nat.lt_succ_iff_lt_or_eq.1 hi with hi | rfl
    · exact h.passes i hi
    · exact hstop
  goesOn := fun i hi => by
    rcases Nat.lt_succ_iff_lt_or_eq.1 hi with hi | rfl
    · exact h.goesOn i hi
    · exact hend
  stop_eq := fun last hlast => by
    rw [List.take_add_one, (h.next_token htoken).1] at hlast
    simp only [Option.toList_some, List.getLast?_concat, Option.some.injEq] at hlast
    rw [← hlast]

/-- **One token.** The scanner gives up where the text or the region is done, ends with a token that
ends the region, and otherwise has taken in one token more. -/
theorem pass (h : s.Underway ts k d cursor) :
    match s.regionPass d cursor with
    | none => k = ts.length ∨ s.StopsBefore ts k
    | some (stop, none) =>
      (∃ t, ts[k]? = some t ∧ t.stop = stop) ∧ ¬ s.StopsBefore ts k ∧ EndsRegion ts k
    | some (stop, some d') => s.Underway ts (k + 1) d' stop := by
  unfold regionPass
  simp only
  cases htoken : s.rawToken? (s.skip cursor) with
  | none => exact .inl (h.length_eq htoken)
  | some text =>
    have ht := (h.next_token htoken).1
    have hdepth := h.depth_eq
    have hafter := depth_take_succ ht
    simp only at hafter ⊢
    by_cases hblock : d = 0 ∧ s.isStop text = true
    · rw [if_pos hblock]
      exact .inr ⟨_, ht, hblock.2, by rw [hdepth, hblock.1]; rfl⟩
    rw [if_neg hblock]
    have hpass : ¬ s.StopsBefore ts k := by
      rintro ⟨t, ht', hstop, hzero⟩
      rw [ht] at ht'
      cases ht'
      exact hblock ⟨by omega, hstop⟩
    -- what ends the region is a semicolon or a closing brace
    have hends : EndsRegion ts k ↔
        text = ";" ∧ d = 0 ∨ text = "\x7d" ∧ depth (ts.take (k + 1)) = 0 := by
      constructor
      · rintro ⟨t, ht', hend⟩
        rw [ht] at ht'
        cases ht'
        exact hend.imp_left fun hsemi => ⟨hsemi.1, by have := hsemi.2; omega⟩
      · exact fun hend => ⟨_, ht, hend.imp_left fun hsemi => ⟨hsemi.1, by omega⟩⟩
    by_cases hopen : isOpener text = true
    · have hclose := not_isCloser_of_isOpener hopen
      rw [if_pos hopen]
      rw [if_pos hopen, if_neg (by simp [hclose])] at hafter
      refine h.succ htoken (by omega) hpass fun hend => ?_
      rcases hends.1 hend with ⟨rfl, _⟩ | ⟨rfl, _⟩ <;> exact absurd hopen (by decide)
    rw [if_neg hopen] at hafter ⊢
    by_cases hclose : isCloser text = true
    · rw [if_pos hclose] at hafter ⊢
      have hpos : d ≠ 0 := fun hzero => hblock ⟨hzero, by simp [isStop, hclose]⟩
      have hsemi : text ≠ ";" := by
        rintro rfl
        exact absurd hclose (by decide)
      by_cases hlast : d = 1 ∧ text = "\x7d"
      · rw [if_pos hlast]
        exact ⟨⟨_, ht, rfl⟩, hpass, hends.2 (.inr ⟨hlast.2, by omega⟩)⟩
      · rw [if_neg hlast]
        refine h.succ htoken (by omega) hpass fun hend => ?_
        rcases hends.1 hend with ⟨hsemi', _⟩ | ⟨hbrace, hzero⟩
        · exact hsemi hsemi'
        · exact hlast ⟨by omega, hbrace⟩
    · rw [if_neg hclose] at hafter ⊢
      by_cases hlast : text = ";" ∧ d = 0
      · rw [if_pos hlast]
        exact ⟨⟨_, ht, rfl⟩, hpass, hends.2 (.inl hlast)⟩
      · rw [if_neg hlast]
        refine h.succ htoken (by omega) hpass fun hend => ?_
        rcases hends.1 hend with hsemi | ⟨rfl, _⟩
        · exact hlast hsemi
        · exact absurd hclose (by decide)

/-- Where the scanner gives up, the region holds what was taken in. -/
theorem takes (h : s.Underway ts k d cursor) (hrests : k = ts.length ∨ s.StopsBefore ts k) :
    s.Takes ts k where
  within := h.within
  passes := h.passes
  goesOn := fun i hi => h.goesOn i (by omega)
  rests := hrests.imp_right Or.inl

/-- Where a token ends the region, the region holds it too. -/
theorem takes_succ (h : s.Underway ts k d cursor) {t : RawToken} (ht : ts[k]? = some t)
    (hstop : ¬ s.StopsBefore ts k) (hend : EndsRegion ts k) : s.Takes ts (k + 1) where
  within := by
    obtain ⟨hk, _⟩ := List.getElem?_eq_some_iff.1 ht
    omega
  passes := fun i hi => by
    rcases Nat.lt_succ_iff_lt_or_eq.1 hi with hi | rfl
    · exact h.passes i hi
    · exact hstop
  goesOn := fun i hi => h.goesOn i (by omega)
  rests := .inr (.inr ⟨k, rfl, hend⟩)

/-- **The whole region.** The scanner takes in as many tokens as it should and ends behind the last
one. -/
theorem regionEnd {n : Nat} (h : s.Underway ts k d cursor) (hn : s.size - cursor < n) :
    ∃ m, s.Takes ts m ∧
      ∀ last, (ts.take m).getLast? = some last → last.stop = s.regionEnd n d cursor := by
  induction n generalizing k d cursor with
  | zero => omega
  | succ n ih =>
    have hpass := h.pass
    unfold Session.regionEnd
    rcases hnext : s.regionPass d cursor with _ | ⟨stop, _ | d'⟩
    · simp only [hnext] at hpass ⊢
      exact ⟨k, h.takes hpass, h.stop_eq⟩
    · simp only [hnext] at hpass ⊢
      obtain ⟨⟨t, ht, rfl⟩, hpass, hend⟩ := hpass
      refine ⟨k + 1, h.takes_succ ht hpass hend, fun last hlast => ?_⟩
      rw [List.take_add_one, ht] at hlast
      simp only [Option.toList_some, List.getLast?_concat, Option.some.injEq] at hlast
      rw [← hlast]
    · simp only [hnext] at hpass ⊢
      have hadv := regionPass_advances hnext
      exact ih hpass (by omega)

end Underway

/-! ## Error regions -/

/-- There is no region exactly if there is no token or the first one stops it. -/
theorem errorSpan_eq_none {pos : Nat} : s.errorSpan pos = none ↔
    ∀ first, (s.rawTokens pos).head? = some first → s.isStop first.text = true := by
  unfold errorSpan
  simp only
  cases htoken : s.rawToken? (s.skip pos) with
  | none => simp [rawTokens_of_none htoken]
  | some text => simp [rawTokens_of_some htoken]

/-- A region that is there goes from the start of the first token to the end of the last one it
takes in. -/
theorem errorSpan_takes (hskip : ∀ p, s.skip (s.skip p) = s.skip p) {pos a b : Nat}
    (h : s.errorSpan pos = some (a, b)) : ∃ n first last, s.Takes (s.rawTokens pos) n ∧
      ((s.rawTokens pos).take n).head? = some first ∧
      ((s.rawTokens pos).take n).getLast? = some last ∧ a = first.start ∧ b = last.stop := by
  have hnone : ¬ s.errorSpan pos = none := by simp [h]
  rw [errorSpan_eq_none] at hnone
  unfold errorSpan at h
  simp only at h
  cases htoken : s.rawToken? (s.skip pos) with
  | none =>
    rw [htoken] at h
    cases h
  | some text =>
    have hts := rawTokens_of_some htoken
    simp only [htoken] at h
    split at h
    · cases h
    · rename_i hfirst
      cases h
      have hstart : s.Underway (s.rawTokens pos) 0 0 (s.skip pos) := by
        rw [← rawTokens_skip hskip pos]
        exact underway_zero
      have hfuel : s.size - s.skip pos < s.size + 1 := by omega
      obtain ⟨n, htakes, hstop⟩ := hstart.regionEnd hfuel
      -- the first token does not stop the region, so it is taken in
      have hpos : n ≠ 0 := by
        rintro rfl
        rcases htakes.rests with hlength | ⟨t, ht, hblock, _⟩ | ⟨i, hi, _⟩
        · rw [hts] at hlength
          cases hlength
        · rw [hts, List.getElem?_cons_zero, Option.some.injEq] at ht
          subst ht
          exact hfirst hblock
        · cases hi
      have htake : (s.rawTokens pos).take n ≠ [] := by
        rw [hts, Ne, List.take_eq_nil_iff]
        rintro (hzero | hnil)
        · exact hpos hzero
        · cases hnil
      have hhead : ((s.rawTokens pos).take n).head? =
          some ⟨s.skip pos, s.rawTokenEnd (s.skip pos), text⟩ := by
        rw [List.head?_take, if_neg hpos, hts, List.head?_cons]
      exact ⟨n, _, _, htakes, hhead, List.getLast?_eq_some_getLast htake, rfl,
        (hstop _ (List.getLast?_eq_some_getLast htake)).symm⟩

/-- **An error region holds the tokens it should.** For every grammar that builds with the extras
every grammar has by default: there is no region exactly if there is no token or the first one stops
it; otherwise the region goes from the start of the first token to the end of the last of those it
takes in, is not empty, and never closes a bracket it has not opened. -/
theorem errorSpan_exact {layers : List Layer} (s : Session)
    (htable : (ParseTable.ofLayers layers).outcome = .ok s.table)
    (hextras : (Settings.ofLayers layers).extras = ({} : Settings).extras) (pos : Nat) :
    (s.errorSpan pos = none ↔
      ∀ first, (s.rawTokens pos).head? = some first → s.isStop first.text = true) ∧
    (∀ a b, s.errorSpan pos = some (a, b) ↔
      ∃ n first last, s.Takes (s.rawTokens pos) n ∧
        ((s.rawTokens pos).take n).head? = some first ∧
        ((s.rawTokens pos).take n).getLast? = some last ∧ a = first.start ∧ b = last.stop) ∧
    (∀ a b, s.errorSpan pos = some (a, b) → a < b) ∧
    ∀ n, s.Takes (s.rawTokens pos) n → ∀ k ≤ n, 0 ≤ depth ((s.rawTokens pos).take k) := by
  obtain ⟨r, hr⟩ := ParseTable.extras_loop htable hextras
  have hskip := skip_skip (s := s) hr
  refine ⟨errorSpan_eq_none, fun a b => ⟨errorSpan_takes hskip, ?_⟩,
    fun a b => errorSpan_lt hskip, fun n hn => depth_nonneg hn.passes⟩
  rintro ⟨n, first, last, htakes, hfirst, hlast, rfl, rfl⟩
  -- the region that is there takes in as many tokens
  have hsome : s.errorSpan pos ≠ none := by
    intro hnone
    have hpos : n ≠ 0 := by
      rintro rfl
      simp at hfirst
    rw [List.head?_take, if_neg hpos] at hfirst
    refine htakes.passes 0 (Nat.pos_of_ne_zero hpos) ⟨first, ?_, ?_, by simp⟩
    · rw [← List.head?_eq_getElem?, hfirst]
    · exact errorSpan_eq_none.1 hnone first hfirst
  obtain ⟨⟨a, b⟩, hspan⟩ := Option.ne_none_iff_exists'.1 hsome
  obtain ⟨m, first', last', htakes', hfirst', hlast', rfl, rfl⟩ := errorSpan_takes hskip hspan
  cases htakes.unique htakes'
  rw [hfirst] at hfirst'
  rw [hlast] at hlast'
  cases hfirst'
  cases hlast'
  exact hspan

set_option maxRecDepth 100000 in
/-- The region at the start of a broken statement in C. -/
theorem errorSpan_broken :
    errorSpan ⟨Catalog.cBuilt, true, "= (a; b) c; d".toList.toArray⟩ 0 = some (0, 11) := by
  decide +kernel

/-- A region that runs over a semicolon inside brackets and up to the next one. -/
theorem errorSpan_exact_brackets : ∃ s : Session,
    (ParseTable.ofLayers Catalog.cLayers).outcome = .ok s.table ∧
      (Settings.ofLayers Catalog.cLayers).extras = ({} : Settings).extras ∧
      s.text = "= (a; b) c; d".toList.toArray ∧ s.errorSpan 0 = some (0, 11) ∧
      ∃ n first last, s.Takes (s.rawTokens 0) n ∧
        ((s.rawTokens 0).take n).head? = some first ∧
        ((s.rawTokens 0).take n).getLast? = some last ∧ 0 = first.start ∧ 11 = last.stop := by
  have hbuilt : (ParseTable.ofLayers Catalog.cLayers).outcome = .ok Catalog.cBuilt :=
    Catalog.cTable_eq
  have hexact := errorSpan_exact ⟨Catalog.cBuilt, true, "= (a; b) c; d".toList.toArray⟩ hbuilt rfl 0
  exact ⟨_, hbuilt, rfl, rfl, errorSpan_broken, (hexact.2.1 0 11).1 errorSpan_broken⟩

end Session

end LayeredGrammar
