import LayeredGrammar.Proofs.Pattern.Pasting
import LayeredGrammar.Proofs.Scanning

/-!
# Tokens that match whole words

Word boundaries are pasted around the text of an expression, which is then read as a whole. So they
belong to what stands next to them: the first boundary to the first of the alternatives outside all
groups, the second one to the last of them (`Regex.read?_with_boundaries`).

* `Token.boundaries_of_match` — where no bar stands outside groups, a token with word boundaries
  starts and ends at a word boundary of the text.
* `Token.boundaries_of_grouped` — so it does, whatever the expression, with a group around it.
* `Token.declare_cuts_word` — with a bar outside groups it may be a part of a longer word.

The proof reads the same marks with and without a boundary before them (`Regex.FrontedIn`): the present
group may be any, but the outermost one keeps the boundary at its very beginning.
-/

namespace LayeredGrammar

namespace Regex

/-! ## Bars outside groups -/

/-- Whether a mark separates alternatives. -/
def Mark.isBar : Mark → Bool
  | .bar => true
  | _ => false

/-- How many groups are open after a mark. -/
def depthAfter (depth : Nat) : Mark → Nat
  | .groupStart => depth + 1
  | .groupEnd => depth - 1
  | _ => depth

/-- Whether one of some marks is a bar outside groups, when `depth` groups are open before them. -/
def barOutside : Nat → List Mark → Bool
  | _, [] => false
  | depth, m :: ms => (m.isBar && depth == 0) || barOutside (depthAfter depth m) ms

theorem length_afterMark {m : Mark} {σ σ' : List Frame × Frame} (h : afterMark σ m = some σ') :
    σ'.1.length = depthAfter σ.1.length m := by
  obtain ⟨outer, frame⟩ := σ
  cases m with
  | single r | bar | groupStart =>
    cases h
    rfl
  | groupEnd =>
    cases outer with
    | nil => cases h
    | cons f fs =>
      cases h
      rfl
  | quantifier least most greedy =>
    simp only [afterMark] at h
    split at h
    · cases h
    · cases h
      rfl
  | unknown => cases h

/-- In a group that is closed behind them, marks have no bar outside groups. -/
theorem barOutside_grouped {ms : List Mark} {σ σ' : List Frame × Frame}
    (h : ms.foldlM afterMark σ = some σ') (rest : List Mark) :
    barOutside (σ.1.length + 1) (ms ++ rest) = barOutside (σ'.1.length + 1) rest := by
  induction ms generalizing σ with
  | nil =>
    cases h
    rfl
  | cons m ms ih =>
    rw [List.foldlM_cons] at h
    obtain ⟨next, hnext, h⟩ := Option.bind_eq_some_iff.1 h
    have hdepth : depthAfter (σ.1.length + 1) m = next.1.length + 1 := by
      rw [length_afterMark hnext]
      cases m with
      | groupEnd =>
        obtain ⟨outer, frame⟩ := σ
        cases outer with
        | nil => cases hnext
        | cons f fs => rfl
      | _ => rfl
    rw [List.cons_append, barOutside, hdepth, ih h]
    simp

/-! ## A boundary in front -/

/-- An open group with a boundary before its first alternative, and without; whether it has more than
one alternative. -/
inductive Fronted : Bool → Frame → Frame → Prop
  | single (items) : Fronted false ⟨[], items⟩ ⟨[], items ++ [.boundary]⟩
  | several (done first items) : Fronted true ⟨done ++ [joined first], items⟩
      ⟨done ++ [joined (first ++ [.boundary])], items⟩

namespace Fronted

variable {barred : Bool} {f f' : Frame}

theorem push (h : Fronted barred f f') (r : Regex) :
    Fronted barred { f with items := r :: f.items } { f' with items := r :: f'.items } := by
  cases h with
  | single items => exact .single (r :: items)
  | several done first items => exact .several done first (r :: items)

theorem bar (h : Fronted barred f f') :
    Fronted true ⟨joined f.items :: f.done, []⟩ ⟨joined f'.items :: f'.done, []⟩ := by
  cases h with
  | single items => exact .several [] items []
  | several done first items => exact .several (joined items :: done) first []

/-- The latest item may be put into another in both. -/
theorem replace (h : Fronted barred f f') {r : Regex} {items : List Regex} (hf : f.items = r :: items)
    (r' : Regex) : ∃ items', f'.items = r :: items' ∧
      Fronted barred { f with items := r' :: items } { f' with items := r' :: items' } := by
  cases h with
  | single =>
    cases hf
    exact ⟨items ++ [boundary], rfl, .single (r' :: items)⟩
  | several done first =>
    cases hf
    exact ⟨items, rfl, .several done first (r' :: items)⟩

end Fronted

/-- Open groups of which the outermost one has a boundary in front, and without it. -/
inductive FrontedIn : Bool → List Frame × Frame → List Frame × Frame → Prop
  | flat {barred f f'} (h : Fronted barred f f') : FrontedIn barred ([], f) ([], f')
  | nested {barred} (outer frame) {f f'} (h : Fronted barred f f') :
    FrontedIn barred (outer ++ [f], frame) (outer ++ [f'], frame)

/-- A mark that is read without the boundary is read with it. -/
theorem FrontedIn.afterMark {barred : Bool} {σ σ' τ : List Frame × Frame} (h : FrontedIn barred σ σ')
    {m : Mark} (hm : afterMark σ m = some τ) : ∃ τ', Regex.afterMark σ' m = some τ' ∧
      FrontedIn (barred || m.isBar && σ.1.length == 0) τ τ' := by
  cases h with
  | @flat f f' h =>
    cases m with
    | single r =>
      cases hm
      exact ⟨_, rfl, .flat (by simpa [Mark.isBar] using h.push r)⟩
    | bar =>
      cases hm
      exact ⟨_, rfl, .flat (by simpa [Mark.isBar] using h.bar)⟩
    | groupStart =>
      cases hm
      exact ⟨_, rfl, .nested [] _ (by simpa [Mark.isBar] using h)⟩
    | groupEnd => cases hm
    | quantifier least most greedy =>
      simp only [Regex.afterMark] at hm ⊢
      split at hm
      · cases hm
      · rename_i r items hitems
        cases hm
        obtain ⟨items', hitems', h⟩ := h.replace hitems (between r least most greedy)
        rw [hitems']
        exact ⟨_, rfl, .flat (by simpa [Mark.isBar] using h)⟩
    | unknown => cases hm
  | @nested outer frame f f' h =>
    cases m with
    | single r | bar =>
      cases hm
      exact ⟨_, rfl, .nested _ _ (by simpa [Mark.isBar] using h)⟩
    | groupStart =>
      cases hm
      exact ⟨_, rfl, .nested (frame :: outer) _ (by simpa [Mark.isBar] using h)⟩
    | groupEnd =>
      cases outer with
      | nil =>
        cases hm
        exact ⟨_, rfl, .flat (by simpa [Mark.isBar] using h.push frame.close)⟩
      | cons g gs =>
        cases hm
        exact ⟨_, rfl, .nested _ _ (by simpa [Mark.isBar] using h)⟩
    | quantifier least most greedy =>
      simp only [Regex.afterMark] at hm ⊢
      split at hm
      · cases hm
      · cases hm
        exact ⟨_, rfl, .nested _ _ (by simpa [Mark.isBar] using h)⟩
    | unknown => cases hm

/-- What is read without the boundary is read with it. -/
theorem FrontedIn.foldlM_afterMark {barred : Bool} {ms : List Mark} {σ σ' τ : List Frame × Frame}
    (h : FrontedIn barred σ σ') (hm : ms.foldlM Regex.afterMark σ = some τ) :
    ∃ τ', ms.foldlM Regex.afterMark σ' = some τ' ∧
      FrontedIn (barred || barOutside σ.1.length ms) τ τ' := by
  induction ms generalizing barred σ σ' with
  | nil =>
    cases hm
    exact ⟨σ', rfl, by simpa [barOutside] using h⟩
  | cons m ms ih =>
    rw [List.foldlM_cons] at hm
    obtain ⟨next, hnext, hm⟩ := Option.bind_eq_some_iff.1 hm
    obtain ⟨next', hnext', h⟩ := h.afterMark hnext
    obtain ⟨τ', hτ', h⟩ := ih h hm
    refine ⟨τ', ?_, ?_⟩
    · rw [List.foldlM_cons]
      exact Option.bind_eq_some_iff.2 ⟨next', hnext', hτ'⟩
    · rw [barOutside, ← length_afterMark hnext, ← Bool.or_assoc]
      exact h

/-- Outside all groups, it is the present group that has the boundary. -/
theorem FrontedIn.fronted {barred : Bool} {f : Frame} {τ : List Frame × Frame}
    (h : FrontedIn barred ([], f) τ) : ∃ f', τ = ([], f') ∧ Fronted barred f f' := by
  generalize hσ : (([], f) : List Frame × Frame) = σ at h
  cases h with
  | flat h =>
    cases hσ
    exact ⟨_, rfl, h⟩
  | @nested outer => cases outer <;> cases hσ

/-! ## What the expressions do -/

/-- Two expressions that match in the same way, whatever comes behind. -/
def Agree (r r' : Regex) : Prop := ∀ mode text k, run mode text r k = run mode text r' k

theorem run_joined (mode : Mode) (text : Array Char) (items : List Regex) (k : Nat → Option Nat) :
    run mode text (joined items) k = items.foldl (fun k r => run mode text r k) k := by
  have hrow : ∀ (rest : List Regex) (r : Regex) (k : Nat → Option Nat),
      run mode text (rest.foldl (fun acc a => .seq a acc) r) k =
        rest.foldl (fun k r => run mode text r k) (run mode text r k) := by
    intro rest
    induction rest with
    | nil => exact fun _ _ => rfl
    | cons a rest ih =>
      exact fun r k => ih (.seq a r) k
  cases items with
  | nil => rfl
  | cons r rest => exact hrow rest r k

/-- A boundary before the items of an alternative. -/
theorem agree_joined_append (items : List Regex) :
    Agree (joined (items ++ [.boundary])) (.seq .boundary (joined items)) := by
  intro mode text k
  rw [run_joined, List.foldl_append, ← run_joined mode text items]
  rfl

/-- A boundary behind the items of an alternative. -/
theorem agree_joined_cons (items : List Regex) :
    Agree (joined (.boundary :: items)) (.seq (joined items) .boundary) := by
  intro mode text k
  rw [run_joined, List.foldl_cons, ← run_joined]
  rfl

/-- The first of several alternatives, those in between and the last one. -/
def alternation (first : Regex) (middle : List Regex) (last : Regex) : Regex :=
  .alt first (middle.foldr .alt last)

theorem Agree.alternation {first first' last last' : Regex} (hfirst : Agree first first')
    (hlast : Agree last last') (middle : List Regex) :
    Agree (alternation first middle last) (alternation first' middle last') := by
  have htail : Agree (middle.foldr .alt last) (middle.foldr .alt last') := by
    induction middle with
    | nil => exact hlast
    | cons r middle ih =>
      intro mode text k
      funext pos
      simp only [List.foldr_cons, run, ih mode text k]
  intro mode text k
  funext pos
  simp only [Regex.alternation, run, hfirst mode text k, htail mode text k]

theorem close_append (done : List Regex) (first : Regex) (items : List Regex) :
    Frame.close ⟨done ++ [first], items⟩ = alternation first done.reverse (joined items) := by
  simp [Frame.close, alternation, List.foldl_append, List.foldr_reverse]

/-- **Boundaries belong to the first and the last alternative.** What an expression means with a boundary
pasted before and behind its text. -/
theorem read?_with_boundaries {pattern : String} {r : Regex} (h : read? pattern = some r) :
    ∃ r', read? ("\\b" ++ pattern ++ "\\b") = some r' ∧
      (barOutside 0 (marks pattern.toList) = false → Agree r' (.seq .boundary (.seq r .boundary))) ∧
      (barOutside 0 (marks pattern.toList) = true → ∃ first middle last,
        r = alternation first middle last ∧
        Agree r' (alternation (.seq .boundary first) middle (.seq last .boundary))) := by
  obtain ⟨hfit, f, hread, rfl⟩ := read?_eq_some.1 h
  have hseals : Seals ['\\', 'b'] := Or.inl rfl
  have hmarks : marks ("\\b" ++ pattern ++ "\\b").toList =
      .single .boundary :: (marks pattern.toList ++ [.single .boundary]) := by
    have hbehind : marks ['\\', 'b'] = [.single .boundary] := by
      simp [marks, firstMark, isNumber, escape, escapedClass]
    have htext : ("\\b" ++ pattern ++ "\\b").toList =
        '\\' :: 'b' :: (pattern.toList ++ ['\\', 'b']) := by
      simp
    rw [htext, marks]
    show Mark.single .boundary :: marks (pattern.toList ++ ['\\', 'b']) = _
    rw [marks_append hseals (unknown_not_mem hread), hbehind]
  have hfront : FrontedIn false ([], {}) ([], ⟨[], [.boundary]⟩) :=
    .flat (.single [])
  obtain ⟨τ, hτ, hfronted⟩ := hfront.foldlM_afterMark hread
  rw [Bool.false_or] at hfronted
  obtain ⟨f', rfl, hfirst⟩ := hfronted.fronted
  have hread' : read? ("\\b" ++ pattern ++ "\\b") =
      some (Frame.close { f' with items := .boundary :: f'.items }) := by
    rw [read?_eq_some, hmarks]
    refine ⟨quantifiersFit_cons rfl rfl (quantifiersFit_concat rfl hfit), _, ?_, rfl⟩
    rw [List.foldlM_cons]
    refine Option.bind_eq_some_iff.2 ⟨([], ⟨[], [.boundary]⟩), rfl, ?_⟩
    rw [List.foldlM_append]
    exact Option.bind_eq_some_iff.2 ⟨_, hτ, rfl⟩
  refine ⟨_, hread', ?_⟩
  replace hfirst : Fronted (barOutside 0 (marks pattern.toList)) f f' := hfirst
  generalize barOutside 0 (marks pattern.toList) = barred at hfirst ⊢
  cases hfirst with
  | single items =>
    refine ⟨fun _ mode text k => ?_, fun h => absurd h Bool.false_ne_true⟩
    have hbehind := agree_joined_cons (items ++ [.boundary]) mode text k
    exact hbehind.trans (agree_joined_append items mode text (run mode text .boundary k))
  | several done first items =>
    refine ⟨fun h => absurd h.symm Bool.false_ne_true,
      fun _ => ⟨joined first, done.reverse, joined items, close_append .., ?_⟩⟩
    rw [close_append]
    exact (agree_joined_append first).alternation (agree_joined_cons items) _

/-- What a group around an expression makes of it: no bar is outside groups any more. -/
theorem read?_grouped {pattern : String} {r : Regex} (h : read? pattern = some r) :
    read? ("(?:" ++ pattern ++ ")") = some r ∧
      barOutside 0 (marks ("(?:" ++ pattern ++ ")").toList) = false := by
  obtain ⟨hfit, f, hread, rfl⟩ := read?_eq_some.1 h
  have hmarks : marks ("(?:" ++ pattern ++ ")").toList =
      .groupStart :: (marks pattern.toList ++ [.groupEnd]) := by
    have hbehind : marks [')'] = [.groupEnd] := by
      simp [marks, firstMark]
    have htext : ("(?:" ++ pattern ++ ")").toList = '(' :: '?' :: ':' :: (pattern.toList ++ [')']) := by
      simp
    rw [htext, marks]
    show Mark.groupStart :: marks (pattern.toList ++ [')']) = _
    rw [marks_append (Or.inr rfl) (unknown_not_mem hread), hbehind]
  constructor
  · rw [read?_eq_some, hmarks]
    refine ⟨quantifiersFit_cons rfl rfl (quantifiersFit_concat rfl hfit), ⟨[], [f.close]⟩, ?_, rfl⟩
    rw [List.foldlM_cons]
    refine Option.bind_eq_some_iff.2 ⟨([{}], {}), rfl, ?_⟩
    rw [List.foldlM_append]
    exact Option.bind_eq_some_iff.2 ⟨_, foldlM_afterMark_outer hread [{}], rfl⟩
  · rw [hmarks]
    exact barOutside_grouped hread [.groupEnd]

end Regex

/-! ## Tokens -/

namespace Token

variable {pattern : String} {r : Regex} {boundaries : Option Bool} {text : Array Char} {pos stop : Nat}

/-- **Where no bar stands outside groups, tokens with word boundaries match whole words.** Whether the
boundaries are asked for or put there by default, there is a word boundary of the text where such a token
starts, and one where it ends. -/
theorem boundaries_of_match (hread : Regex.read? pattern = some r)
    (hbars : Regex.barOutside 0 (Regex.marks pattern.toList) = false)
    (hboundaries : boundaries.getD (startsLikeWord pattern) = true) {ignoreCase : Bool}
    (h : (declare pattern boundaries ignoreCase).matchAt text pos = some stop) (hlt : pos < stop) :
    Regex.isBoundary text pos = true ∧ Regex.isBoundary text stop = true := by
  obtain ⟨r', hread', hwhole, _⟩ := Regex.read?_with_boundaries hread
  obtain ⟨q, hregex, h⟩ := Option.bind_eq_some_iff.1 h
  obtain rfl : q = r' := by
    unfold declare ofPattern at hregex
    rw [if_pos hboundaries] at hregex
    split at hregex
    · cases hregex
    · exact Option.some.inj (hregex.symm.trans hread')
  have hstop : stop ≤ text.size := Regex.matchAt_le_size h
  unfold Regex.matchAt at h
  rw [hwhole hbars, Nat.min_eq_left (Nat.le_trans (Nat.le_of_lt hlt) hstop)] at h
  simp only [Regex.run] at h
  split at h
  · rename_i hstart
    obtain ⟨p, _, _, hend⟩ := Regex.run_forward _ _ _ _ h
    split at hend
    · rename_i hp
      cases hend
      exact ⟨hstart, hp⟩
    · cases hend
  · cases h

/-- A bar inside a group does no harm. -/
theorem boundaries_of_match_letters :
    (declare "a(b|c)").matchAt #['a', 'b', ' '] 0 = some 2 ∧
    Regex.isBoundary #['a', 'b', ' '] 0 = true ∧ Regex.isBoundary #['a', 'b', ' '] 2 = true := by
  have hread : Regex.read? "a(b|c)" = some (.seq (.char 'a') (.alt (.char 'b') (.char 'c'))) := by
    decide +kernel
  have hmatch : (declare "a(b|c)").matchAt #['a', 'b', ' '] 0 = some 2 := by decide +kernel
  exact ⟨hmatch, boundaries_of_match hread (by decide +kernel) (by decide) hmatch (by decide)⟩

/-- **A group around the expression makes tokens with word boundaries match whole words**, whatever bars
it has. -/
theorem boundaries_of_grouped (hread : Regex.read? pattern = some r) {ignoreCase : Bool}
    (h : (declare ("(?:" ++ pattern ++ ")") (some true) ignoreCase).matchAt text pos = some stop)
    (hlt : pos < stop) :
    Regex.isBoundary text pos = true ∧ Regex.isBoundary text stop = true := by
  obtain ⟨hgrouped, hbars⟩ := Regex.read?_grouped hread
  exact boundaries_of_match hgrouped hbars rfl h hlt

/-- Without the group, a token that is one letter or another matches the first letter of a longer word,
though boundaries are put around it by default. -/
theorem declare_cuts_word : ∃ r, Regex.read? "a|b" = some r ∧ startsLikeWord "a|b" = true ∧
    (declare "a|b").matchAt #['a', 'b'] 0 = some 1 ∧ Regex.isBoundary #['a', 'b'] 1 = false ∧
    (declare "(?:a|b)" (some true)).matchAt #['a', 'b'] 0 = none := by
  have hread : Regex.read? "a|b" = some (.alt (.char 'a') (.char 'b')) := by decide +kernel
  exact ⟨_, hread, by decide, by decide +kernel, by decide +kernel, by decide +kernel⟩

end Token

end LayeredGrammar
