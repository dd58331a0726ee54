import LayeredGrammar.Proofs.Engine.Requests

/-!
# The loops of the engine

The engine loops in four places: over the rounds of a repetition, over the growth of a match, over
the tokens of an error region, and over the text as a whole. Every pass that goes on does so further
to the right, whatever the memo holds and however rules are asked for. Nothing lies past the end of
the text, so each loop ends by itself: beyond one pass for each position, the number of passes it is
allowed makes no difference (`repeatFrom_settled` and its companions).
-/

namespace LayeredGrammar

namespace Session

open Engine (Coupled Coupling)

variable {s : Session}

/-! ## Passes -/

theorem repeatPass_advances {recovering : Bool} {expected : List Terminal}
    {content : Nat → Engine (Option Match)} {run next : Run} {μ μ' : Memo}
    (h : s.repeatPass recovering expected content run μ = .ok (some next) μ') :
    run.cursor < next.cursor := by
  unfold repeatPass at h
  rw [Engine.bind_apply] at h
  split at h
  · rename_i found μ₁ _
    cases hm : found.filter (run.cursor < ·.stop) with
    | some m =>
      rw [hm] at h
      cases h
      exact of_decide_eq_true (Option.filter_eq_some_iff.1 hm).2
    | none =>
      rw [hm] at h
      cases hspan : if recovering then s.errorSpan run.cursor else none with
      | some span =>
        simp only [hspan] at h
        cases h
        cases recovering with
        | true => exact (errorSpan_advances hspan).2.2.1
        | false => cases hspan
      | none =>
        simp only [hspan] at h
        cases h
  · cases h

theorem growOnce_advances {call : RuleMatcher} {rule : String} {minPrec : Int} {left m : Match} :
    ∀ {alts : List Alternative} {μ μ' : Memo},
    s.growOnce call rule minPrec left alts μ = .ok (some m) μ' → left.stop < m.stop
  | [], _, _, h => by cases h
  | a :: alts, μ, μ', h => by
    simp only [growOnce] at h
    split at h
    · exact growOnce_advances h
    · rw [Engine.bind_apply] at h
      split at h
      · rename_i found μ₁ _
        cases found with
        | none => exact growOnce_advances h
        | some right =>
          simp only at h
          split at h
          · rename_i hlt
            cases h
            rw [stop_extended]
            exact hlt
          · exact growOnce_advances h
      · cases h

theorem growPass_advances {call : RuleMatcher} {rule : String} {minPrec : Int}
    {alts : RuleAlternatives} {left m : Match} {μ μ' : Memo}
    (h : s.growPass call rule minPrec alts left μ = .ok (some m) μ') : left.stop < m.stop := by
  unfold growPass at h
  rw [Engine.bind_apply] at h
  split at h
  · rename_i found μ₁ hfound
    cases found with
    | none => exact growOnce_advances h
    | some m' =>
      cases h
      exact growOnce_advances hfound
  · cases h

theorem parsePass_advances {call : RuleMatcher} {pos next : Nat} {items read : List Item}
    {μ μ' : Memo} (h : s.parsePass call pos items μ = .ok (read, some next) μ') :
    pos < next ∧ next ≤ s.size := by
  unfold parsePass at h
  rw [Engine.bind_apply] at h
  split at h
  · rename_i found μ₁ _
    simp only at h
    split at h
    · cases h
    · rename_i hlt
      have hlt : s.skip (readOn s.grammar.start items pos found).2 < s.size := Nat.lt_of_not_le hlt
      split at h
      · cases h
        exact (readOn_advances items found hlt).2
      · cases h
  · cases h

/-! ## Loops -/

theorem NextRound.cursor_le {content : Production} {recovering : Bool} {run run' : Run}
    (h : s.NextRound content recovering run run') :
    run.cursor < run'.cursor ∧ run'.cursor ≤ s.size := by
  rcases h with ⟨m, hm, hlt, rfl⟩ | ⟨_, start, stop, hspan, rfl⟩
  · have hm : m.Proper run.cursor s.size := hm.proper
    have := hm.stop_le
    exact ⟨hlt, by show m.stop ≤ s.size; omega⟩
  · have := errorSpan_advances hspan
    exact ⟨this.2.2.1, this.2.2.2⟩

theorem NextGrowth.stop_le {rule : String} {minPrec : Int} {left m : Match}
    (h : s.NextGrowth rule minPrec left m) : left.stop < m.stop ∧ m.stop ≤ s.size := by
  obtain ⟨_, a, right, _, _, _, hright, hlt, rfl⟩ := h
  have hright := (hright.proper (Run.proper_begin _ _)).stop_le
  rw [Run.origin_begin] at hright
  rw [stop_extended]
  omega

/-- Two runs that are alike on sound memos are the same there. -/
theorem eq_of_soundly {α : Type} {x y : Engine α} {post : α → Prop}
    (h : Coupled s.soundly x y post) {μ : Memo} (hμ : s.Sound μ) : x μ = y μ :=
  (h μ μ ⟨rfl, hμ⟩).eq (fun _ _ h => h.1) (fun _ _ h => h.1) id

/-- A repetition ends by itself. -/
theorem repeatFrom_settled {limit : Nat} {owner : String} {content : Production}
    {recovering : Bool} : ∀ (n m count : Nat) (run : Run), run.cursor ≤ s.size →
    s.size - run.cursor < n → s.size - run.cursor < m →
    Coupled s.soundly
      (s.repeatFrom recovering (s.table.expectedFor content)
        (s.matchProduction (s.matchRule limit) owner content) n count run)
      (s.repeatFrom recovering (s.table.expectedFor content)
        (s.matchProduction (s.matchRule limit) owner content) m count run) fun _ => True
  | 0, _, _, _, _, hn, _ => by omega
  | _, 0, _, _, _, _, hm => by omega
  | n + 1, m + 1, count, run, hle, hn, hm => by
    simp only [repeatFrom]
    refine Coupled.bind (repeatPass_coupled 0
      (fun pos hk => matchProduction_coupled owner content pos hk) count run
      fun k _ => matchRule_sound limit k) ?_
    intro next hnext
    cases next with
    | none => exact Coupled.pure trivial
    | some next =>
      obtain ⟨h1, h2⟩ := (hnext next rfl).cursor_le
      exact repeatFrom_settled n m (count + 1) next h2 (by omega) (by omega)

/-- The growth of a match ends by itself. -/
theorem grow_settled {limit : Nat} {rule : String} {minPrec : Int} {alts : RuleAlternatives}
    (ht : s.table.rules.get? rule = some alts) : ∀ (n m : Nat) (left : Match),
    left.stop ≤ s.size → s.size - left.stop < n → s.size - left.stop < m →
    Coupled s.soundly (s.grow (s.matchRule limit) rule minPrec alts n left)
      (s.grow (s.matchRule limit) rule minPrec alts m left) fun _ => True
  | 0, _, _, _, hn, _ => by omega
  | _, 0, _, _, _, hm => by omega
  | n + 1, m + 1, left, hle, hn, hm => by
    simp only [grow]
    refine Coupled.bind (growPass_coupled ht left fun k _ => matchRule_sound limit k) ?_
    intro found hfound
    cases found with
    | none => exact Coupled.pure trivial
    | some grown =>
      obtain ⟨h1, h2⟩ := (hfound grown rfl).stop_le
      exact grow_settled ht n m grown h2 (by omega) (by omega)

/-- An error region ends by itself. -/
theorem regionEnd_settled : ∀ (n m depth cursor : Nat), s.size - cursor < n →
    s.size - cursor < m → s.regionEnd n depth cursor = s.regionEnd m depth cursor
  | 0, _, _, _, hn, _ => by omega
  | _, 0, _, _, _, hm => by omega
  | n + 1, m + 1, depth, cursor, hn, hm => by
    unfold regionEnd
    cases hpass : s.regionPass depth cursor with
    | none => rfl
    | some x =>
      obtain ⟨stop, next⟩ := x
      cases next with
      | none => rfl
      | some depth' =>
        have := regionPass_advances hpass
        exact regionEnd_settled n m depth' stop (by omega) (by omega)

/-- Reading a text ends by itself. -/
theorem parseFrom_settled {limit : Nat} : ∀ (n m pos : Nat) (items : List Item),
    s.size - pos < n → s.size - pos < m →
    Coupled s.soundly (s.parseFrom (s.matchRule limit) n pos items)
      (s.parseFrom (s.matchRule limit) m pos items) fun _ => True
  | 0, _, _, _, hn, _ => by omega
  | _, 0, _, _, _, hm => by omega
  | n + 1, m + 1, pos, items, hn, hm => by
    simp only [parseFrom]
    refine Coupled.bind (parsePass_coupled (matchRule_sound limit _) items) ?_
    rintro ⟨read, next⟩ ⟨_, hgo⟩
    cases next with
    | none => exact Coupled.pure trivial
    | some next =>
      obtain ⟨h1, h2, _⟩ := hgo next rfl
      exact parseFrom_settled n m next read (by omega) (by omega)

end Session

end LayeredGrammar
