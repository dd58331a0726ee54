import LayeredGrammar.Proofs.Engine.Choices
import LayeredGrammar.Proofs.Engine.Requests
import LayeredGrammar.Proofs.Grammar.Alternatives

/-!
# Nested choices

A choice inside a choice settles on a winner before that winner meets the other members. Where no
conflict has a preference, winners are least in one order of merit with earlier members first
(`Session.matchProduction_choice_eq`), and finding the least of some matches first does not change the
least of all (`argmin_append_congr`). The members are tried in the same order either way, each with
the memo that the one before it leaves. So a choice may be flattened
(`Session.perform_alternatives`).
-/

namespace LayeredGrammar

namespace Session

variable {s : Session} {call : RuleMatcher} {owner : String}

/-- The matches of productions at a position, tried one after another. -/
def matchesOf (s : Session) (call : RuleMatcher) (owner : String) :
    List Production → Nat → Engine (List Match)
  | [], _ => pure []
  | p :: ps, pos => do
    let found ← s.matchProduction call owner p pos
    let others ← matchesOf s call owner ps pos
    pure (found.toList ++ others)

theorem found_attempts (ps : List Production) (index pos : Nat) :
    (List.filterMap Attempt.found?) <$> s.attempts call owner ps index pos =
      s.matchesOf call owner ps pos := by
  induction ps generalizing index with
  | nil => simp [attempts, matchesOf]
  | cons p ps ih =>
    simp only [attempts, matchesOf, ← ih (index + 1), map_bind, map_pure, bind_map_left]
    congr 1
    funext found
    congr 1
    funext others
    cases found <;> rfl

/-- Without preferences a choice is decided by the merit of its matches and their order. -/
theorem matchProduction_choice_eq (hnone : ∀ c ∈ s.grammar.conflicts, c.prefer = none)
    (members : List Production) (pos : Nat) :
    s.matchProduction call owner (.choice members) pos =
      List.argmin Match.merit <$> s.matchesOf call owner members pos := by
  rw [matchProduction_choice, ← found_attempts members 0, Functor.map_map]
  apply map_attempts_congr
  intro as hascending _
  unfold Attempt.best
  rw [Candidate.best_eq_argmin hnone (Attempt.pairwise_candidates hascending),
    Attempt.map_found_candidates]

theorem matchesOf_append (ps qs : List Production) (pos : Nat) :
    s.matchesOf call owner (ps ++ qs) pos = (do
      let found ← s.matchesOf call owner ps pos
      let others ← s.matchesOf call owner qs pos
      pure (found ++ others)) := by
  induction ps with
  | nil => simp [matchesOf]
  | cons p ps ih =>
    simp only [List.cons_append, matchesOf, ih, bind_assoc, pure_bind, List.append_assoc]

/-- Of two searches in a row only the least matches of each matter. -/
theorem argmin_bind_append (x y : Engine (List Match)) :
    List.argmin Match.merit <$> (do
        let found ← x
        let others ← y
        pure (found ++ others)) = (do
      let found ← List.argmin Match.merit <$> x
      let others ← List.argmin Match.merit <$> y
      pure ((found.toList ++ others.toList).argmin Match.merit)) := by
  simp only [map_bind, map_pure, bind_map_left]
  congr 1
  funext found
  congr 1
  funext others
  congr 1
  apply argmin_append_congr
  · rw [argmin_toList]
  · rw [argmin_toList]

theorem argmin_single (p : Production) (pos : Nat) :
    List.argmin Match.merit <$> s.matchesOf call owner [p] pos = s.matchProduction call owner p pos := by
  simp only [matchesOf, pure_bind, List.append_nil, map_bind, map_pure, argmin_toList, bind_pure]

theorem argmin_alternativesAll {pos : Nat} (ps : List Production)
    (h : ∀ p ∈ ps, List.argmin Match.merit <$> s.matchesOf call owner p.alternatives pos =
      s.matchProduction call owner p pos) :
    List.argmin Match.merit <$> s.matchesOf call owner (Production.alternativesAll ps) pos =
      List.argmin Match.merit <$> s.matchesOf call owner ps pos := by
  induction ps with
  | nil => rfl
  | cons p ps ih =>
    obtain ⟨hp, hps⟩ := List.forall_mem_cons.1 h
    calc List.argmin Match.merit <$> s.matchesOf call owner (Production.alternativesAll (p :: ps)) pos
        = (do
            let found ← List.argmin Match.merit <$> s.matchesOf call owner p.alternatives pos
            let others ← List.argmin Match.merit <$>
              s.matchesOf call owner (Production.alternativesAll ps) pos
            pure ((found.toList ++ others.toList).argmin Match.merit)) := by
          rw [← argmin_bind_append, ← matchesOf_append]
          rfl
      _ = (do
            let found ← List.argmin Match.merit <$> s.matchesOf call owner [p] pos
            let others ← List.argmin Match.merit <$> s.matchesOf call owner ps pos
            pure ((found.toList ++ others.toList).argmin Match.merit)) := by
          rw [hp, ih hps, argmin_single]
      _ = List.argmin Match.merit <$> s.matchesOf call owner (p :: ps) pos := by
          rw [← argmin_bind_append, ← matchesOf_append]
          rfl

/-- **What a production matches is the best of what its alternatives match**, however deep choices are
nested. -/
theorem argmin_alternatives (hnone : ∀ c ∈ s.grammar.conflicts, c.prefer = none) (p : Production)
    (pos : Nat) : List.argmin Match.merit <$> s.matchesOf call owner p.alternatives pos =
      s.matchProduction call owner p pos := by
  induction p using Production.induction_children with
  | step p ih =>
    cases p with
    | choice members =>
      rw [matchProduction_choice_eq hnone]
      exact argmin_alternativesAll members ih
    | lit | ref | seq | rep | opt | blank | field | renamed | prec => exact argmin_single _ _

/-- **The nesting of choices does not matter without preferences.** If no declared conflict has a
preference, then at every position inside every rule, with every memo, a choice and the choice between
its flattened alternatives have the same result and leave the same memo, also where the limit on nested
rules is reached. -/
theorem perform_alternatives (hnone : ∀ c ∈ s.grammar.conflicts, c.prefer = none) (limit : Nat)
    (members : List Production) (pos : Nat) (owner : String) (μ : Memo) :
    s.perform limit (.production (.choice (Production.choice members).alternatives) pos owner) μ =
      s.perform limit (.production (.choice members) pos owner) μ := by
  unfold perform
  simp only [performBy]
  rw [matchProduction_choice_eq hnone, argmin_alternatives hnone]

/-- Words that are read as articles, values or keys; that values and keys look alike is declared, and
none is preferred. -/
def wordLayer : Layer where
  name := "Words"
  start := some (some "_words")
  word := some (some "name")
  conflicts := [.between ["key", "value"]]
  members :=
    [("name", .token none (.declare "\\w+")),
     ("_words", .rule none (.rep (.choice [.ref "article", .ref "value", .ref "key"]) 0 true)),
     ("article", .rule none (.lit "a")),
     ("key", .rule none (.ref "name")),
     ("value", .rule none (.ref "name"))]

/-- A choice inside a choice is won by its literal, which then wins over the value before it. -/
theorem perform_alternatives_words : ∃ table m μ,
    (ParseTable.ofLayers [wordLayer]).outcome = .ok table ∧
    table.grammar.conflicts ≠ [] ∧ (∀ c ∈ table.grammar.conflicts, c.prefer = none) ∧
    (Session.mk table true #['a']).perform 5
      (.production (.choice [.ref "value", .choice [.ref "key", .lit "a"]]) 0 "_words") {} =
        .ok (.found (some m)) μ ∧ m.items.map (·.1.kind) = ["a"] ∧
    (Session.mk table true #['a']).perform 5
      (.production (.choice [.ref "value", .ref "key", .lit "a"]) 0 "_words") {} =
        .ok (.found (some m)) μ := by
  have hrun : ((ParseTable.ofLayers [wordLayer]).outcome.toOption.any fun table =>
      (decide (table.grammar.conflicts ≠ []) && table.grammar.conflicts.all (·.prefer.isNone)) &&
      (Engine.value? ((Session.mk table true #['a']).perform 5
        (.production (.choice [.ref "value", .choice [.ref "key", .lit "a"]]) 0 "_words")) {}).any
          fun reply => reply.found?.any fun m => decide (m.items.map (·.1.kind) = ["a"])) = true := by
    decide +kernel
  obtain ⟨table, htable, hrun⟩ := Traced.exists_of_any hrun
  rw [Bool.and_eq_true, Bool.and_eq_true, decide_eq_true_eq, List.all_eq_true] at hrun
  obtain ⟨⟨hsome, hprefer⟩, hrun⟩ := hrun
  obtain ⟨reply, μ, hreply, hfound⟩ := Engine.exists_of_any hrun
  obtain ⟨m, rfl, hkinds⟩ := Reply.exists_of_any hfound
  have hnone : ∀ c ∈ table.grammar.conflicts, c.prefer = none :=
    fun c hc => Option.isNone_iff_eq_none.1 (hprefer c hc)
  refine ⟨table, m, μ, htable, hsome, hnone, hreply, of_decide_eq_true hkinds, ?_⟩
  exact (perform_alternatives (s := ⟨table, true, #['a']⟩) hnone 5 _ 0 "_words" {}).trans hreply

end Session

end LayeredGrammar
