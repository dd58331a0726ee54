import LayeredGrammar.Engine.Parser
import Mathlib.Data.List.MinMax
import Mathlib.Data.List.Nodup
import Mathlib.Data.Prod.Lex

/-!
# Which member of a choice wins

`Candidate.best` decides a choice in rounds, and each round keeps the candidates that are least in
some order (`LeastBy`): those with the fewest errors and then the longest ones, those that start with
a literal, those made of base alternatives, the one that was declared first. The least of the least is
the least in lexicographic order (`leastBy_leastBy`), so all rounds together come to a single order.

* `Candidate.best_eq_some_iff` — the winner is the least of the favoured candidates in the order of
  `Candidate.turn`.
* `Candidate.best_eq_argmin` — without preferences the winner is the first of the least matches in the
  order of `Match.merit`.
* `Session.matchProduction_choice` — the engine tries all members of a choice, the failing ones
  included, and takes the winner of these attempts.
-/

namespace LayeredGrammar

/-! ## Least elements of a list -/

section Least

variable {α β γ : Type}

/-- An element of a list whose value under `f` no other element falls below. -/
def LeastBy [LE β] (f : α → β) (l : List α) (a : α) : Prop := a ∈ l ∧ ∀ b ∈ l, f a ≤ f b

variable [LinearOrder β] [LinearOrder γ] {f : α → β} {g : α → γ} {l kept : List α} {a b : α}

/-- If the values differ, only one element is least. -/
theorem LeastBy.eq (ha : LeastBy f l a) (hb : LeastBy f l b)
    (hinj : ∀ x ∈ l, ∀ y ∈ l, f x = f y → x = y) : a = b := by
  apply hinj a ha.1 b hb.1
  exact le_antisymm (ha.2 b hb.1) (hb.2 a ha.1)

/-- The least of the least elements is the least in lexicographic order. -/
theorem leastBy_leastBy (hkept : ∀ b, b ∈ kept ↔ LeastBy g l b) :
    LeastBy f kept a ↔ LeastBy (fun b => toLex (g b, f b)) l a := by
  constructor
  · rintro ⟨ha, hleast⟩
    obtain ⟨hmem, hg⟩ := (hkept a).1 ha
    refine ⟨hmem, fun b hb => Prod.Lex.toLex_le_toLex.2 ?_⟩
    rcases lt_or_eq_of_le (hg b hb) with hlt | heq
    · exact Or.inl hlt
    · have hb' : b ∈ kept := (hkept b).2 ⟨hb, fun c hc => heq ▸ hg c hc⟩
      exact Or.inr ⟨heq, hleast b hb'⟩
  · rintro ⟨hmem, hleast⟩
    have hle : ∀ b ∈ l, g a < g b ∨ g a = g b ∧ f a ≤ f b :=
      fun b hb => Prod.Lex.toLex_le_toLex.1 (hleast b hb)
    have hg : ∀ b ∈ l, g a ≤ g b := by
      intro b hb
      rcases hle b hb with hlt | ⟨heq, -⟩
      · exact le_of_lt hlt
      · exact le_of_eq heq
    refine ⟨(hkept a).2 ⟨hmem, hg⟩, fun b hb => ?_⟩
    obtain ⟨hb, hgb⟩ := (hkept b).1 hb
    rcases hle b hb with hlt | ⟨-, hf⟩
    · exact absurd (hgb a hmem) (not_le_of_gt hlt)
    · exact hf

/-- If the values differ, the least element is the one that a search for it finds. -/
theorem argmin_eq_some_iff_leastBy (hinj : ∀ x ∈ l, ∀ y ∈ l, f x = f y → x = y) :
    l.argmin f = some a ↔ LeastBy f l a := by
  constructor
  · intro h
    exact ⟨List.argmin_mem h, fun b hb => List.le_of_mem_argmin hb h⟩
  · intro h
    cases hm : l.argmin f with
    | none =>
      rw [List.argmin_eq_none.1 hm] at h
      exact nomatch h.1
    | some m =>
      have hm' : LeastBy f l m := ⟨List.argmin_mem hm, fun b hb => List.le_of_mem_argmin hb hm⟩
      rw [hm'.eq h hinj]

/-- A search for the least element only compares elements with earlier ones. -/
theorem argmin_congr (h : l.Pairwise fun x y => f y < f x ↔ g y < g x) : l.argmin f = l.argmin g := by
  induction l with
  | nil => rfl
  | cons x l ih =>
    obtain ⟨hx, hl⟩ := List.pairwise_cons.1 h
    rw [List.argmin_cons, List.argmin_cons, ih hl]
    cases hm : l.argmin g with
    | none => rfl
    | some m => simp only [hx m (List.argmin_mem hm)]

omit [LinearOrder β] in
theorem argmin_map (f : β → γ) (g : α → β) (l : List α) :
    (l.map g).argmin f = (l.argmin (f ∘ g)).map g := by
  induction l with
  | nil => rfl
  | cons x l ih =>
    rw [List.map_cons, List.argmin_cons, List.argmin_cons, ih]
    cases l.argmin (f ∘ g) with
    | none => rfl
    | some m =>
      simp only [Option.map_some, Function.comp_apply]
      split <;> rfl

theorem argmin_toList (f : α → β) (o : Option α) : o.toList.argmin f = o := by
  cases o <;> rfl

/-- The least element of two lists in a row depends on the least elements of both only. -/
theorem argmin_append_congr {l' r r' : List α} (hl : l.argmin f = l'.argmin f)
    (hr : r.argmin f = r'.argmin f) : (l ++ r).argmin f = (l' ++ r').argmin f := by
  calc (l ++ r).argmin f
      = (l' ++ r).argmin f := by
        unfold List.argmin at hl ⊢
        rw [List.foldl_append, List.foldl_append, hl]
    _ = (l' ++ r').argmin f := by
        clear hl
        induction l' with
        | nil => exact hr
        | cons x l ih =>
          rw [List.cons_append, List.cons_append, List.argmin_cons, List.argmin_cons, ih]

end Least

/-! ## Orders on matches -/

namespace Match

/-- Fewer errors come first, then longer matches. -/
def standing (m : Match) : ℕ ×ₗ ℕᵒᵈ := toLex (m.errors, OrderDual.toDual m.stop)

/-- What a match is worth to a choice that knows nothing else: its standing, then whether it starts
with a literal, then whether it is made of base alternatives. -/
def merit (m : Match) : (ℕ ×ₗ ℕᵒᵈ) ×ₗ Bool ×ₗ Bool := toLex (m.standing, toLex (!m.lead, m.layered))

theorem standing_le {m m' : Match} : m.standing ≤ m'.standing ↔
    m.errors < m'.errors ∨ m.errors = m'.errors ∧ m'.stop ≤ m.stop :=
  Prod.Lex.toLex_le_toLex

theorem standing_lt {m m' : Match} : m.standing < m'.standing ↔
    m.errors < m'.errors ∨ m.errors = m'.errors ∧ m'.stop < m.stop :=
  Prod.Lex.toLex_lt_toLex

end Match

/-! ## Preferences -/

namespace ConflictRegistry

variable {registry : ConflictRegistry} {owner : String}

/-- Only the labels that are present count, not their order. -/
theorem preferred_congr {labels labels' : List (Option String)}
    (h : ∀ label, label ∈ labels ↔ label ∈ labels') :
    registry.preferred owner labels = registry.preferred owner labels' := by
  unfold preferred
  congr 1
  funext c
  have hmem : ∀ l, l ∈ (labels.filterMap id).filter (!·.isEmpty) ↔
      l ∈ (labels'.filterMap id).filter (!·.isEmpty) := by
    intro l
    simp only [List.mem_filter, List.mem_filterMap, id, h]
  have hcontains : ∀ p, ((labels.filterMap id).filter (!·.isEmpty)).contains p =
      ((labels'.filterMap id).filter (!·.isEmpty)).contains p := by
    intro p
    rw [Bool.eq_iff_iff, List.contains_iff_mem, List.contains_iff_mem, hmem]
  have hany : ∀ test : String → Bool, ((labels.filterMap id).filter (!·.isEmpty)).any test =
      ((labels'.filterMap id).filter (!·.isEmpty)).any test := by
    intro test
    rw [Bool.eq_iff_iff, List.any_eq_true, List.any_eq_true]
    simp only [hmem]
  unfold decides
  cases c.prefer with
  | none => rfl
  | some p => simp only [hcontains, hany]

theorem preferred_eq_none (h : ∀ c ∈ registry, c.prefer = none) (labels : List (Option String)) :
    registry.preferred owner labels = none := by
  unfold preferred
  rw [List.findSome?_eq_none_iff]
  intro c hc
  unfold decides
  rw [h c hc]

end ConflictRegistry

/-! ## Candidates -/

namespace Candidate

variable {registry : ConflictRegistry} {owner : String} {cs : List Candidate} {c d : Candidate}

/-- The order in which equally good and equally favoured candidates take their turn: those that start
with a literal, then those made of base alternatives, then the earlier ones. -/
def turn (c : Candidate) : Bool ×ₗ Bool ×ₗ ℕ := toLex (!c.found.lead, toLex (c.found.layered, c.index))

/-- Among the candidates that none outdoes, those with the preferred label if there is one. -/
def favoured (registry : ConflictRegistry) (owner : String) (cs : List Candidate) : List Candidate :=
  match registry.preferred owner ((leaders cs).map (·.label)) with
  | some label => (leaders cs).filter (·.label == some label)
  | none => leaders cs

theorem outdoes_iff : c.outdoes d = true ↔ c.found.standing < d.found.standing := by
  rw [Match.standing_lt]
  simp [outdoes]

theorem mem_leaders : c ∈ leaders cs ↔ LeastBy (·.found.standing) cs c := by
  unfold leaders LeastBy
  simp only [List.mem_filter, Bool.not_eq_true', List.any_eq_false, outdoes_iff, not_lt]

theorem mem_preferring {test : Candidate → Bool} :
    c ∈ preferring test cs ↔ LeastBy (fun c => !test c) cs c := by
  unfold preferring LeastBy
  simp only [List.isEmpty_iff, List.filter_eq_nil_iff]
  split
  · rename_i hnone
    refine ⟨fun hc => ⟨hc, fun d hd => ?_⟩, fun h => h.1⟩
    simp [hnone d hd]
  · rename_i hsome
    push Not at hsome
    obtain ⟨d, hd, htest⟩ := hsome
    rw [List.mem_filter]
    constructor
    · rintro ⟨hc, hpass⟩
      refine ⟨hc, fun e _ => ?_⟩
      simp [hpass]
    · rintro ⟨hc, hleast⟩
      refine ⟨hc, ?_⟩
      have hle := hleast d hd
      rw [htest] at hle
      cases hc' : test c with
      | false => exact absurd (hc' ▸ hle) (by decide)
      | true => rfl

theorem mem_of_mem_favoured (h : c ∈ favoured registry owner cs) : c ∈ leaders cs := by
  unfold favoured at h
  split at h
  · exact (List.mem_filter.1 h).1
  · exact h

/-- Which candidates are favoured depends on the leaders only. -/
theorem mem_favoured_congr {cs' : List Candidate} (h : ∀ d, d ∈ leaders cs ↔ d ∈ leaders cs') :
    c ∈ favoured registry owner cs ↔ c ∈ favoured registry owner cs' := by
  have hlabels : registry.preferred owner ((leaders cs).map (·.label)) =
      registry.preferred owner ((leaders cs').map (·.label)) := by
    apply ConflictRegistry.preferred_congr
    intro label
    simp only [List.mem_map, h]
  unfold favoured
  rw [hlabels]
  split
  · simp only [List.mem_filter, h]
  · exact h c

theorem earliest?_eq_argmin (cs : List Candidate) : earliest? cs = cs.argmin (·.index) := by
  have hfold : ∀ (cs : List Candidate) (c : Candidate),
      some (cs.foldl (fun a b => if b.index < a.index then b else a) c) =
        cs.foldl (List.argAux fun a b => a.index < b.index) (some c) := by
    intro cs
    induction cs with
    | nil => exact fun _ => rfl
    | cons d cs ih =>
      intro c
      rw [List.foldl_cons, List.foldl_cons, ih]
      congr 1
      simp only [List.argAux]
      split <;> rfl
  cases cs with
  | nil => rfl
  | cons c cs => exact hfold cs c

/-- The rounds after preferences were taken into account, as one order. -/
theorem leastBy_turn : LeastBy turn cs c ↔ LeastBy (·.index)
    (preferring (!·.found.layered) (preferring (·.found.lead) cs)) c := by
  rw [leastBy_leastBy fun _ => mem_preferring, leastBy_leastBy fun _ => mem_preferring]
  simp only [Bool.not_not]
  rfl

/-- **The winner of a choice** is the least of the favoured candidates in the order of turns. -/
theorem best_eq_some_iff (hdistinct : (cs.map (·.index)).Nodup) {m : Match} :
    best registry owner cs = some m ↔
      ∃ c, LeastBy turn (favoured registry owner cs) c ∧ c.found = m := by
  have hrounds : best registry owner cs = (earliest? (preferring (!·.found.layered)
      (preferring (·.found.lead) (favoured registry owner cs)))).map (·.found) := rfl
  have hinj : ∀ x ∈ preferring (!·.found.layered) (preferring (·.found.lead)
      (favoured registry owner cs)), ∀ y ∈ preferring (!·.found.layered)
      (preferring (·.found.lead) (favoured registry owner cs)), x.index = y.index → x = y := by
    intro x hx y hy heq
    have hmem : ∀ {z : Candidate}, z ∈ preferring (!·.found.layered) (preferring (·.found.lead)
        (favoured registry owner cs)) → z ∈ cs := fun hz =>
      (mem_leaders.1 (mem_of_mem_favoured (mem_of_mem_preferring (mem_of_mem_preferring hz)))).1
    exact List.inj_on_of_nodup_map hdistinct (hmem hx) (hmem hy) heq
  rw [hrounds, Option.map_eq_some_iff]
  simp only [earliest?_eq_argmin, argmin_eq_some_iff_leastBy hinj, leastBy_turn]

/-- Without preferences the winner is the first of the matches with the greatest merit. -/
theorem best_eq_argmin (hnone : ∀ c ∈ registry, c.prefer = none)
    (hascending : cs.Pairwise (·.index < ·.index)) :
    best registry owner cs = (cs.map (·.found)).argmin Match.merit := by
  have hdistinct : (cs.map (·.index)).Nodup :=
    List.pairwise_map.2 (hascending.imp fun h => Nat.ne_of_lt h)
  have hfavoured : favoured registry owner cs = leaders cs := by
    unfold favoured
    rw [ConflictRegistry.preferred_eq_none hnone]
  -- the index decides nothing that the order of the list would not
  have hdecided : cs.argmin (fun c => toLex (c.found.standing, c.turn)) =
      cs.argmin (Match.merit ∘ Candidate.found) := by
    apply argmin_congr
    refine hascending.imp fun {a b} hlt => ?_
    simp only [turn, Match.merit, Function.comp_apply, Prod.Lex.toLex_lt_toLex]
    have : ¬ b.index < a.index := by omega
    simp only [this, and_false, or_false]
  have hinj : ∀ x ∈ cs, ∀ y ∈ cs, toLex (x.found.standing, x.turn) = toLex (y.found.standing, y.turn) →
      x = y := by
    intro x hx y hy heq
    simp only [turn, toLex_inj, Prod.mk.injEq] at heq
    exact List.inj_on_of_nodup_map hdistinct hx hy heq.2.2.2
  rw [argmin_map, ← hdecided]
  apply Option.ext
  intro m
  rw [best_eq_some_iff hdistinct, Option.map_eq_some_iff, hfavoured]
  simp only [leastBy_leastBy fun _ => mem_leaders, argmin_eq_some_iff_leastBy hinj]

end Candidate

/-! ## Attempts -/

/-- A member of a choice that was tried at a position: its place, its label, and its match if it has
one. -/
structure Attempt where
  index : Nat
  label : Option String
  found? : Option Match
  deriving DecidableEq, Repr

namespace Attempt

/-- What takes part in the choice, if the member matches. -/
def candidate? (a : Attempt) : Option Candidate := a.found?.map fun m => ⟨a.index, a.label, m⟩

/-- What takes part in a choice after all its members were tried. -/
def candidates (as : List Attempt) : List Candidate := as.filterMap candidate?

/-- The match that wins among attempts. -/
def best (registry : ConflictRegistry) (owner : String) (as : List Attempt) : Option Match :=
  Candidate.best registry owner (candidates as)

theorem map_found_candidates (as : List Attempt) :
    (candidates as).map (·.found) = as.filterMap (·.found?) := by
  unfold candidates
  rw [List.map_filterMap]
  congr 1
  funext a
  simp [candidate?, Function.comp_def]

theorem index_of_candidate? {a : Attempt} {c : Candidate} (h : a.candidate? = some c) :
    c.index = a.index := by
  obtain ⟨m, -, rfl⟩ := Option.map_eq_some_iff.1 h
  rfl

theorem pairwise_candidates {r : Nat → Nat → Prop} {as : List Attempt}
    (h : as.Pairwise fun a b => r a.index b.index) :
    (candidates as).Pairwise fun c d => r c.index d.index := by
  refine List.Pairwise.filterMap candidate? (fun a b hab c hc d hd => ?_) h
  rwa [index_of_candidate? hc, index_of_candidate? hd]

end Attempt

namespace Session

variable (s : Session) (call : RuleMatcher) (owner : String)

/-- Try productions at a position one after another, the first of which has place `index`. -/
def attempts : List Production → Nat → Nat → Engine (List Attempt)
  | [], _, _ => pure []
  | p :: ps, index, pos => do
    let found ← s.matchProduction call owner p pos
    let others ← attempts ps (index + 1) pos
    pure (⟨index, p.label?, found⟩ :: others)

theorem matchMembers_eq_attempts (ps : List Production) (index pos : Nat) :
    s.matchMembers call owner ps index pos = Attempt.candidates <$> s.attempts call owner ps index pos := by
  induction ps generalizing index with
  | nil => simp [matchMembers, attempts, Attempt.candidates]
  | cons p ps ih =>
    simp only [matchMembers, attempts, ih, map_bind, map_pure, bind_map_left]
    congr 1
    funext found
    congr 1
    funext others
    cases found <;> rfl

/-- **The engine takes the winner of all attempts.** -/
theorem matchProduction_choice (members : List Production) (pos : Nat) :
    s.matchProduction call owner (.choice members) pos =
      Attempt.best s.grammar.conflicts owner <$> s.attempts call owner members 0 pos := by
  simp only [matchProduction, matchMembers_eq_attempts, bind_pure_comp, Functor.map_map]
  rfl

/-- What is made of attempts matters only where their places ascend. -/
theorem map_attempts_congr {α : Type} {f g : List Attempt → α} (ps : List Production) (index pos : Nat)
    (h : ∀ as : List Attempt, as.Pairwise (·.index < ·.index) → (∀ a ∈ as, index ≤ a.index) →
      f as = g as) :
    f <$> s.attempts call owner ps index pos = g <$> s.attempts call owner ps index pos := by
  induction ps generalizing index f g with
  | nil => simp [attempts, h [] .nil nofun]
  | cons p ps ih =>
    simp only [attempts, map_bind, map_pure]
    congr 1
    funext found
    simp only [bind_pure_comp]
    apply ih
    intro as hascending hfrom
    apply h
    · exact List.pairwise_cons.2 ⟨fun a ha => hfrom a ha, hascending⟩
    · intro a ha
      rcases List.mem_cons.1 ha with rfl | ha
      · exact Nat.le_refl _
      · exact Nat.le_of_lt (hfrom a ha)

end Session

end LayeredGrammar
