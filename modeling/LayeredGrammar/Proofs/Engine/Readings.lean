import LayeredGrammar.Proofs.Engine.Faultless
import LayeredGrammar.Proofs.Engine.Growth

/-!
# Productions read with a table of answers

With a table of answers at hand the engine needs no memo: every task leaves the memo as it is and
ends with a match that depends on nothing else (`Session.matchProduction_tabled`). So what a
production matches at a position is a value, `Session.readProduction`, and the equations for it are
those of the engine without the monad.

Three consequences are drawn here. A recovering repetition goes on until neither its content nor an
error region follows (`Session.readProduction_recovers`). A rule has an answer if one of its
alternatives can start a match (`Session.truth_isSome`), and if none of them starts with the rule, the
answer is what one of them started (`Session.Grows.left_eq`).
-/

namespace LayeredGrammar

namespace Session

open Engine (Coupled Coupling)

variable {s : Session} {answers : MemoKey → Option Match}

/-! ## Computations that leave the memo alone -/

/-- Two runs that keep the memos they start with. -/
def keeping (μ ν : Memo) : Coupling where
  going μ' ν' := μ' = μ ∧ ν' = ν
  stopped _ _ := False
  lenient := False

theorem tabled_keeps (ht : s.Truthful answers) (μ ν : Memo) (k : MemoKey) :
    s.Alike (keeping μ ν) (tabled answers) (tabled answers) k := by
  intro μ' ν' h
  exact ⟨ν', rfl, h, ht k⟩

/-- What keeps the memo it starts with is a value. -/
theorem eq_pure_of_keeping {x : Engine (Option Match)} {post : Option Match → Prop}
    (h : ∀ μ ν, Coupled (keeping μ ν) x x post) : x = pure (matchOf (x {})) := by
  funext μ
  have hboth := h μ {} μ {} ⟨rfl, rfl⟩
  cases hx : x μ with
  | error e μ' =>
    rw [hx] at hboth
    rcases hboth with h | ⟨_, _, h⟩ <;> exact h.elim
  | ok found μ' =>
    rw [hx] at hboth
    obtain ⟨ν', hy, ⟨rfl, _⟩, _⟩ := hboth
    rw [hy]
    rfl

/-! ## Readings -/

/-- What a production matches at a position. -/
def readProduction (s : Session) (answers : MemoKey → Option Match) (owner : String)
    (p : Production) (pos : Nat) : Option Match :=
  matchOf (s.matchProduction (tabled answers) owner p pos {})

/-- What items in a row match behind a run. -/
def readItems (s : Session) (answers : MemoKey → Option Match) (owner : String)
    (ps : List Production) (run : Run) : Option Match :=
  matchOf (s.matchItems (tabled answers) owner ps run {})

/-- What elements of an alternative match behind a run. -/
def readElements (s : Session) (answers : MemoKey → Option Match) (rule : String) (rightMin : Int)
    (es : List Element) (run : Run) : Option Match :=
  matchOf (s.matchElements (tabled answers) rule rightMin es run {})

variable {owner : String} {p : Production} {pos : Nat}

theorem matchProduction_tabled (ht : s.Truthful answers) (owner : String) (p : Production)
    (pos : Nat) : s.matchProduction (tabled answers) owner p pos =
      pure (s.readProduction answers owner p pos) :=
  eq_pure_of_keeping fun μ ν => matchProduction_coupled owner p pos fun k _ => tabled_keeps ht μ ν k

theorem yields_readProduction (ht : s.Truthful answers) {m : Match}
    (h : s.readProduction answers owner p pos = some m) : s.Yields (.production p pos) m :=
  (matchOf_of_coupled (matchProduction_coupled owner p pos fun k _ => tabled_alike rfl (ht k))
    {} {}).2.1 m h

theorem readProduction_stop_le (ht : s.Truthful answers) {m : Match}
    (h : s.readProduction answers owner p pos = some m) : m.stop ≤ max pos s.size := by
  have hproper : m.Proper pos s.size := (yields_readProduction ht h).proper
  exact hproper.stop_le

/-! ## Equations -/

theorem readProduction_seq (answers : MemoKey → Option Match) (owner : String)
    (items : List Production) (pos : Nat) : s.readProduction answers owner (.seq items) pos =
      s.readItems answers owner items (.begin pos) := rfl

theorem readProduction_opt (ht : s.Truthful answers) (owner : String) (p : Production) (pos : Nat) :
    s.readProduction answers owner (.opt p) pos =
      some ((s.readProduction answers owner p pos).getD (.empty pos)) := by
  rw [readProduction]
  simp only [matchProduction]
  rw [matchProduction_tabled ht, pure_bind]
  rfl

theorem readProduction_field (ht : s.Truthful answers) (owner name : String) (p : Production)
    (pos : Nat) : s.readProduction answers owner (.field name p) pos =
      (s.readProduction answers owner p pos).map (·.withFields [name]) := by
  rw [readProduction]
  simp only [matchProduction]
  rw [matchProduction_tabled ht, pure_bind]
  rfl

theorem readItems_cons (ht : s.Truthful answers) (owner : String) (p : Production)
    (ps : List Production) (run : Run) : s.readItems answers owner (p :: ps) run =
      (s.readProduction answers owner p run.cursor).bind fun m =>
        s.readItems answers owner ps (run.push m) := by
  rw [readItems]
  simp only [matchItems]
  rw [matchProduction_tabled ht, pure_bind]
  cases s.readProduction answers owner p run.cursor <;> rfl

theorem readElements_cons (ht : s.Truthful answers) (rule : String) (rightMin : Int) {e : Element}
    (he : e.selfFields = none) (es : List Element) (run : Run) :
    s.readElements answers rule rightMin (e :: es) run =
      (s.readProduction answers rule e.body run.cursor).bind fun m =>
        s.readElements answers rule rightMin es (run.push m) := by
  rw [readElements]
  simp only [matchElements, matchElement, he]
  rw [matchProduction_tabled ht, pure_bind]
  cases s.readProduction answers rule e.body run.cursor <;> rfl

/-! ## Recovering repetitions -/

/-- A recovering repetition ends where no error region can start. -/
theorem repeatFrom_recovers {f : Nat → Option Match} (expected : List Terminal)
    (hf : ∀ pos m, f pos = some m → m.stop ≤ max pos s.size) :
    ∀ (n count : Nat) (run : Run), s.size - run.cursor < n →
      ∃ run' count', s.repeatFrom true expected (fun pos => pure (f pos)) n count run =
        pure (run', count') ∧ s.errorSpan run'.cursor = none
  | 0, _, _, hn => by omega
  | n + 1, count, run, hn => by
    simp only [repeatFrom, repeatPass]
    rw [pure_bind]
    cases hfound : (f run.cursor).filter (run.cursor < ·.stop) with
    | some m =>
      simp only [pure_bind]
      obtain ⟨hm, hlt⟩ := Option.filter_eq_some_iff.1 hfound
      have hle := hf _ m hm
      have hlt : run.cursor < m.stop := of_decide_eq_true hlt
      refine repeatFrom_recovers expected hf n (count + 1) (run.take m) ?_
      change s.size - m.stop < n
      omega
    | none =>
      cases hspan : s.errorSpan run.cursor with
      | none =>
        simp only [if_true, pure_bind]
        exact ⟨run, count, rfl, hspan⟩
      | some region =>
        simp only [if_true, pure_bind]
        have hadvances := errorSpan_advances (show _ = some (region.1, region.2) from hspan)
        refine repeatFrom_recovers expected hf n (count + 1) _ ?_
        change s.size - region.2 < n
        omega

/-- **A recovering repetition matches, and ends where no error region can start.** -/
theorem readProduction_recovers (ht : s.Truthful answers) (hrecover : s.recover = true)
    (owner : String) (content : Production) (pos : Nat) :
    ∃ m, s.readProduction answers owner (.rep content 0 true) pos = some m ∧
      s.errorSpan m.stop = none := by
  obtain ⟨run, count, hrun, hspan⟩ := repeatFrom_recovers (s := s)
    (f := s.readProduction answers owner content) (s.table.expectedFor content)
    (fun pos m h => readProduction_stop_le ht h) (s.size + 1) 0 (.begin pos)
    (Nat.lt_succ_of_le (Nat.sub_le s.size pos))
  have hcontent : s.matchProduction (tabled answers) owner content =
      fun pos => pure (s.readProduction answers owner content pos) :=
    funext fun pos => matchProduction_tabled ht owner content pos
  refine ⟨run.toMatch, ?_, hspan⟩
  rw [readProduction]
  simp only [matchProduction, hrecover, Bool.and_self]
  rw [hcontent, hrun, pure_bind]
  have hcount : ¬(count : Int) < 0 := by omega
  simp only [hcount, if_false]
  rfl

/-! ## Rules that have an answer -/

theorem seeds_ne_nil (ht : s.Truthful answers) {rule : String} {a : Alternative} {seed : Match}
    (hseed : s.inRow answers rule a.rightMin a.elements pos = some seed) :
    ∀ {alts : List Alternative} {found : List Candidate} {μ μ' : Memo}, a ∈ alts →
      s.seeds (tabled answers) rule pos alts μ = .ok found μ' → found ≠ []
  | b :: alts, found, μ, μ', ha, hrun => by
    simp only [seeds] at hrun
    obtain ⟨first, ν, hfirst, hrun⟩ := Engine.bind_eq_ok hrun
    obtain ⟨others, ν', hothers, hrun⟩ := Engine.bind_eq_ok hrun
    rcases List.mem_cons.1 ha with rfl | ha
    · have hrow := (inRow_of_ok ht hfirst).trans hseed
      subst hrow
      cases hrun
      exact List.cons_ne_nil _ _
    · have hne := seeds_ne_nil ht hseed ha hothers
      cases first with
      | none =>
        cases hrun
        exact hne
      | some m =>
        cases hrun
        exact List.cons_ne_nil _ _

/-- **A rule has an answer if one of its alternatives can start a match.** -/
theorem truth_isSome {height : MemoKey → Nat} (hfall : s.Falling height) {k : MemoKey}
    {alts : RuleAlternatives} (htable : s.table.rules.get? k.rule = some alts) {a : Alternative}
    (ha : a ∈ alts.prefixed ++ alts.plain) {seed : Match}
    (hseed : s.inRow (s.truth height) k.rule a.rightMin a.elements k.pos = some seed) :
    ∃ m, s.truth height k = some m := by
  obtain ⟨μ, hrun⟩ := answer_truth hfall k {}
  simp only [answer, htable] at hrun
  obtain ⟨found, ν, hfound, hrun⟩ := Engine.bind_eq_ok hrun
  cases found with
  | some m =>
    injection hrun with hanswer
    exact ⟨_, hanswer.symm⟩
  | none =>
    unfold matchAlternatives at hfound
    obtain ⟨candidates, ν', hseeds, hfound⟩ := Engine.bind_eq_ok hfound
    have hne := seeds_ne_nil truthful_truth hseed ha hseeds
    cases candidates with
    | nil => exact absurd rfl hne
    | cons c cs =>
      obtain ⟨best, hbest⟩ :=
        Option.isSome_iff_exists.1 (Candidate.isSome_best s.grammar.conflicts k.rule c cs)
      rw [hbest] at hfound
      obtain ⟨grown, _, _, hfound⟩ := Engine.bind_eq_ok hfound
      cases hfound

/-- A match does not grow if no alternative starts with the rule. -/
theorem Yields.growth_eq {rule : String} {minPrec : Int} {left m : Match}
    (h : s.Yields (.growth rule minPrec left) m) (hb : s.table.Built)
    (hself : ∀ b, s.table.Offers rule b → b.startsWithSelf = false) : m = left := by
  cases h with
  | grown => rfl
  | grow htable hmem _ _ _ _ =>
    obtain ⟨hoffers, hstarts⟩ := hb.offers_growing htable hmem
    rw [hself _ hoffers] at hstarts
    cases hstarts

/-- A rule whose alternatives do not start with the rule answers with what one of them started. -/
theorem Grows.left_eq {k : MemoKey} {alts : RuleAlternatives} {a : Alternative} {seed left : Match}
    (h : s.Grows answers k alts a seed left) (hb : s.table.Built)
    (hself : ∀ b, s.table.Offers k.rule b → b.startsWithSelf = false) : left = dress a seed := by
  cases h.grown with
  | seed => rfl
  | step _ hmem _ _ =>
    obtain ⟨hoffers, hstarts⟩ := hb.offers_growing h.table (List.mem_append.1 hmem)
    rw [hself _ hoffers] at hstarts
    cases hstarts

end Session

end LayeredGrammar
