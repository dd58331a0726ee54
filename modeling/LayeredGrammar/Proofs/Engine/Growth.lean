import LayeredGrammar.Proofs.Engine.Answers

/-!
# How answers grow

The answer to a key starts with one of the alternatives of the rule and is grown until no alternative
of the least precedence adds text (`Session.truth_grows`). Whether an alternative adds text to a match
depends only on where the match ends, so a match that was grown with a lower precedence cannot grow
further than one that ends at the same place: this is what keeps operators apart that bind less
tightly (`Session.Stuck.rank_lt`).
-/

namespace LayeredGrammar

namespace Session

open Engine (Coupled Coupling)

variable {s : Session} {answers : MemoKey → Option Match} {rule : String} {minPrec : Int}

/-- A table whose answers the rules can yield. -/
def Truthful (s : Session) (answers : MemoKey → Option Match) : Prop :=
  ∀ k, ∀ m ∈ answers k, s.Yields (.rule k) m

/-! ## Elements in a row -/

/-- The match of elements in a row, with a table of answers. -/
def inRow (s : Session) (answers : MemoKey → Option Match) (rule : String) (rightMin : Int)
    (es : List Element) (pos : Nat) : Option Match :=
  matchOf (s.matchElements (tabled answers) rule rightMin es (.begin pos) {})

variable {rightMin : Int} {es : List Element} {pos : Nat}

theorem inRow_coupled (h : s.Truthful answers) (rule : String) (rightMin : Int) (es : List Element)
    (pos : Nat) : Coupled anyhow (s.matchElements (tabled answers) rule rightMin es (.begin pos))
      (s.matchElements (tabled answers) rule rightMin es (.begin pos))
      fun found => ∀ m ∈ found, s.Yields (.elements rule rightMin es (.begin pos)) m :=
  matchElements_coupled rule rightMin es (.begin pos) fun k _ => tabled_alike rfl (h k)

theorem yields_inRow (h : s.Truthful answers) {m : Match}
    (hm : s.inRow answers rule rightMin es pos = some m) :
    s.Yields (.elements rule rightMin es (.begin pos)) m :=
  (matchOf_of_coupled (inRow_coupled h rule rightMin es pos) {} {}).2.1 m hm

/-- With a table of answers it does not matter what is remembered. -/
theorem inRow_of_ok (h : s.Truthful answers) {found : Option Match} {μ μ' : Memo}
    (hrun : s.matchElements (tabled answers) rule rightMin es (.begin pos) μ = .ok found μ') :
    found = s.inRow answers rule rightMin es pos := by
  have heq := (matchOf_of_coupled (inRow_coupled h rule rightMin es pos) μ {}).1
  rw [hrun] at heq
  exact heq

/-- What elements in a row end with depends only on the keys they ask for. -/
theorem inRow_congr {answers' : MemoKey → Option Match} (h : s.Truthful answers)
    (heq : ∀ k, s.Asks (.elements rule rightMin es (.begin pos)) k → answers k = answers' k) :
    s.inRow answers rule rightMin es pos = s.inRow answers' rule rightMin es pos :=
  (matchOf_of_coupled (matchElements_coupled rule rightMin es (.begin pos) fun k hk =>
    tabled_alike (heq k hk) (h k)) {} {}).1

/-! ## Growth -/

/-- An alternative adds text to what ends at a position. -/
def Lengthens (s : Session) (answers : MemoKey → Option Match) (rule : String) (a : Alternative)
    (pos : Nat) (right : Match) : Prop :=
  s.inRow answers rule a.rightMin (a.elements.drop 1) pos = some right ∧ pos < right.stop

/-- No alternative that starts with the rule and has the precedence adds text to what ends at a
position. -/
def Stuck (s : Session) (answers : MemoKey → Option Match) (rule : String) (alts : RuleAlternatives)
    (minPrec : Int) (pos : Nat) : Prop :=
  ∀ a ∈ alts.postfixed ++ alts.leftRec, minPrec ≤ a.rank → ∀ right, ¬s.Lengthens answers rule a pos right

/-- An alternative that adds text where growth with some precedence ended has a lower one. -/
theorem Stuck.rank_lt {alts : RuleAlternatives} (h : s.Stuck answers rule alts minPrec pos)
    {a : Alternative} (ha : a ∈ alts.postfixed ++ alts.leftRec) {right : Match}
    (hadds : s.Lengthens answers rule a pos right) : a.rank < minPrec :=
  Int.not_le.1 fun hle => h a ha hle right hadds

/-- The matches that a match grows to, one alternative after another. -/
inductive Grown (s : Session) (answers : MemoKey → Option Match) (rule : String)
    (alts : RuleAlternatives) (minPrec : Int) (seed : Match) : Match → Prop
  | seed : Grown s answers rule alts minPrec seed seed
  | step {left : Match} {a : Alternative} {right : Match}
    (h : Grown s answers rule alts minPrec seed left) (ha : a ∈ alts.postfixed ++ alts.leftRec)
    (hrank : minPrec ≤ a.rank) (hadds : s.Lengthens answers rule a left.stop right) :
    Grown s answers rule alts minPrec seed (extended a left right)

theorem growOnce_grows (h : s.Truthful answers) {left : Match} :
    ∀ {alts : List Alternative} {found : Option Match} {μ μ' : Memo},
    s.growOnce (tabled answers) rule minPrec left alts μ = .ok found μ' →
    (∀ m ∈ found, ∃ a ∈ alts, ∃ right, minPrec ≤ a.rank ∧
      s.Lengthens answers rule a left.stop right ∧ m = extended a left right) ∧
    (found = none → ∀ a ∈ alts, minPrec ≤ a.rank → ∀ right,
      ¬s.Lengthens answers rule a left.stop right)
  | [], found, _, _, hrun => by
    cases hrun
    exact ⟨fun _ hm => absurd hm (Option.not_mem_none _), fun _ => List.forall_mem_nil _⟩
  | a :: alts, found, μ, μ', hrun => by
    -- an alternative that is passed over leaves the growth to the ones after it
    have hpass : ∀ {ν : Memo}, (minPrec ≤ a.rank → ∀ right, ¬s.Lengthens answers rule a left.stop right) →
        s.growOnce (tabled answers) rule minPrec left alts ν = .ok found μ' →
        (∀ m ∈ found, ∃ b ∈ a :: alts, ∃ right, minPrec ≤ b.rank ∧
          s.Lengthens answers rule b left.stop right ∧ m = extended b left right) ∧
        (found = none → ∀ b ∈ a :: alts, minPrec ≤ b.rank → ∀ right,
          ¬s.Lengthens answers rule b left.stop right) := by
      intro ν ha hrest
      obtain ⟨hsome, hnone⟩ := growOnce_grows h hrest
      constructor
      · intro m hm
        obtain ⟨b, hb, hgrown⟩ := hsome m hm
        exact ⟨b, List.mem_cons_of_mem _ hb, hgrown⟩
      · intro hfound
        exact List.forall_mem_cons.2 ⟨ha, hnone hfound⟩
    simp only [growOnce] at hrun
    split at hrun
    · rename_i hrank
      exact hpass (fun hle => absurd hrank (Int.not_lt.2 hle)) hrun
    · rename_i hrank
      obtain ⟨next, ν, hnext, hrun⟩ := Engine.bind_eq_ok hrun
      have hrow := inRow_of_ok h hnext
      cases next with
      | none =>
        refine hpass (fun _ right hadds => ?_) hrun
        rw [hadds.1] at hrow
        cases hrow
      | some right =>
        simp only at hrun
        split at hrun
        · rename_i hlt
          cases hrun
          refine ⟨?_, fun hnone => by cases hnone⟩
          intro m hm
          cases hm
          exact ⟨a, List.mem_cons_self, right, Int.not_lt.1 hrank, ⟨hrow.symm, hlt⟩, rfl⟩
        · rename_i hle
          refine hpass (fun _ right' hadds => hle ?_) hrun
          rw [hadds.1] at hrow
          cases hrow
          exact hadds.2

theorem growPass_grows (h : s.Truthful answers) {alts : RuleAlternatives} {left : Match}
    {found : Option Match} {μ μ' : Memo}
    (hrun : s.growPass (tabled answers) rule minPrec alts left μ = .ok found μ') :
    (∀ m ∈ found, ∃ a ∈ alts.postfixed ++ alts.leftRec, ∃ right, minPrec ≤ a.rank ∧
      s.Lengthens answers rule a left.stop right ∧ m = extended a left right) ∧
    (found = none → s.Stuck answers rule alts minPrec left.stop) := by
  unfold growPass at hrun
  obtain ⟨first, ν, hfirst, hrun⟩ := Engine.bind_eq_ok hrun
  obtain ⟨hsome, hnone⟩ := growOnce_grows h hfirst
  cases first with
  | some m =>
    cases hrun
    refine ⟨fun m' hm' => ?_, nofun⟩
    obtain ⟨a, ha, hgrown⟩ := hsome m' hm'
    exact ⟨a, List.mem_append_left _ ha, hgrown⟩
  | none =>
    obtain ⟨hsome', hnone'⟩ := growOnce_grows h hrun
    constructor
    · intro m hm
      obtain ⟨a, ha, hgrown⟩ := hsome' m hm
      exact ⟨a, List.mem_append_right _ ha, hgrown⟩
    · intro hfound
      exact List.forall_mem_append.2 ⟨hnone rfl, hnone' hfound⟩

/-- What adds text does not go beyond the end of the text. -/
theorem Lengthens.stop_le (h : s.Truthful answers) {a : Alternative} {right : Match}
    (hadds : s.Lengthens answers rule a pos right) : right.stop ≤ s.size := by
  have hproper := ((yields_inRow h hadds.1).proper (Run.proper_begin _ _)).stop_le
  have hlt := hadds.2
  rw [Run.origin_begin] at hproper
  omega

/-- A match is grown until it is stuck. -/
theorem grow_grows (h : s.Truthful answers) {alts : RuleAlternatives} {seed : Match} :
    ∀ (n : Nat) {left m : Match} {μ μ' : Memo}, s.size - left.stop < n →
    s.Grown answers rule alts minPrec seed left →
    s.grow (tabled answers) rule minPrec alts n left μ = .ok m μ' →
    s.Grown answers rule alts minPrec seed m ∧ s.Stuck answers rule alts minPrec m.stop
  | 0, _, _, _, _, hn, _, _ => by omega
  | n + 1, left, m, μ, μ', hn, hleft, hrun => by
    simp only [grow] at hrun
    obtain ⟨found, ν, hfound, hrun⟩ := Engine.bind_eq_ok hrun
    obtain ⟨hsome, hnone⟩ := growPass_grows h hfound
    cases found with
    | none =>
      cases hrun
      exact ⟨hleft, hnone rfl⟩
    | some next =>
      obtain ⟨a, ha, right, hrank, hadds, rfl⟩ := hsome next rfl
      have hle := hadds.stop_le h
      have hlt := hadds.2
      refine grow_grows h n ?_ (hleft.step ha hrank hadds) hrun
      rw [stop_extended]
      omega

/-! ## Whole answers -/

theorem seeds_begin (h : s.Truthful answers) :
    ∀ {alts : List Alternative} {found : List Candidate} {μ μ' : Memo},
    s.seeds (tabled answers) rule pos alts μ = .ok found μ' → ∀ x ∈ found, ∃ a ∈ alts, ∃ seed,
      s.inRow answers rule a.rightMin a.elements pos = some seed ∧ x.found = dress a seed
  | [], found, _, _, hrun => by
    cases hrun
    exact nofun
  | a :: alts, found, μ, μ', hrun => by
    simp only [seeds] at hrun
    obtain ⟨first, ν, hfirst, hrun⟩ := Engine.bind_eq_ok hrun
    obtain ⟨others, ν', hothers, hrun⟩ := Engine.bind_eq_ok hrun
    have hrow := inRow_of_ok h hfirst
    have hrest : ∀ x ∈ others, ∃ b ∈ a :: alts, ∃ seed,
        s.inRow answers rule b.rightMin b.elements pos = some seed ∧ x.found = dress b seed := by
      intro x hx
      obtain ⟨b, hb, hseed⟩ := seeds_begin h hothers x hx
      exact ⟨b, List.mem_cons_of_mem _ hb, hseed⟩
    cases first with
    | none =>
      cases hrun
      exact hrest
    | some seed =>
      cases hrun
      exact List.forall_mem_cons.2 ⟨⟨a, List.mem_cons_self, seed, hrow.symm, rfl⟩, hrest⟩

/-- How an answer comes about: by an alternative of the rule that starts a match, which is grown until
it is stuck. -/
structure Grows (s : Session) (answers : MemoKey → Option Match) (k : MemoKey)
    (alts : RuleAlternatives) (a : Alternative) (seed left : Match) : Prop where
  table : s.table.rules.get? k.rule = some alts
  mem : a ∈ alts.prefixed ∨ a ∈ alts.plain
  begins : s.inRow answers k.rule a.rightMin a.elements k.pos = some seed
  grown : s.Grown answers k.rule alts k.minPrec (dress a seed) left
  stuck : s.Stuck answers k.rule alts k.minPrec left.stop

theorem answer_grows (h : s.Truthful answers) {k : MemoKey} {m : Match} {μ μ' : Memo}
    (hrun : s.answer (tabled answers) k μ = .ok (some m) μ') :
    ∃ alts a seed left, s.Grows answers k alts a seed left ∧ m = left.finish k.rule := by
  unfold answer at hrun
  cases htable : s.table.rules.get? k.rule with
  | none =>
    rw [htable] at hrun
    cases hrun
  | some alts =>
    rw [htable] at hrun
    obtain ⟨found, ν, hfound, hrun⟩ := Engine.bind_eq_ok hrun
    cases found with
    | none => cases hrun
    | some grown =>
      cases hrun
      unfold matchAlternatives at hfound
      obtain ⟨candidates, ν', hseeds, hfound⟩ := Engine.bind_eq_ok hfound
      cases hbest : Candidate.best s.grammar.conflicts k.rule candidates with
      | none =>
        rw [hbest] at hfound
        cases hfound
      | some best =>
        rw [hbest] at hfound
        obtain ⟨grown', ν'', hgrow, hfound⟩ := Engine.bind_eq_ok hfound
        cases hfound
        obtain ⟨x, hx, rfl⟩ := Candidate.exists_of_best hbest
        obtain ⟨a, ha, seed, hseed, hx⟩ := seeds_begin h hseeds x hx
        rw [hx] at hgrow
        obtain ⟨hgrown, hstuck⟩ := grow_grows h (s.size + 1) (by omega) .seed hgrow
        exact ⟨alts, a, seed, grown, ⟨htable, List.mem_append.1 ha, hseed, hgrown, hstuck⟩, rfl⟩

variable {height : MemoKey → Nat}

theorem truthful_truth : s.Truthful (s.truth height) := fun k => yields_truth k

/-- **How the answer to a key comes about.** -/
theorem truth_grows (hfall : s.Falling height) {k : MemoKey} {m : Match}
    (h : s.truth height k = some m) : ∃ alts a seed left,
      s.Grows (s.truth height) k alts a seed left ∧ m = left.finish k.rule := by
  obtain ⟨μ, hμ⟩ := answer_truth hfall k {}
  rw [h] at hμ
  exact answer_grows truthful_truth hμ

/-- No alternative adds text to an answer that was asked for with its precedence or a lower one. -/
theorem stuck_of_truth (hfall : s.Falling height) {alts : RuleAlternatives}
    (ht : s.table.rules.get? rule = some alts) {k : MemoKey} (hk : k.rule = rule) {m : Match}
    (h : s.truth height k = some m) :
    s.Stuck (s.truth height) rule alts k.minPrec m.stop := by
  obtain ⟨alts', a, seed, left, hgrows, rfl⟩ := truth_grows hfall h
  subst hk
  have htable := hgrows.table
  rw [ht] at htable
  cases htable
  rw [Match.stop_finish]
  exact hgrows.stuck

/-! ## What growth asks for -/

/-- What a match asks for on its way further is asked for by the match it grew from. -/
theorem Grown.asks (h : s.Truthful answers) {alts : RuleAlternatives} {seed left : Match}
    (ht : s.table.rules.get? rule = some alts) (hg : s.Grown answers rule alts minPrec seed left)
    {k : MemoKey} (hk : s.Asks (.growth rule minPrec left) k) :
    s.Asks (.growth rule minPrec seed) k := by
  induction hg with
  | seed => exact hk
  | step _ ha hrank hadds ih =>
    exact ih (.growthTail ht (List.mem_append.1 ha) (yields_inRow h hadds.1) hadds.2 hk)

/-- A match grows by keys that the rule asks for. -/
theorem Grows.asks (h : s.Truthful answers) {k k' : MemoKey} {alts : RuleAlternatives}
    {a b : Alternative} {seed left left' : Match} (hgrows : s.Grows answers k alts a seed left')
    (hg : s.Grown answers k.rule alts k.minPrec (dress a seed) left)
    (hb : b ∈ alts.postfixed ++ alts.leftRec)
    (hk : s.Asks (.elements k.rule b.rightMin (b.elements.drop 1) (.begin left.stop)) k') :
    s.Asks (.rule k) k' :=
  .ruleGrowth hgrows.table hgrows.mem (yields_inRow h hgrows.begins)
    (hg.asks h hgrows.table (.growthHead hgrows.table (List.mem_append.1 hb) hk))

end Session

end LayeredGrammar
