import LayeredGrammar.Proofs.Engine.Leaves
import LayeredGrammar.Proofs.Engine.Loops
import LayeredGrammar.Proofs.Grammar.Corners

/-!
# What happens before text is taken in

For a table with a certificate (`ParseTable.Ranked`):

* `Session.Yields.consumes` — a production that cannot be empty ends past the position where it was
  looked for.
* `Session.Asks.near` — what a task asks for lies further on in the text, or it stands at the same
  position and is a corner of the production.
* `Session.Asks.height_lt` — so the rules that a rule asks for are below it: further to the right, or
  at the same position with a smaller rank. No rule can come back to where it stands.
-/

namespace LayeredGrammar

/-- A match of a rule before its node is made; it takes in text unless the rule may be empty. -/
structure Match.Begun (m : Match) (s : Session) (empties : List String) (rule : String)
    (pos : Nat) : Prop where
  proper : m.Proper pos s.size
  lt : rule ∉ empties → pos < m.stop

namespace Session

variable {s : Session} {empties : List String} {rank : String → Nat}

/-- Taking in the match of an item moves a run to its end. -/
theorem cursor_push_eq {run : Run} {m : Match} {n : Nat} (hm : m.Proper run.cursor n) :
    (run.push m).cursor = m.stop := by
  rw [Run.cursor_push]
  split
  · rename_i hnil
    exact (hm.of_nil (List.isEmpty_iff.1 hnil)).2.symm
  · rfl

/-! ## Taking in text -/

/-- What taking in text means for each kind of task. -/
def Task.Consumes (empties : List String) : Task → Match → Prop
  | .production p pos, m => p.mayBeEmpty empties = false → pos < m.stop
  | .items ps run, m => run.cursor ≤ m.stop ∧
      (Production.allMayBeEmpty empties ps = false → run.cursor < m.stop)
  | .rounds _ least _ count run, m => run.cursor ≤ m.stop ∧
      ((count : Int) < least → run.cursor < m.stop)
  | .element owner _ e pos, m => e.selfFields = e.body.selfFields? owner →
      e.body.mayBeEmpty empties = false → pos < m.stop
  | .elements owner _ es run, m => (∀ e ∈ es, e.selfFields = e.body.selfFields? owner) →
      run.cursor ≤ m.stop ∧
      (Production.allMayBeEmpty empties (es.map (·.body)) = false → run.cursor < m.stop)
  | .growth _ _ left, m => left.stop ≤ m.stop
  | .rule key, m => key.rule ∉ empties → key.pos < m.stop

/-- Items in a row take in text if the first does, or the others do. -/
theorem consumes_cons {p : Production} {ps : List Production} {run : Run} {m m' : Match}
    (hm : m.Proper run.cursor s.size) (h : p.mayBeEmpty empties = false → run.cursor < m.stop)
    (h' : (run.push m).cursor ≤ m'.stop ∧
      (Production.allMayBeEmpty empties ps = false → (run.push m).cursor < m'.stop)) :
    run.cursor ≤ m'.stop ∧
      (Production.allMayBeEmpty empties (p :: ps) = false → run.cursor < m'.stop) := by
  rw [cursor_push_eq hm] at h'
  have hle : run.cursor ≤ m.stop := hm.le_stop
  refine ⟨Nat.le_trans hle h'.1, ?_⟩
  intro hempty
  rw [Production.allMayBeEmpty, Bool.and_eq_false_iff] at hempty
  rcases hempty with hp | hps
  · exact Nat.lt_of_lt_of_le (h hp) h'.1
  · exact Nat.lt_of_le_of_lt hle (h'.2 hps)

/-- **What cannot be empty takes in text.** -/
theorem Yields.consumes (hb : s.table.Built) (hr : s.table.Ranked empties rank) {t : Task}
    {m : Match} (h : s.Yields t m) : t.Consumes empties m := by
  induction h with
  | lit h =>
    intro _
    have hle := (matchLiteral_proper h).le_start
    obtain ⟨l, hl, _, rfl⟩ := matchLiteral_eq_some h
    have := (slice_of_literalAt hb hl).2
    exact Nat.lt_of_le_of_lt hle (by show s.skip _ < s.skip _ + l.chars.length; omega)
  | token _ h =>
    intro _
    have hle := (matchToken_proper h).le_start
    obtain ⟨stop, _, hlt, _, rfl⟩ := matchToken_eq_some h
    exact Nat.lt_of_le_of_lt hle hlt
  | ref _ _ ih => exact fun hempty => ih fun hmem => by simp [Production.mayBeEmpty, hmem] at hempty
  | seq _ ih => exact ih.2
  | choice hp _ ih => exact fun hempty => ih (Production.mayBeEmpty_of_mem hp hempty)
  | rep _ ih =>
    intro hempty
    rw [Production.mayBeEmpty, decide_eq_false_iff_not] at hempty
    exact ih.2 (by omega)
  | opt => exact nofun
  | omitted => exact nofun
  | blank => exact nofun
  | field _ ih => exact ih
  | renamed _ ih =>
    intro hempty
    rw [Match.stop_rename]
    exact ih hempty
  | prec _ ih => exact ih
  | itemsDone => exact ⟨Nat.le_refl _, nofun⟩
  | itemsNext h _ ih ih' => exact consumes_cons h.proper ih ih'
  | roundsDone hc => exact ⟨Nat.le_refl _, fun hlt => absurd hlt hc⟩
  | round _ hlt _ _ ih' =>
    have := Nat.lt_of_lt_of_le hlt ih'.1
    exact ⟨Nat.le_of_lt this, fun _ => this⟩
  | region hspan _ ih' =>
    have := Nat.lt_of_lt_of_le (errorSpan_advances hspan).2.2.1 ih'.1
    exact ⟨Nat.le_of_lt this, fun _ => this⟩
  | selfElement he _ ih =>
    intro hknows hempty
    refine ih fun hmem => ?_
    rw [← (Production.unfield_same _).1, Production.unfield_of_selfFields? (hknows.symm.trans he)] at hempty
    simp [Production.mayBeEmpty, hmem] at hempty
  | bodyElement _ _ ih => exact fun _ => ih
  | elementsDone => exact fun _ => ⟨Nat.le_refl _, nofun⟩
  | elementsNext h _ ih ih' =>
    intro hknows
    exact consumes_cons h.proper (ih (hknows _ List.mem_cons_self))
      (ih' fun e he => hknows e (List.mem_cons_of_mem _ he))
  | grown => exact Nat.le_refl _
  | grow _ _ _ _ hlt _ _ ih' =>
    have ih' : (extended _ _ _).stop ≤ _ := ih'
    rw [stop_extended] at ih'
    exact Nat.le_of_lt (Nat.lt_of_lt_of_le hlt ih')
  | @rule key _ a seed m ht ha _ _ ih ih' =>
    intro hrule
    have hoffers := (hb.offers_seed ht ha).1
    have ih' : (dress a seed).stop ≤ m.stop := ih'
    rw [stop_dress] at ih'
    rw [Match.stop_finish]
    exact Nat.lt_of_lt_of_le ((ih hoffers.knows).2 (hr.mayBeEmpty_spine hoffers hrule)) ih'

/-- A rule begins with a match that takes in text if the rule always does. -/
theorem begun_seed (hb : s.table.Built) (hr : s.table.Ranked empties rank) {rule : String}
    {a : Alternative} {pos : Nat} {seed : Match} (ha : s.table.Offers rule a)
    (h : s.Yields (.elements rule a.rightMin a.elements (.begin pos)) seed) :
    (dress a seed).Begun s empties rule pos := by
  refine ⟨(h.proper (Run.proper_begin _ _)).dress a, fun hrule => ?_⟩
  rw [stop_dress]
  exact (h.consumes hb hr ha.knows).2 (hr.mayBeEmpty_spine ha hrule)

end Session

/-- Rules that may be empty do not grow, so both what a match was and what is added to it have
nodes. -/
theorem Match.Begun.extended {s : Session} {empties : List String} {rank : String → Nat}
    (hb : s.table.Built) (hr : s.table.Ranked empties rank) {rule : String} {pos : Nat}
    {alts : RuleAlternatives} {a : Alternative} {left right : Match}
    (h : left.Begun s empties rule pos) (ht : s.table.rules.get? rule = some alts)
    (ha : a ∈ alts.postfixed ∨ a ∈ alts.leftRec)
    (hright : s.Yields (.elements rule a.rightMin (a.elements.drop 1) (.begin left.stop)) right)
    (hlt : left.stop < right.stop) :
    left.items ≠ [] ∧ right.items ≠ [] ∧
      (Session.extended a left right).Begun s empties rule pos := by
  obtain ⟨hoffers, hself⟩ := hb.offers_growing ht ha
  have hleft := h.lt (hr.not_empty_of_growing hoffers hself)
  have hproper : right.Proper left.stop s.size := hright.proper (Run.proper_begin _ _)
  refine ⟨h.proper.items_ne_nil hleft, hproper.items_ne_nil hlt,
    h.proper.extended hproper hlt a, fun _ => ?_⟩
  rw [Session.stop_extended]
  omega

namespace Session

variable {s : Session} {empties : List String} {rank : String → Nat}

/-! ## What is asked for -/

/-- A key further on in a text of length `n`, or at the same position and with one of the given
names. -/
def Near (n pos : Nat) (names : List String) (k : MemoKey) : Prop :=
  k.pos ≤ max pos n ∧ (pos < k.pos ∨ k.pos = pos ∧ k.rule ∈ names)

theorem Near.trans {n pos pos' : Nat} {names names' : List String} {k : MemoKey}
    (h : Near n pos' names' k) (hle : pos ≤ pos') (hle' : pos' ≤ max pos n)
    (hsub : pos = pos' → ∀ name ∈ names', name ∈ names) : Near n pos names k := by
  obtain ⟨hmax, h⟩ := h
  refine ⟨by omega, ?_⟩
  rcases h with hlt | ⟨rfl, hmem⟩
  · exact Or.inl (by omega)
  · rcases Nat.lt_or_eq_of_le hle with hlt | heq
    · exact Or.inl hlt
    · exact Or.inr ⟨heq.symm, hsub heq _ hmem⟩

/-- What is near means for each kind of task. -/
def Task.Near (n : Nat) (empties : List String) (rank : String → Nat) : Task → MemoKey → Prop
  | .production p pos, k => Session.Near n pos (p.corners empties) k
  | .items ps run, k => Session.Near n run.cursor (Production.cornersInRow empties ps) k
  | .rounds content _ _ _ run, k => Session.Near n run.cursor (content.corners empties) k
  | .element owner _ e pos, k => e.selfFields = e.body.selfFields? owner →
      Session.Near n pos (e.body.corners empties) k
  | .elements owner _ es run, k => (∀ e ∈ es, e.selfFields = e.body.selfFields? owner) →
      Session.Near n run.cursor (Production.cornersInRow empties (es.map (·.body))) k
  | .growth owner _ left, k => left.stop ≤ k.pos ∧ k.pos ≤ max left.stop n ∧ owner ∉ empties
  | .rule key, k => k.pos ≤ max key.pos n ∧
      (key.pos < k.pos ∨ k.pos = key.pos ∧ rank k.rule < rank key.rule)

/-- What the items after the first ask for is near the first: if that can be empty, their corners
are corners of the whole. -/
theorem near_cons {p : Production} {ps : List Production} {run : Run} {m : Match} {k : MemoKey}
    (hm : m.Proper run.cursor s.size) (hp : p.mayBeEmpty empties = false → run.cursor < m.stop)
    (h : Near s.size (run.push m).cursor (Production.cornersInRow empties ps) k) :
    Near s.size run.cursor (Production.cornersInRow empties (p :: ps)) k := by
  rw [cursor_push_eq hm] at h
  refine h.trans hm.le_stop hm.stop_le ?_
  intro heq name hname
  rw [Production.cornersInRow, List.mem_append]
  cases hempty : p.mayBeEmpty empties with
  | true => exact Or.inr hname
  | false =>
    have := hp hempty
    omega

theorem near_head {p : Production} {ps : List Production} {n pos : Nat} {k : MemoKey}
    (h : Near n pos (p.corners empties) k) :
    Near n pos (Production.cornersInRow empties (p :: ps)) k :=
  h.trans (Nat.le_refl _) (Nat.le_max_left _ _) fun _ _ hname => List.mem_append_left _ hname

/-- **What a task asks for is further on, or a corner.** -/
theorem Asks.near (hb : s.table.Built) (hr : s.table.Ranked empties rank) {t : Task} {k : MemoKey}
    (h : s.Asks t k) : t.Near s.size empties rank k := by
  induction h with
  | ref => exact ⟨Nat.le_max_left _ _, Or.inr ⟨rfl, List.mem_cons_self⟩⟩
  | seq _ ih => exact ih
  | choice hp _ ih =>
    exact ih.trans (Nat.le_refl _) (Nat.le_max_left _ _) fun _ _ hname =>
      Production.corners_subset_ofAll hp hname
  | rep _ ih => exact ih
  | opt _ ih => exact ih
  | field _ ih => exact ih
  | renamed _ ih => exact ih
  | prec _ ih => exact ih
  | itemsHead _ ih => exact near_head ih
  | itemsTail hm _ ih => exact near_cons hm.proper (hm.consumes hb hr) ih
  | roundsHead _ ih => exact ih
  | roundsTail hm hlt _ ih =>
    have hm := hm.proper
    exact Near.trans ih (Nat.le_of_lt hlt) (Match.Proper.stop_le hm) fun heq =>
      absurd heq (Nat.ne_of_lt hlt)
  | roundsRegion hspan _ ih =>
    obtain ⟨_, _, hlt, hle⟩ := errorSpan_advances hspan
    exact Near.trans ih (Nat.le_of_lt hlt) (Nat.le_trans hle (Nat.le_max_right _ _)) fun heq =>
      absurd heq (Nat.ne_of_lt hlt)
  | selfElement he =>
    intro hknows
    rw [← (Production.unfield_same _).2, Production.unfield_of_selfFields? (hknows.symm.trans he)]
    exact ⟨Nat.le_max_left _ _, Or.inr ⟨rfl, List.mem_cons_self⟩⟩
  | bodyElement _ _ ih => exact fun _ => ih
  | elementsHead _ ih => exact fun hknows => near_head (ih (hknows _ List.mem_cons_self))
  | elementsTail hm _ ih =>
    intro hknows
    exact near_cons hm.proper (hm.consumes hb hr (hknows _ List.mem_cons_self))
      (ih fun e he => hknows e (List.mem_cons_of_mem _ he))
  | growthHead ht ha _ ih =>
    obtain ⟨hoffers, hself⟩ := hb.offers_growing ht ha
    obtain ⟨hmax, h⟩ := ih fun e he => hoffers.knows e (List.mem_of_mem_drop he)
    rw [Run.cursor_begin] at hmax h
    refine ⟨?_, hmax, hr.not_empty_of_growing hoffers hself⟩
    rcases h with h | h
    · exact Nat.le_of_lt h
    · exact Nat.le_of_eq h.1.symm
  | growthTail _ _ hm hlt _ ih =>
    have hright := (hm.proper (Run.proper_begin _ _)).stop_le
    rw [Run.origin_begin] at hright
    obtain ⟨h1, h2, h3⟩ := ih
    rw [stop_extended] at h1 h2
    exact ⟨by omega, by omega, h3⟩
  | ruleSeed ht ha _ ih =>
    obtain ⟨hoffers, hself⟩ := hb.offers_seed ht ha
    obtain ⟨hmax, h⟩ := ih hoffers.knows
    refine ⟨hmax, h.imp id ?_⟩
    rintro ⟨heq, hmem⟩
    exact ⟨heq, hr.rank_lt hoffers hself hmem⟩
  | @ruleGrowth key _ a seed _ ht ha hm _ ih =>
    obtain ⟨hoffers, _⟩ := hb.offers_seed ht ha
    obtain ⟨h1, h2, h3⟩ := ih
    rw [stop_dress] at h1 h2
    have hseed := (hm.proper (Run.proper_begin _ _)).stop_le
    have hlt := (hm.consumes hb hr hoffers.knows).2 (hr.mayBeEmpty_spine hoffers h3)
    rw [Run.origin_begin] at hseed
    rw [Run.cursor_begin] at hlt
    exact ⟨by omega, Or.inl (by omega)⟩

/-! ## Heights -/

/-- How much can still be asked for below a key: the text after it counts most, then the rank, which
is at most `top`. -/
def height (s : Session) (rank : String → Nat) (top : Nat) (k : MemoKey) : Nat :=
  (s.size - k.pos) * (top + 1) + rank k.rule

theorem height_le {top : Nat} (htop : ∀ name, rank name ≤ top) (k : MemoKey) :
    s.height rank top k ≤ s.size * (top + 1) + top := by
  unfold height
  have := Nat.mul_le_mul_right (top + 1) (Nat.sub_le s.size k.pos)
  have := htop k.rule
  omega

/-- A rule asks only for keys below its own. -/
theorem Asks.height_lt (hb : s.table.Built) (hr : s.table.Ranked empties rank) {top : Nat}
    (htop : ∀ name, rank name ≤ top) {key k : MemoKey} (h : s.Asks (.rule key) k) :
    s.height rank top k < s.height rank top key := by
  obtain ⟨hmax, h⟩ := h.near hb hr
  have hk := htop k.rule
  have hkey := htop key.rule
  unfold height
  rcases h with hlt | ⟨heq, hlt⟩
  · have hfurther : s.size - k.pos + 1 ≤ s.size - key.pos := by omega
    have hmul := Nat.mul_le_mul_right (top + 1) hfurther
    rw [Nat.add_mul, Nat.one_mul] at hmul
    omega
  · rw [heq]
    omega

end Session

end LayeredGrammar
