import LayeredGrammar.Proofs.Engine.Coupling

/-!
# What the engine can answer and what it can ask for

A task is one thing the engine does on the way to a match: a production at a position, the rest of a
sequence, the next round of a repetition, an element of an alternative, the growth of a match, or a
whole rule.

* `Session.Yields` — the matches a task can end with, whatever is remembered and whichever
  alternative wins a choice.
* `Session.Asks` — the rules, each at a position and with a least precedence, that a task can ask
  for before it is done.

`Session.matchProduction_coupled` and its companions are the link to the engine: two ways of asking
for rules that are coupled on every key a task can ask for make coupled computations of the task,
and the answer is one the task can yield. Invariants of matches are inductions over `Yields`;
statements about nested rules, such as the order of calls, are inductions over `Asks`.
-/

namespace LayeredGrammar

namespace Session

/-- A part of the work of the engine. -/
inductive Task where
  | production (p : Production) (pos : Nat)
  | items (ps : List Production) (run : Run)
  | rounds (content : Production) (least : Int) (recovering : Bool) (count : Nat) (run : Run)
  /-- An element of an alternative of a rule; `minPrec` is for a reference to the rule itself. -/
  | element (rule : String) (minPrec : Int) (e : Element) (pos : Nat)
  | elements (rule : String) (rightMin : Int) (es : List Element) (run : Run)
  | growth (rule : String) (minPrec : Int) (left : Match)
  | rule (key : MemoKey)

/-- The matches a task can end with. -/
inductive Yields (s : Session) : Task → Match → Prop
  | lit {value pos m} (h : s.matchLiteral value pos = some m) :
    Yields s (.production (.lit value) pos) m
  | token {name t pos m} (ht : s.grammar.tokens.get? name = some t)
    (h : s.matchToken name t pos = some m) : Yields s (.production (.ref name) pos) m
  | ref {name pos m} (ht : s.grammar.tokens.get? name = none)
    (h : Yields s (.rule ⟨name, pos, 0⟩) m) : Yields s (.production (.ref name) pos) m
  | seq {items pos m} (h : Yields s (.items items (.begin pos)) m) :
    Yields s (.production (.seq items) pos) m
  | choice {members p pos m} (hp : p ∈ members) (h : Yields s (.production p pos) m) :
    Yields s (.production (.choice members) pos) m
  | rep {content least recover pos m}
    (h : Yields s (.rounds content least (recover && s.recover) 0 (.begin pos)) m) :
    Yields s (.production (.rep content least recover) pos) m
  | opt {content pos m} (h : Yields s (.production content pos) m) :
    Yields s (.production (.opt content) pos) m
  | omitted {content pos} : Yields s (.production (.opt content) pos) (.empty pos)
  | blank {pos} : Yields s (.production .blank pos) (.empty pos)
  | field {name content pos m} (h : Yields s (.production content pos) m) :
    Yields s (.production (.field name content) pos) (m.withFields [name])
  | renamed {content kind pos m} (h : Yields s (.production content pos) m) :
    Yields s (.production (.renamed content kind) pos) (m.rename content kind)
  | prec {value content assoc unary pos m} (h : Yields s (.production content pos) m) :
    Yields s (.production (.prec value content assoc unary) pos) m
  | itemsDone {run} : Yields s (.items [] run) run.toMatch
  | itemsNext {p ps run m m'} (h : Yields s (.production p run.cursor) m)
    (h' : Yields s (.items ps (run.push m)) m') : Yields s (.items (p :: ps) run) m'
  | roundsDone {content least recovering run} {count : Nat} (hc : ¬(count : Int) < least) :
    Yields s (.rounds content least recovering count run) run.toMatch
  | round {content least recovering count run m m'}
    (h : Yields s (.production content run.cursor) m) (hm : run.cursor < m.stop)
    (h' : Yields s (.rounds content least recovering (count + 1) (run.take m)) m') :
    Yields s (.rounds content least recovering count run) m'
  | region {content least count run start stop m'}
    (h : s.errorSpan run.cursor = some (start, stop))
    (h' : Yields s (.rounds content least true (count + 1)
      (run.pushError start stop (s.table.expectedFor content))) m') :
    Yields s (.rounds content least true count run) m'
  | selfElement {rule minPrec e pos names m} (he : e.selfFields = some names)
    (h : Yields s (.rule ⟨rule, pos, minPrec⟩) m) :
    Yields s (.element rule minPrec e pos) (m.withFields names)
  | bodyElement {rule minPrec e pos m} (he : e.selfFields = none)
    (h : Yields s (.production e.body pos) m) : Yields s (.element rule minPrec e pos) m
  | elementsDone {rule rightMin run} : Yields s (.elements rule rightMin [] run) run.toMatch
  | elementsNext {rule rightMin e es run m m'}
    (h : Yields s (.element rule (if es.isEmpty then rightMin else 0) e run.cursor) m)
    (h' : Yields s (.elements rule rightMin es (run.push m)) m') :
    Yields s (.elements rule rightMin (e :: es) run) m'
  | grown {rule minPrec left} : Yields s (.growth rule minPrec left) left
  | grow {rule minPrec alts a left right m} (ht : s.table.rules.get? rule = some alts)
    (ha : a ∈ alts.postfixed ∨ a ∈ alts.leftRec) (hr : minPrec ≤ a.rank)
    (h : Yields s (.elements rule a.rightMin (a.elements.drop 1) (.begin left.stop)) right)
    (hs : left.stop < right.stop)
    (h' : Yields s (.growth rule minPrec (extended a left right)) m) :
    Yields s (.growth rule minPrec left) m
  | rule {key alts a seed m} (ht : s.table.rules.get? key.rule = some alts)
    (ha : a ∈ alts.prefixed ∨ a ∈ alts.plain)
    (h : Yields s (.elements key.rule a.rightMin a.elements (.begin key.pos)) seed)
    (h' : Yields s (.growth key.rule key.minPrec (dress a seed)) m) :
    Yields s (.rule key) (m.finish key.rule)

/-- The rules a task can ask for, without those that these ask for in turn. -/
inductive Asks (s : Session) : Task → MemoKey → Prop
  | ref {name pos} (ht : s.grammar.tokens.get? name = none) :
    Asks s (.production (.ref name) pos) ⟨name, pos, 0⟩
  | seq {items pos k} (h : Asks s (.items items (.begin pos)) k) :
    Asks s (.production (.seq items) pos) k
  | choice {members p pos k} (hp : p ∈ members) (h : Asks s (.production p pos) k) :
    Asks s (.production (.choice members) pos) k
  | rep {content least recover pos k}
    (h : Asks s (.rounds content least (recover && s.recover) 0 (.begin pos)) k) :
    Asks s (.production (.rep content least recover) pos) k
  | opt {content pos k} (h : Asks s (.production content pos) k) :
    Asks s (.production (.opt content) pos) k
  | field {name content pos k} (h : Asks s (.production content pos) k) :
    Asks s (.production (.field name content) pos) k
  | renamed {content kind pos k} (h : Asks s (.production content pos) k) :
    Asks s (.production (.renamed content kind) pos) k
  | prec {value content assoc unary pos k} (h : Asks s (.production content pos) k) :
    Asks s (.production (.prec value content assoc unary) pos) k
  | itemsHead {p ps run k} (h : Asks s (.production p run.cursor) k) :
    Asks s (.items (p :: ps) run) k
  | itemsTail {p ps run m k} (hm : s.Yields (.production p run.cursor) m)
    (h : Asks s (.items ps (run.push m)) k) : Asks s (.items (p :: ps) run) k
  | roundsHead {content least recovering count run k}
    (h : Asks s (.production content run.cursor) k) :
    Asks s (.rounds content least recovering count run) k
  | roundsTail {content least recovering count run m k}
    (hm : s.Yields (.production content run.cursor) m) (hs : run.cursor < m.stop)
    (h : Asks s (.rounds content least recovering (count + 1) (run.take m)) k) :
    Asks s (.rounds content least recovering count run) k
  | roundsRegion {content least count run start stop k}
    (hr : s.errorSpan run.cursor = some (start, stop))
    (h : Asks s (.rounds content least true (count + 1)
      (run.pushError start stop (s.table.expectedFor content))) k) :
    Asks s (.rounds content least true count run) k
  | selfElement {rule minPrec e pos names} (he : e.selfFields = some names) :
    Asks s (.element rule minPrec e pos) ⟨rule, pos, minPrec⟩
  | bodyElement {rule minPrec e pos k} (he : e.selfFields = none)
    (h : Asks s (.production e.body pos) k) : Asks s (.element rule minPrec e pos) k
  | elementsHead {rule rightMin e es run k}
    (h : Asks s (.element rule (if es.isEmpty then rightMin else 0) e run.cursor) k) :
    Asks s (.elements rule rightMin (e :: es) run) k
  | elementsTail {rule rightMin e es run m k}
    (hm : s.Yields (.element rule (if es.isEmpty then rightMin else 0) e run.cursor) m)
    (h : Asks s (.elements rule rightMin es (run.push m)) k) :
    Asks s (.elements rule rightMin (e :: es) run) k
  | growthHead {rule minPrec alts a left k} (ht : s.table.rules.get? rule = some alts)
    (ha : a ∈ alts.postfixed ∨ a ∈ alts.leftRec)
    (h : Asks s (.elements rule a.rightMin (a.elements.drop 1) (.begin left.stop)) k) :
    Asks s (.growth rule minPrec left) k
  | growthTail {rule minPrec alts a left right k} (ht : s.table.rules.get? rule = some alts)
    (ha : a ∈ alts.postfixed ∨ a ∈ alts.leftRec)
    (hm : s.Yields (.elements rule a.rightMin (a.elements.drop 1) (.begin left.stop)) right)
    (hs : left.stop < right.stop)
    (h : Asks s (.growth rule minPrec (extended a left right)) k) :
    Asks s (.growth rule minPrec left) k
  | ruleSeed {key alts a k} (ht : s.table.rules.get? key.rule = some alts)
    (ha : a ∈ alts.prefixed ∨ a ∈ alts.plain)
    (h : Asks s (.elements key.rule a.rightMin a.elements (.begin key.pos)) k) :
    Asks s (.rule key) k
  | ruleGrowth {key alts a seed k} (ht : s.table.rules.get? key.rule = some alts)
    (ha : a ∈ alts.prefixed ∨ a ∈ alts.plain)
    (hm : s.Yields (.elements key.rule a.rightMin a.elements (.begin key.pos)) seed)
    (h : Asks s (.growth key.rule key.minPrec (dress a seed)) k) :
    Asks s (.rule key) k

/-! ## Steps of the loops -/

/-- How a repetition gets from one round to the next: by a match of its content that adds text, or
by an error region. -/
def NextRound (s : Session) (content : Production) (recovering : Bool) (run run' : Run) : Prop :=
  (∃ m, s.Yields (.production content run.cursor) m ∧ run.cursor < m.stop ∧ run' = run.take m) ∨
  (recovering = true ∧ ∃ start stop, s.errorSpan run.cursor = some (start, stop) ∧
    run' = run.pushError start stop (s.table.expectedFor content))

theorem NextRound.asks {s : Session} {content : Production} {least : Int} {recovering : Bool}
    {count : Nat} {run run' : Run} {k : MemoKey} (h : s.NextRound content recovering run run')
    (hk : s.Asks (.rounds content least recovering (count + 1) run') k) :
    s.Asks (.rounds content least recovering count run) k := by
  rcases h with ⟨m, hm, hstop, rfl⟩ | ⟨rfl, start, stop, hspan, rfl⟩
  · exact .roundsTail hm hstop hk
  · exact .roundsRegion hspan hk

theorem NextRound.yields {s : Session} {content : Production} {least : Int} {recovering : Bool}
    {count : Nat} {run run' : Run} {m : Match} (h : s.NextRound content recovering run run')
    (hm : s.Yields (.rounds content least recovering (count + 1) run') m) :
    s.Yields (.rounds content least recovering count run) m := by
  rcases h with ⟨m, hm', hstop, rfl⟩ | ⟨rfl, start, stop, hspan, rfl⟩
  · exact .round hm' hstop hm
  · exact .region hspan hm

/-- How a match grows: by an alternative that starts with the rule, has the precedence and adds
text. -/
def NextGrowth (s : Session) (rule : String) (minPrec : Int) (left m : Match) : Prop :=
  ∃ alts a right, s.table.rules.get? rule = some alts ∧ (a ∈ alts.postfixed ∨ a ∈ alts.leftRec) ∧
    minPrec ≤ a.rank ∧
    s.Yields (.elements rule a.rightMin (a.elements.drop 1) (.begin left.stop)) right ∧
    left.stop < right.stop ∧ m = extended a left right

theorem NextGrowth.asks {s : Session} {rule : String} {minPrec : Int} {left m : Match} {k : MemoKey}
    (h : s.NextGrowth rule minPrec left m) (hk : s.Asks (.growth rule minPrec m) k) :
    s.Asks (.growth rule minPrec left) k := by
  obtain ⟨alts, a, right, ht, ha, _, hy, hstop, rfl⟩ := h
  exact .growthTail ht ha hy hstop hk

theorem NextGrowth.yields {s : Session} {rule : String} {minPrec : Int} {left m m' : Match}
    (h : s.NextGrowth rule minPrec left m) (hm : s.Yields (.growth rule minPrec m) m') :
    s.Yields (.growth rule minPrec left) m' := by
  obtain ⟨alts, a, right, ht, ha, hrank, hy, hstop, rfl⟩ := h
  exact .grow ht ha hrank hy hstop hm

/-! ## The engine keeps to its tasks -/

section Coupled

open Engine (Coupled Coupling)

variable {s : Session} {c : Coupling} {call call' : RuleMatcher}

/-- Two ways of asking for rules are coupled on a key, and answer what the rule can yield. -/
def Alike (s : Session) (c : Coupling) (call call' : RuleMatcher) (k : MemoKey) : Prop :=
  Coupled c (call k.rule k.pos k.minPrec) (call' k.rule k.pos k.minPrec)
    fun found => ∀ m ∈ found, s.Yields (.rule k) m

theorem repeatPass_coupled {content : Production} (least : Int) {recovering : Bool}
    {f g : Nat → Engine (Option Match)}
    (hf : ∀ pos, (∀ k, s.Asks (.production content pos) k → s.Alike c call call' k) →
      Coupled c (f pos) (g pos) fun found => ∀ m ∈ found, s.Yields (.production content pos) m)
    (count : Nat) (run : Run)
    (hk : ∀ k, s.Asks (.rounds content least recovering count run) k → s.Alike c call call' k) :
    Coupled c (s.repeatPass recovering (s.table.expectedFor content) f run)
      (s.repeatPass recovering (s.table.expectedFor content) g run)
      fun next => ∀ run' ∈ next, s.NextRound content recovering run run' := by
  unfold repeatPass
  refine Coupled.bind (hf run.cursor fun k h => hk k (.roundsHead h)) ?_
  intro found hfound
  split
  · rename_i m hm
    obtain ⟨rfl, hstop⟩ := Option.filter_eq_some_iff.1 hm
    have hm := hfound m rfl
    have hstop : run.cursor < m.stop := of_decide_eq_true hstop
    refine Coupled.pure ?_
    intro run' hrun'
    cases hrun'
    exact Or.inl ⟨m, hm, hstop, rfl⟩
  · cases recovering with
    | false => exact Coupled.pure nofun
    | true =>
      simp only [if_true]
      split
      · rename_i start stop hspan
        refine Coupled.pure ?_
        intro run' hrun'
        cases hrun'
        exact Or.inr ⟨rfl, start, stop, hspan, rfl⟩
      · exact Coupled.pure nofun

theorem repeatFrom_coupled {content : Production} (least : Int) {recovering : Bool}
    {f g : Nat → Engine (Option Match)}
    (hf : ∀ pos, (∀ k, s.Asks (.production content pos) k → s.Alike c call call' k) →
      Coupled c (f pos) (g pos) fun found => ∀ m ∈ found, s.Yields (.production content pos) m) :
    ∀ n count run,
      (∀ k, s.Asks (.rounds content least recovering count run) k → s.Alike c call call' k) →
      Coupled c (s.repeatFrom recovering (s.table.expectedFor content) f n count run)
        (s.repeatFrom recovering (s.table.expectedFor content) g n count run)
        fun r => ¬(r.2 : Int) < least →
          s.Yields (.rounds content least recovering count run) r.1.toMatch := by
  intro n
  induction n with
  | zero =>
    intro count run _
    exact Coupled.pure fun hc => .roundsDone hc
  | succ n ih =>
    intro count run hk
    simp only [repeatFrom]
    refine Coupled.bind (repeatPass_coupled least hf count run hk) ?_
    intro next hnext
    cases next with
    | none => exact Coupled.pure fun hc => .roundsDone hc
    | some next =>
      have hnext := hnext next rfl
      refine (ih (count + 1) next fun k h => hk k (hnext.asks h)).mono ?_
      intro r hr hc
      exact hnext.yields (hr hc)

mutual

/-- Matching a production with two ways of asking for rules that are alike where it asks. -/
theorem matchProduction_coupled (owner : String) : ∀ (p : Production) (pos : Nat),
    (∀ k, s.Asks (.production p pos) k → s.Alike c call call' k) →
    Coupled c (s.matchProduction call owner p pos) (s.matchProduction call' owner p pos)
      fun found => ∀ m ∈ found, s.Yields (.production p pos) m
  | .lit value, pos, _ => by
    simp only [matchProduction]
    exact Coupled.pure fun m hm => .lit hm
  | .ref name, pos, hk => by
    simp only [matchProduction]
    split
    · rename_i t ht
      exact Coupled.pure fun m hm => .token ht hm
    · rename_i ht
      exact (hk _ (.ref ht)).mono fun found h m hm => .ref ht (h m hm)
  | .seq items, pos, hk => by
    simp only [matchProduction]
    exact (matchItems_coupled owner items (.begin pos) fun k h => hk k (.seq h)).mono
      fun found h m hm => .seq (h m hm)
  | .choice members, pos, hk => by
    simp only [matchProduction]
    refine Coupled.bind (matchMembers_coupled owner members 0 pos fun p hp k h =>
      hk k (.choice hp h)) ?_
    intro found hfound
    refine Coupled.pure ?_
    intro m hm
    obtain ⟨x, hx, rfl⟩ := Candidate.exists_of_best hm
    obtain ⟨p, hp, hy⟩ := hfound x hx
    exact .choice hp hy
  | .rep content least recover, pos, hk => by
    simp only [matchProduction]
    refine Coupled.bind (repeatFrom_coupled least
      (fun pos h => matchProduction_coupled owner content pos h) _ 0 (.begin pos)
      fun k h => hk k (.rep h)) ?_
    intro r hr
    refine Coupled.pure ?_
    intro m hm
    split at hm
    · cases hm
    · rename_i hc
      cases hm
      exact .rep (hr hc)
  | .opt content, pos, hk => by
    simp only [matchProduction]
    refine Coupled.bind (matchProduction_coupled owner content pos fun k h => hk k (.opt h)) ?_
    intro found hfound
    refine Coupled.pure ?_
    intro m hm
    cases hm
    cases found with
    | none => exact .omitted
    | some m => exact .opt (hfound m rfl)
  | .blank, pos, _ => by
    simp only [matchProduction]
    refine Coupled.pure ?_
    intro m hm
    cases hm
    exact .blank
  | .field name content, pos, hk => by
    simp only [matchProduction]
    refine Coupled.bind (matchProduction_coupled owner content pos fun k h => hk k (.field h)) ?_
    intro found hfound
    refine Coupled.pure ?_
    intro m hm
    obtain ⟨m', hm', rfl⟩ := Option.map_eq_some_iff.1 hm
    exact .field (hfound m' hm')
  | .renamed content kind, pos, hk => by
    simp only [matchProduction]
    refine Coupled.bind (matchProduction_coupled owner content pos fun k h => hk k (.renamed h)) ?_
    intro found hfound
    refine Coupled.pure ?_
    intro m hm
    obtain ⟨m', hm', rfl⟩ := Option.map_eq_some_iff.1 hm
    exact .renamed (hfound m' hm')
  | .prec _ content _ _, pos, hk => by
    simp only [matchProduction]
    exact (matchProduction_coupled owner content pos fun k h => hk k (.prec h)).mono
      fun found h m hm => .prec (h m hm)

theorem matchItems_coupled (owner : String) : ∀ (ps : List Production) (run : Run),
    (∀ k, s.Asks (.items ps run) k → s.Alike c call call' k) →
    Coupled c (s.matchItems call owner ps run) (s.matchItems call' owner ps run)
      fun found => ∀ m ∈ found, s.Yields (.items ps run) m
  | [], run, _ => by
    simp only [matchItems]
    refine Coupled.pure ?_
    intro m hm
    cases hm
    exact .itemsDone
  | p :: ps, run, hk => by
    simp only [matchItems]
    refine Coupled.bind
      (matchProduction_coupled owner p run.cursor fun k h => hk k (.itemsHead h)) ?_
    intro found hfound
    cases found with
    | none =>
      refine Coupled.pure ?_
      intro m hm
      cases hm
    | some m =>
      have hm := hfound m rfl
      exact (matchItems_coupled owner ps (run.push m) fun k h => hk k (.itemsTail hm h)).mono
        fun found h m' hm' => .itemsNext hm (h m' hm')

theorem matchMembers_coupled (owner : String) : ∀ (ps : List Production) (index pos : Nat),
    (∀ p ∈ ps, ∀ k, s.Asks (.production p pos) k → s.Alike c call call' k) →
    Coupled c (s.matchMembers call owner ps index pos) (s.matchMembers call' owner ps index pos)
      fun found => ∀ x ∈ found, ∃ p ∈ ps, s.Yields (.production p pos) x.found
  | [], _, _, _ => by
    simp only [matchMembers]
    exact Coupled.pure fun x hx => by cases hx
  | p :: ps, index, pos, hk => by
    simp only [matchMembers]
    refine Coupled.bind (matchProduction_coupled owner p pos (hk p List.mem_cons_self)) ?_
    intro found hfound
    refine Coupled.bind (matchMembers_coupled owner ps (index + 1) pos fun q hq =>
      hk q (List.mem_cons_of_mem _ hq)) ?_
    intro others hothers
    refine Coupled.pure ?_
    have hrest : ∀ x ∈ others, ∃ q ∈ p :: ps, s.Yields (.production q pos) x.found := by
      intro x hx
      obtain ⟨q, hq, hy⟩ := hothers x hx
      exact ⟨q, List.mem_cons_of_mem _ hq, hy⟩
    cases found with
    | none => exact hrest
    | some m =>
      intro x hx
      rcases List.mem_cons.1 hx with rfl | hx
      · exact ⟨p, List.mem_cons_self, hfound m rfl⟩
      · exact hrest x hx

end

/-! ## Alternatives and rules -/

theorem matchElement_coupled (rule : String) (minPrec : Int) (e : Element) (pos : Nat)
    (hk : ∀ k, s.Asks (.element rule minPrec e pos) k → s.Alike c call call' k) :
    Coupled c (s.matchElement call rule minPrec e pos) (s.matchElement call' rule minPrec e pos)
      fun found => ∀ m ∈ found, s.Yields (.element rule minPrec e pos) m := by
  unfold matchElement
  cases he : e.selfFields with
  | some names =>
    refine Coupled.bind (hk _ (.selfElement he)) ?_
    intro found hfound
    refine Coupled.pure ?_
    intro m hm
    obtain ⟨m', hm', rfl⟩ := Option.map_eq_some_iff.1 hm
    exact .selfElement he (hfound m' hm')
  | none =>
    exact (matchProduction_coupled rule e.body pos fun k h => hk k (.bodyElement he h)).mono
      fun found hfound m hm => .bodyElement he (hfound m hm)

theorem matchElements_coupled (rule : String) (rightMin : Int) : ∀ (es : List Element) (run : Run),
    (∀ k, s.Asks (.elements rule rightMin es run) k → s.Alike c call call' k) →
    Coupled c (s.matchElements call rule rightMin es run)
      (s.matchElements call' rule rightMin es run)
      fun found => ∀ m ∈ found, s.Yields (.elements rule rightMin es run) m
  | [], run, _ => by
    simp only [matchElements]
    refine Coupled.pure ?_
    intro m hm
    cases hm
    exact .elementsDone
  | e :: es, run, hk => by
    simp only [matchElements]
    refine Coupled.bind (matchElement_coupled rule _ e run.cursor fun k h =>
      hk k (.elementsHead h)) ?_
    intro found hfound
    cases found with
    | none => exact Coupled.pure fun m hm => by cases hm
    | some m =>
      have hm := hfound m rfl
      exact (matchElements_coupled rule rightMin es (run.push m)
        fun k h => hk k (.elementsTail hm h)).mono fun found h m' hm' => .elementsNext hm (h m' hm')

theorem seeds_coupled (rule : String) (pos : Nat) : ∀ alts : List Alternative,
    (∀ a ∈ alts, ∀ k, s.Asks (.elements rule a.rightMin a.elements (.begin pos)) k →
      s.Alike c call call' k) →
    Coupled c (s.seeds call rule pos alts) (s.seeds call' rule pos alts)
      fun found => ∀ x ∈ found, ∃ a ∈ alts, ∃ seed,
        s.Yields (.elements rule a.rightMin a.elements (.begin pos)) seed ∧ x.found = dress a seed
  | [], _ => by
    simp only [seeds]
    exact Coupled.pure fun x hx => by cases hx
  | a :: alts, hk => by
    simp only [seeds]
    refine Coupled.bind (matchElements_coupled rule a.rightMin a.elements (.begin pos)
      (hk a List.mem_cons_self)) ?_
    intro found hfound
    refine Coupled.bind (seeds_coupled rule pos alts fun b hb =>
      hk b (List.mem_cons_of_mem _ hb)) ?_
    intro others hothers
    refine Coupled.pure ?_
    have hrest : ∀ x ∈ others, ∃ b ∈ a :: alts, ∃ seed,
        s.Yields (.elements rule b.rightMin b.elements (.begin pos)) seed ∧
          x.found = dress b seed := by
      intro x hx
      obtain ⟨b, hb, hy⟩ := hothers x hx
      exact ⟨b, List.mem_cons_of_mem _ hb, hy⟩
    cases found with
    | none => exact hrest
    | some m =>
      intro x hx
      rcases List.mem_cons.1 hx with rfl | hx
      · exact ⟨a, List.mem_cons_self, m, hfound m rfl, rfl⟩
      · exact hrest x hx

theorem growOnce_coupled (rule : String) (minPrec : Int) (left : Match) :
    ∀ alts : List Alternative,
    (∀ a ∈ alts, ∀ k,
      s.Asks (.elements rule a.rightMin (a.elements.drop 1) (.begin left.stop)) k →
      s.Alike c call call' k) →
    Coupled c (s.growOnce call rule minPrec left alts) (s.growOnce call' rule minPrec left alts)
      fun found => ∀ m ∈ found, ∃ a ∈ alts, ∃ right, minPrec ≤ a.rank ∧
        s.Yields (.elements rule a.rightMin (a.elements.drop 1) (.begin left.stop)) right ∧
        left.stop < right.stop ∧ m = extended a left right
  | [], _ => by
    simp only [growOnce]
    exact Coupled.pure fun m hm => by cases hm
  | a :: alts, hk => by
    have hrest : Coupled c (s.growOnce call rule minPrec left alts)
        (s.growOnce call' rule minPrec left alts) fun found => ∀ m ∈ found,
          ∃ b ∈ a :: alts, ∃ right, minPrec ≤ b.rank ∧
          s.Yields (.elements rule b.rightMin (b.elements.drop 1) (.begin left.stop)) right ∧
          left.stop < right.stop ∧ m = extended b left right := by
      refine (growOnce_coupled rule minPrec left alts fun b hb =>
        hk b (List.mem_cons_of_mem _ hb)).mono ?_
      intro found h m hm
      obtain ⟨b, hb, hy⟩ := h m hm
      exact ⟨b, List.mem_cons_of_mem _ hb, hy⟩
    simp only [growOnce]
    split
    · exact hrest
    · rename_i hrank
      refine Coupled.bind (matchElements_coupled rule a.rightMin (a.elements.drop 1)
        (.begin left.stop) (hk a List.mem_cons_self)) ?_
      intro found hfound
      cases found with
      | none => exact hrest
      | some right =>
        simp only
        split
        · rename_i hstop
          refine Coupled.pure ?_
          intro m hm
          cases hm
          exact ⟨a, List.mem_cons_self, right, Int.not_lt.1 hrank, hfound right rfl, hstop, rfl⟩
        · exact hrest

theorem growPass_coupled {rule : String} {minPrec : Int} {alts : RuleAlternatives}
    (ht : s.table.rules.get? rule = some alts) (left : Match)
    (hk : ∀ k, s.Asks (.growth rule minPrec left) k → s.Alike c call call' k) :
    Coupled c (s.growPass call rule minPrec alts left) (s.growPass call' rule minPrec alts left)
      fun found => ∀ m ∈ found, s.NextGrowth rule minPrec left m := by
  unfold growPass
  refine Coupled.bind (growOnce_coupled rule minPrec left alts.postfixed fun a ha k h =>
    hk k (.growthHead ht (Or.inl ha) h)) ?_
  intro found hfound
  cases found with
  | some m =>
    refine Coupled.pure ?_
    intro m' hm'
    cases hm'
    obtain ⟨a, ha, right, hright⟩ := hfound m rfl
    exact ⟨alts, a, right, ht, Or.inl ha, hright⟩
  | none =>
    refine (growOnce_coupled rule minPrec left alts.leftRec fun a ha k h =>
      hk k (.growthHead ht (Or.inr ha) h)).mono ?_
    intro found hfound m hm
    obtain ⟨a, ha, right, hright⟩ := hfound m hm
    exact ⟨alts, a, right, ht, Or.inr ha, hright⟩

theorem grow_coupled {rule : String} {minPrec : Int} {alts : RuleAlternatives}
    (ht : s.table.rules.get? rule = some alts) : ∀ (n : Nat) (left : Match),
    (∀ k, s.Asks (.growth rule minPrec left) k → s.Alike c call call' k) →
    Coupled c (s.grow call rule minPrec alts n left) (s.grow call' rule minPrec alts n left)
      fun m => s.Yields (.growth rule minPrec left) m
  | 0, left, _ => by
    simp only [grow]
    exact Coupled.pure .grown
  | n + 1, left, hk => by
    simp only [grow]
    refine Coupled.bind (growPass_coupled ht left hk) ?_
    intro found hfound
    cases found with
    | none => exact Coupled.pure .grown
    | some m =>
      have hnext := hfound m rfl
      exact (grow_coupled ht n m fun k h => hk k (hnext.asks h)).mono fun _ h => hnext.yields h

/-- Matching the alternatives of a rule with two ways of asking for rules that are alike where the
rule asks. -/
theorem matchAlternatives_coupled {key : MemoKey} {alts : RuleAlternatives}
    (ht : s.table.rules.get? key.rule = some alts)
    (hk : ∀ k, s.Asks (.rule key) k → s.Alike c call call' k) :
    Coupled c (s.matchAlternatives call key.rule alts key.pos key.minPrec)
      (s.matchAlternatives call' key.rule alts key.pos key.minPrec)
      fun found => ∀ m ∈ found, s.Yields (.rule key) (m.finish key.rule) := by
  unfold matchAlternatives
  refine Coupled.bind (seeds_coupled key.rule key.pos (alts.prefixed ++ alts.plain)
    fun a ha k h => hk k (.ruleSeed ht (List.mem_append.1 ha) h)) ?_
  intro found hfound
  split
  · exact Coupled.pure fun m hm => by cases hm
  · rename_i left hleft
    obtain ⟨x, hx, rfl⟩ := Candidate.exists_of_best hleft
    obtain ⟨a, ha, seed, hy, hx'⟩ := hfound x hx
    rw [hx']
    refine Coupled.bind (grow_coupled ht (s.size + 1) (dress a seed) fun k h =>
      hk k (.ruleGrowth ht (List.mem_append.1 ha) hy h)) ?_
    intro grown hgrown
    refine Coupled.pure ?_
    intro m hm
    cases hm
    exact .rule ht (List.mem_append.1 ha) hy hgrown

theorem answer_coupled {key : MemoKey}
    (hk : ∀ k, s.Asks (.rule key) k → s.Alike c call call' k) :
    Coupled c (s.answer call key) (s.answer call' key)
      fun found => ∀ m ∈ found, s.Yields (.rule key) m := by
  unfold answer
  cases ht : s.table.rules.get? key.rule with
  | none => exact Coupled.pure fun m hm => by cases hm
  | some alts =>
    refine Coupled.bind (matchAlternatives_coupled ht hk) ?_
    intro found hfound
    refine Coupled.pure ?_
    intro m hm
    obtain ⟨m', hm', rfl⟩ := Option.map_eq_some_iff.1 hm
    exact hfound m' hm'

end Coupled

end Session

end LayeredGrammar
