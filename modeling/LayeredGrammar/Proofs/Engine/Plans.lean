import LayeredGrammar.Proofs.Engine.Answers
import LayeredGrammar.Proofs.Engine.Faultless

/-!
# Answers that are planned

To find what a rule answers, it is enough to say beforehand what it and the rules it asks for answer,
and how deep each of them nests, and to check one rule at a time: each planned answer is what the
alternatives make of planned answers that nest less deep (`Plan.Works`). Then the engine gives the
planned answers within a limit that is above their depth, whatever it remembers already
(`Session.matchRule_planned`).

Most alternatives of a rule match nothing at a given place because what they need first does not stand
there. `Production.isHopeless` finds them by their first literal or name.
-/

namespace LayeredGrammar

namespace Engine

variable {α β : Type} {good : Memo → Prop}

/-- A computation that gives an answer and keeps the memo good. -/
def Gives (good : Memo → Prop) (x : Engine α) (a : α) : Prop :=
  ∀ μ, good μ → ∃ μ', x μ = .ok a μ' ∧ good μ'

theorem Gives.pure (a : α) : Gives good (pure a) a := fun μ hμ => ⟨μ, rfl, hμ⟩

theorem Gives.bind {x : Engine α} {f : α → Engine β} {a : α} {b : β} (hx : Gives good x a)
    (hf : Gives good (f a) b) : Gives good (x >>= f) b := by
  intro μ hμ
  obtain ⟨μ', hx', hμ'⟩ := hx μ hμ
  rw [bind_apply, hx']
  exact hf μ' hμ'

end Engine

open Engine (Gives)

/-! ## What stands at a place -/

/-- What is known of a place in a text: the literal that stands there, if one does, and names of tokens
and rules that do not match there. -/
structure Outlook where
  literal : Option String
  absent : List String

namespace Production

variable (o : Outlook)

mutual

/-- Whether a production begins with something that does not stand at a place. -/
def isHopeless : Production → Bool
  | .lit value => o.literal != some value
  | .ref name => o.absent.contains name
  | .seq items => isHopelessFirst items
  | .choice members => isHopelessAll members
  | .field _ content | .renamed content _ | .prec _ content _ _ => isHopeless content
  | .rep _ _ _ | .opt _ | .blank => false

/-- Whether the first of several productions begins with something that does not stand there. -/
def isHopelessFirst : List Production → Bool
  | [] => false
  | p :: _ => isHopeless p

/-- Whether each of several productions begins with something that does not stand there. -/
def isHopelessAll : List Production → Bool
  | [] => true
  | p :: ps => isHopeless p && isHopelessAll ps

end

end Production

/-- Whether elements in a row begin with something that does not stand at a place. -/
def Element.areHopeless (o : Outlook) : List Element → Bool
  | [] => false
  | e :: _ => e.selfFields.isNone && e.body.isHopeless o

/-- Whether an alternative that a rule can start with is hopeless at a place. -/
def Alternative.isHopeless (o : Outlook) (a : Alternative) : Bool := Element.areHopeless o a.elements

/-- Whether an alternative that begins with its rule has nothing to add at a place. -/
def Alternative.addsNothing (o : Outlook) (a : Alternative) : Bool :=
  Element.areHopeless o (a.elements.drop 1)

namespace Session

variable {s : Session} {good : Memo → Prop} {call : RuleMatcher} {o : Outlook} {rule owner : String}
variable {pos : Nat}

/-- What is known of the place that comes after the extras at a position. -/
structure Faces (s : Session) (good : Memo → Prop) (call : RuleMatcher) (o : Outlook)
    (pos : Nat) : Prop where
  literal : (s.literalAt (s.skip pos)).map (·.text) = o.literal
  token : ∀ name ∈ o.absent, ∀ t, s.grammar.tokens.get? name = some t →
    s.matchToken name t pos = none
  rule : ∀ name ∈ o.absent, s.grammar.tokens.get? name = none → Gives good (call name pos 0) none

theorem Faces.matchLiteral (h : s.Faces good call o pos) {value : String}
    (hvalue : (o.literal != some value) = true) : s.matchLiteral value pos = none := by
  have hliteral := h.literal
  unfold Session.matchLiteral
  simp only
  cases hl : s.literalAt (s.skip pos) with
  | none => rfl
  | some l =>
    rw [hl] at hliteral
    refine if_neg fun heq => ?_
    rw [← hliteral, Option.map_some, heq, bne_self_eq_false] at hvalue
    cases hvalue

mutual

theorem matchProduction_hopeless (h : s.Faces good call o pos) :
    ∀ p : Production, p.isHopeless o = true → Gives good (s.matchProduction call owner p pos) none
  | .lit value, hp => by
    simp only [Production.isHopeless] at hp
    simp only [matchProduction, h.matchLiteral hp]
    exact .pure none
  | .ref name, hp => by
    simp only [Production.isHopeless, List.contains_iff_mem] at hp
    simp only [matchProduction]
    cases ht : s.grammar.tokens.get? name with
    | some t =>
      simp only [h.token name hp t ht]
      exact .pure none
    | none => exact h.rule name hp ht
  | .seq items, hp => by
    simp only [Production.isHopeless] at hp
    simp only [matchProduction]
    exact matchItems_hopeless h items hp
  | .choice members, hp => by
    simp only [Production.isHopeless] at hp
    simp only [matchProduction]
    refine (matchMembers_hopeless h members hp 0).bind ?_
    rw [Candidate.best_nil]
    exact .pure none
  | .field name content, hp => by
    simp only [Production.isHopeless] at hp
    simp only [matchProduction]
    exact (matchProduction_hopeless h content hp).bind (.pure none)
  | .renamed content kind, hp => by
    simp only [Production.isHopeless] at hp
    simp only [matchProduction]
    exact (matchProduction_hopeless h content hp).bind (.pure none)
  | .prec _ content _ _, hp => by
    simp only [Production.isHopeless] at hp
    simp only [matchProduction]
    exact matchProduction_hopeless h content hp
  | .rep _ _ _, hp | .opt _, hp | .blank, hp => by simp [Production.isHopeless] at hp

theorem matchItems_hopeless (h : s.Faces good call o pos) :
    ∀ ps : List Production, Production.isHopelessFirst o ps = true →
      Gives good (s.matchItems call owner ps (.begin pos)) none
  | [], hps => by simp [Production.isHopelessFirst] at hps
  | p :: ps, hps => by
    simp only [Production.isHopelessFirst] at hps
    simp only [matchItems]
    exact (matchProduction_hopeless h p hps).bind (.pure none)

theorem matchMembers_hopeless (h : s.Faces good call o pos) :
    ∀ ps : List Production, Production.isHopelessAll o ps = true →
      ∀ index, Gives good (s.matchMembers call owner ps index pos) []
  | [], _, index => by
    simp only [matchMembers]
    exact .pure []
  | p :: ps, hps, index => by
    simp only [Production.isHopelessAll, Bool.and_eq_true] at hps
    simp only [matchMembers]
    exact (matchProduction_hopeless h p hps.1).bind
      ((matchMembers_hopeless h ps hps.2 (index + 1)).bind (.pure []))

end

theorem matchElements_hopeless (h : s.Faces good call o pos) {es : List Element}
    (hes : Element.areHopeless o es = true) (rightMin : Int) :
    Gives good (s.matchElements call rule rightMin es (.begin pos)) none := by
  cases es with
  | nil => cases hes
  | cons e es =>
    simp only [Element.areHopeless, Bool.and_eq_true, Option.isNone_iff_eq_none] at hes
    simp only [matchElements, matchElement, hes.1]
    exact (matchProduction_hopeless h e.body hes.2).bind (.pure none)

theorem matchElements_cons {e : Element} {es : List Element} {run : Run} {rightMin : Int} {m : Match}
    {found : Option Match}
    (he : Gives good (s.matchElement call rule (if es.isEmpty then rightMin else 0) e run.cursor)
      (some m))
    (hes : Gives good (s.matchElements call rule rightMin es (run.push m)) found) :
    Gives good (s.matchElements call rule rightMin (e :: es) run) found := by
  simp only [matchElements]
  exact he.bind hes

/-! ## Alternatives -/

/-- A rule starts with nothing where its alternatives are hopeless. -/
theorem seeds_hopeless (h : s.Faces good call o pos) : ∀ {as : List Alternative},
    as.all (·.isHopeless o) = true → Gives good (s.seeds call rule pos as) []
  | [], _ => .pure []
  | a :: as, has => by
    simp only [List.all_cons, Bool.and_eq_true] at has
    simp only [seeds]
    exact (matchElements_hopeless h has.1 a.rightMin).bind
      ((seeds_hopeless h has.2).bind (.pure []))

/-- Where all alternatives but one are hopeless, a rule starts with that one. -/
theorem seeds_single (h : s.Faces good call o pos) {a : Alternative} {m : Match}
    {behind : List Alternative} (hbehind : behind.all (·.isHopeless o) = true)
    (hm : Gives good (s.matchElements call rule a.rightMin a.elements (.begin pos)) (some m)) :
    ∀ {front : List Alternative}, front.all (·.isHopeless o) = true →
      Gives good (s.seeds call rule pos (front ++ a :: behind)) [⟨a.index, a.label, dress a m⟩]
  | [], _ => by
    simp only [List.nil_append, seeds]
    exact hm.bind ((seeds_hopeless h hbehind).bind (.pure _))
  | b :: front, hfront => by
    simp only [List.all_cons, Bool.and_eq_true] at hfront
    simp only [List.cons_append, seeds]
    exact (matchElements_hopeless h hfront.1 b.rightMin).bind
      ((seeds_single h hbehind hm hfront.2).bind (.pure _))

/-- A match does not grow by alternatives that have too low a precedence or nothing to add. -/
theorem growOnce_hopeless {left : Match} (h : s.Faces good call o left.stop) {minPrec : Int} :
    ∀ {as : List Alternative}, (∀ a ∈ as, a.rank < minPrec ∨ a.addsNothing o = true) →
      Gives good (s.growOnce call rule minPrec left as) none
  | [], _ => .pure none
  | a :: as, has => by
    obtain ⟨ha, has⟩ := List.forall_mem_cons.1 has
    have hlater := growOnce_hopeless h has
    simp only [growOnce]
    split
    · exact hlater
    · rename_i hrank
      exact (matchElements_hopeless h (ha.resolve_left hrank) a.rightMin).bind hlater

/-- A match grows by an alternative that matches if the others have nothing to add. -/
theorem growOnce_single {left m : Match} (h : s.Faces good call o left.stop) {minPrec : Int}
    {a : Alternative} (hrank : minPrec ≤ a.rank) (hlonger : left.stop < m.stop)
    (hm : Gives good (s.matchElements call rule a.rightMin (a.elements.drop 1) (.begin left.stop))
      (some m)) :
    ∀ {as : List Alternative}, a ∈ as → (∀ b ∈ as, b = a ∨ b.addsNothing o = true) →
      Gives good (s.growOnce call rule minPrec left as) (some (extended a left m))
  | [], ha, _ => by cases ha
  | b :: as, ha, has => by
    obtain ⟨hb, has⟩ := List.forall_mem_cons.1 has
    simp only [growOnce]
    by_cases heq : b = a
    · subst heq
      rw [if_neg (by omega)]
      refine hm.bind ?_
      simp only [if_pos hlonger]
      exact .pure _
    · have hlater := growOnce_single h hrank hlonger hm
        ((List.mem_cons.1 ha).resolve_left (Ne.symm heq)) has
      split
      · exact hlater
      · exact (matchElements_hopeless h (hb.resolve_left heq) b.rightMin).bind hlater

/-- A match has grown as far as it goes where neither kind of alternative takes it on. -/
theorem grow_done {alts : RuleAlternatives} {minPrec : Int} {left : Match}
    (hpostfixed : Gives good (s.growOnce call rule minPrec left alts.postfixed) none)
    (hleftRec : Gives good (s.growOnce call rule minPrec left alts.leftRec) none) (n : Nat) :
    Gives good (s.grow call rule minPrec alts n left) left := by
  cases n with
  | zero => exact .pure left
  | succ n =>
    simp only [grow]
    exact Gives.bind (hpostfixed.bind hleftRec) (.pure left)

/-- A match goes on growing from what a left-recursive alternative makes of it. -/
theorem grow_step {alts : RuleAlternatives} {minPrec : Int} {left next grown : Match} {n : Nat}
    (hpostfixed : Gives good (s.growOnce call rule minPrec left alts.postfixed) none)
    (hleftRec : Gives good (s.growOnce call rule minPrec left alts.leftRec) (some next))
    (hnext : Gives good (s.grow call rule minPrec alts n next) grown) :
    Gives good (s.grow call rule minPrec alts (n + 1) left) grown := by
  simp only [grow]
  exact Gives.bind (hpostfixed.bind hleftRec) hnext

/-- A choice of one alternative. -/
theorem best_single (registry : ConflictRegistry) (owner : String) (c : Candidate) :
    Candidate.best registry owner [c] = some c.found := by
  obtain ⟨m, hm⟩ := Option.isSome_iff_exists.1 (Candidate.isSome_best registry owner c [])
  obtain ⟨x, hx, rfl⟩ := Candidate.exists_of_best hm
  rw [hm, List.mem_singleton.1 hx]

/-- A rule answers what the only match with which it can start grows to. -/
theorem answer_single {k : MemoKey} {alts : RuleAlternatives} {c : Candidate} {grown : Match}
    (halts : s.table.rules.get? k.rule = some alts)
    (hseeds : Gives good (s.seeds call k.rule k.pos (alts.prefixed ++ alts.plain)) [c])
    (hgrow : Gives good (s.grow call k.rule k.minPrec alts (s.size + 1) c.found) grown) :
    Gives good (s.answer call k) (some (grown.finish k.rule)) := by
  have hgrown : Gives good (s.matchAlternatives call k.rule alts k.pos k.minPrec) (some grown) := by
    refine hseeds.bind ?_
    rw [best_single]
    exact hgrow.bind (.pure _)
  unfold answer
  rw [halts]
  exact hgrown.bind (.pure _)

/-- A rule does not match where its alternatives are hopeless. -/
theorem answer_hopeless {k : MemoKey} (h : s.Faces good call o k.pos)
    (hall : ∀ alts, s.table.rules.get? k.rule = some alts →
      (alts.prefixed ++ alts.plain).all (·.isHopeless o) = true) :
    Gives good (s.answer call k) none := by
  unfold answer
  cases halts : s.table.rules.get? k.rule with
  | none => exact .pure none
  | some alts =>
    have hnone : Gives good (s.matchAlternatives call k.rule alts k.pos k.minPrec) none := by
      refine (seeds_hopeless h (hall alts halts)).bind ?_
      rw [Candidate.best_nil]
      exact .pure none
    exact hnone.bind (.pure none)

end Session

/-! ## Plans -/

/-- What is to be answered for some keys, and how deep each of them nests. -/
structure Plan where
  answers : MemoKey → Option Match → Prop
  depth : MemoKey → Nat

namespace Plan

variable {s : Session} {plan : Plan} {k : MemoKey} {found : Option Match}

/-- The planned answers that nest less deep than those for a key are given. -/
def GivenBelow (plan : Plan) (good : Memo → Prop) (call : RuleMatcher) (k : MemoKey) : Prop :=
  ∀ k' found, plan.answers k' found → plan.depth k' < plan.depth k →
    Gives good (call k'.rule k'.pos k'.minPrec) found

/-- Each planned answer is what the alternatives of its rule make of those that nest less deep. -/
def Works (plan : Plan) (s : Session) : Prop :=
  ∀ k found, plan.answers k found → ∀ good call, plan.GivenBelow good call k →
    Gives good (s.answer call k) found

/-- A memo in which nothing speaks against a plan and only the given keys are marked. -/
def Fair (plan : Plan) (marked : List MemoKey) (μ : Memo) : Prop :=
  (∀ k known, μ[k]? = some (.known known) → ∀ found, plan.answers k found → known = found) ∧
    Session.MarksOnly marked μ

theorem fair_empty : plan.Fair [] {} :=
  ⟨fun k known h => by simp at h, Session.MarksOnly.empty⟩

theorem Fair.insert_active {marked : List MemoKey} {μ : Memo} (h : plan.Fair marked μ)
    (k : MemoKey) : plan.Fair (k :: marked) (μ.insert k .active) := by
  refine ⟨fun j known hj => ?_, h.2.insert_active k⟩
  rw [Memo.getElem?_insert_eq] at hj
  split at hj
  · cases hj
  · exact h.1 j known hj

theorem Fair.insert_known {marked : List MemoKey} {μ : Memo} (h : plan.Fair (k :: marked) μ)
    (hfound : ∀ found', plan.answers k found' → found = found') :
    plan.Fair marked (μ.insert k (.known found)) := by
  refine ⟨fun j known hj => ?_, h.2.insert_known found⟩
  rw [Memo.getElem?_insert_eq] at hj
  split at hj
  · rename_i heq
    cases hj
    exact heq ▸ hfound
  · exact h.1 j known hj

end Plan

/-- **What is planned is answered**, within a limit that is above its depth. The keys that are being
matched nest deeper than the one that is asked for, so none of them is asked for again. -/
theorem Session.matchRule_planned {s : Session} {plan : Plan} (hplan : plan.Works s) :
    ∀ (limit : Nat) (marked : List MemoKey) {k : MemoKey} {found : Option Match},
      plan.answers k found → plan.depth k < limit → (∀ j ∈ marked, plan.depth k < plan.depth j) →
      Gives (plan.Fair marked) (s.matchRule limit k.rule k.pos k.minPrec) found
  | 0, _, _, _, _, hlimit, _ => by omega
  | limit + 1, marked, k, found, hk, hlimit, hmarked => by
    have hbelow : plan.GivenBelow (plan.Fair (k :: marked)) (s.matchRule limit) k := by
      intro k' found' hk' hdepth
      refine Session.matchRule_planned hplan limit (k :: marked) hk' (by omega) ?_
      exact List.forall_mem_cons.2 ⟨hdepth, fun j hj => Nat.lt_trans hdepth (hmarked j hj)⟩
    intro μ hμ
    show ∃ μ', Engine.remembered k (s.matchFresh (s.matchRule limit) k) μ = _ ∧ _
    rw [Engine.remembered_apply]
    cases hentry : μ[k]? with
    | some entry =>
      cases entry with
      | active => exact absurd hentry (hμ.2.not_active hmarked)
      | known known =>
        cases hμ.1 k known hentry found hk
        exact ⟨μ, rfl, hμ⟩
    | none =>
      have hentered := hμ.insert_active k
      obtain ⟨μ', hanswer, hμ'⟩ := hplan k found hk _ _ hbelow _ hentered
      -- the engine answers once, so a key has one planned answer
      have honly : ∀ found', plan.answers k found' → found = found' := by
        intro found' hk'
        obtain ⟨_, hanswer', _⟩ := hplan k found' hk' _ _ hbelow _ hentered
        rw [hanswer] at hanswer'
        cases hanswer'
        rfl
      refine ⟨_, ?_, hμ'.insert_known honly⟩
      simp only
      rw [Session.matchFresh_apply, hanswer]

end LayeredGrammar
