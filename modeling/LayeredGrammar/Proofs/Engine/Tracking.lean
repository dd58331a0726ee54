import LayeredGrammar.Proofs.Engine.Pairing
import LayeredGrammar.Proofs.Grammar.Alternatives

/-!
# Two sessions side by side

If two sessions are paired and two ways of asking for rules track each other on the rules that both
sessions know, then so do the computations of the two sessions: for productions
(`Session.matchProduction_tracks`), for alternatives, for whole rules (`Session.answer_tracks`) and
for whole texts (`Session.parseBy_tracks`).

The second session may have more alternatives for a rule, as long as they are idle: whenever one of
them is tried it does not match, and the memos stay linked.
-/

namespace LayeredGrammar

namespace Pairing

/-- What a pairing asks of one production: references lead to rules that both sessions know, kinds and
labels are among those the pairing is about, and only masks are given to hidden rules. -/
def admitsHere (b : Pairing) (s : Session) : Production → Prop
  | .ref name => s.grammar.tokens.get? name = none → b.scope name
  | .renamed content kind => (b.parents kind ∧ b.renames kind) ∧ ∀ name, content = .ref name →
    s.grammar.tokens.get? name = none → Match.isHidden name = true → b.masks kind
  | .choice members => ∀ p ∈ members, b.label p.label?
  | _ => True

/-- What a pairing asks of a production and everything below it. -/
def Admits (b : Pairing) (s : Session) (p : Production) : Prop := ∀ q ∈ p.walk, b.admitsHere s q

theorem Admits.of_walk {b : Pairing} {s : Session} {p q : Production} (h : b.Admits s p)
    (hq : ∀ r ∈ q.walk, r ∈ p.walk) : b.Admits s q :=
  fun r hr => h r (hq r hr)

/-- What a pairing asks of an alternative of a rule. -/
structure AdmitsAlternative (b : Pairing) (s : Session) (a : Alternative) : Prop where
  elements : ∀ e ∈ a.elements, b.Admits s e.body
  kind : ∀ kind, a.kind = some kind → b.parents kind
  label : b.label a.label

end Pairing

namespace Session

open Engine (Tracks)

variable {s s' : Session} {b : Pairing} {link : Memo → Memo → Prop} {call call' : RuleMatcher}

/-- Two ways of asking for rules track each other on the rules that both sessions know, at the
positions they come to. -/
def CallsTrack (b : Pairing) (link : Memo → Memo → Prop) (call call' : RuleMatcher) : Prop :=
  ∀ rule pos minPrec, b.scope rule → b.reached pos →
    Tracks link (call rule pos minPrec) (call' rule pos minPrec) (Option.Rel (b.Answers rule))

/-- Answers to a request for a rule are corresponding matches. -/
theorem CallsTrack.matches (hcall : CallsTrack b link call call') {rule : String} {pos : Nat}
    (minPrec : Int) (hrule : b.scope rule) (hpos : b.reached pos) :
    Tracks link (call rule pos minPrec) (call' rule pos minPrec) (Option.Rel b.Matches) :=
  (hcall rule pos minPrec hrule hpos).weaken fun _ _ h => h.toMatches

/-! ## Repetition -/

/-- An error region is looked for on both sides. -/
theorem errorSpan_tracks (hb : b.Lawful s s') (recovering : Bool) (content : Production)
    {run run' : Run} (hr : b.Runs run run') :
    Tracks link
      (match if recovering then s.errorSpan run.cursor else none with
        | some (start, stop) => pure (some (run.pushError start stop (s.table.expectedFor content)))
        | none => pure none)
      (match if recovering then s.errorSpan run.cursor else none with
        | some (start, stop) =>
          pure (some (run'.pushError start stop (s'.table.expectedFor content)))
        | none => pure none) (Option.Rel b.Runs) := by
  split
  · rename_i start stop hspan
    have hregion : s.errorSpan run.cursor = some (start, stop) := by
      split at hspan
      · exact hspan
      · cases hspan
    exact Tracks.pure (.some (hr.pushError (hb.error start stop content)
      (hb.confined.errorSpan hr.reached hregion)))
  · exact Tracks.pure .none

theorem repeatPass_tracks (hb : b.Lawful s s') (recovering : Bool) (content : Production)
    {f g : Nat → Engine (Option Match)}
    (hf : ∀ pos, b.reached pos → Tracks link (f pos) (g pos) (Option.Rel b.Matches))
    {run run' : Run} (hr : b.Runs run run') :
    Tracks link (s.repeatPass recovering (s.table.expectedFor content) f run)
      (s'.repeatPass recovering (s'.table.expectedFor content) g run') (Option.Rel b.Runs) := by
  unfold repeatPass
  rw [← hr.cursor, ← hb.errorSpan run.cursor hr.reached]
  refine Tracks.bind (hf run.cursor hr.reached) ?_
  intro found found' hfound
  cases hfound with
  | none => exact errorSpan_tracks hb recovering content hr
  | @some m m' hm =>
    simp only [Option.filter_some, ← hm.stop]
    by_cases hlt : run.cursor < m.stop
    · simp only [hlt, decide_true, if_true]
      exact Tracks.pure (.some (hr.take hm))
    · simp only [hlt, decide_false, Bool.false_eq_true, if_false]
      exact errorSpan_tracks hb recovering content hr

theorem repeatFrom_tracks (hb : b.Lawful s s') (recovering : Bool) (content : Production)
    {f g : Nat → Engine (Option Match)}
    (hf : ∀ pos, b.reached pos → Tracks link (f pos) (g pos) (Option.Rel b.Matches)) :
    ∀ (n count : Nat) {run run' : Run}, b.Runs run run' →
      Tracks link (s.repeatFrom recovering (s.table.expectedFor content) f n count run)
        (s'.repeatFrom recovering (s'.table.expectedFor content) g n count run')
        fun r r' => b.Runs r.1 r'.1 ∧ r.2 = r'.2 := by
  intro n
  induction n with
  | zero => exact fun count _ _ hr => Tracks.pure ⟨hr, rfl⟩
  | succ n ih =>
    intro count run run' hr
    simp only [repeatFrom]
    refine Tracks.bind (repeatPass_tracks hb recovering content hf hr) ?_
    intro next next' hnext
    cases hnext with
    | none => exact Tracks.pure ⟨hr, rfl⟩
    | some hnext => exact ih (count + 1) hnext

/-! ## Productions -/

/-- Matching a reference: unless it is one to a hidden rule, the same is expected at the nodes. -/
theorem matchReference_tracks (hb : b.Lawful s s') (hcall : CallsTrack b link call call')
    (owner : String) {name : String} {pos : Nat}
    (hname : s.grammar.tokens.get? name = none → b.scope name) (hpos : b.reached pos) :
    Tracks link (s.matchProduction call owner (.ref name) pos)
      (s'.matchProduction call' owner (.ref name) pos)
      (Option.Rel fun m m' => b.Matches m m' ∧
        (s.grammar.tokens.get? name = none ∧ Match.isHidden name = true ∨
          m.expected = m'.expected)) := by
  simp only [matchProduction]
  rw [← hb.tokens]
  split
  · rename_i t htoken
    exact (Tracks.pure (hb.matches_token htoken hpos)).weaken fun m m' h => ⟨h.1, Or.inr h.2⟩
  · rename_i htoken
    refine (hcall name pos 0 (hname htoken) hpos).weaken fun m m' h => ?_
    refine ⟨h.toMatches, ?_⟩
    cases hhidden : Match.isHidden name with
    | true => exact Or.inl ⟨htoken, rfl⟩
    | false => exact Or.inr (h.expected hhidden)

mutual

/-- Matching a production in two sessions that are paired. -/
theorem matchProduction_tracks (hb : b.Lawful s s') (hcall : CallsTrack b link call call')
    (owner : String) : ∀ (p : Production) (pos : Nat), b.Admits s p → b.reached pos →
    Tracks link (s.matchProduction call owner p pos) (s'.matchProduction call' owner p pos)
      (Option.Rel b.Matches)
  | .lit value, pos, _, hpos => by
    simp only [matchProduction]
    exact Tracks.pure (hb.matches_literal hpos)
  | .ref _, _, hp, hpos =>
    (matchReference_tracks hb hcall owner (hp _ List.mem_cons_self) hpos).weaken fun _ _ h => h.1
  | .seq items, pos, hp, hpos => by
    simp only [matchProduction]
    refine matchItems_tracks hb hcall owner items (fun p hmem => hp.of_walk fun r hr => ?_)
      (Pairing.runs_begin hpos)
    exact List.mem_cons_of_mem _ (Production.mem_walkAll.2 ⟨p, hmem, hr⟩)
  | .choice members, pos, hp, hpos => by
    simp only [matchProduction]
    refine Tracks.bind (matchMembers_tracks hb hcall owner members 0 (hp _ List.mem_cons_self)
      (fun p hmem => hp.of_walk fun r hr => ?_) hpos) ?_
    · exact List.mem_cons_of_mem _ (Production.mem_walkAll.2 ⟨p, hmem, hr⟩)
    · intro found found' hfound
      exact Tracks.pure (hb.best owner hfound)
  | .rep content least recover, pos, hp, hpos => by
    have hcontent := fun pos => matchProduction_tracks hb hcall owner content pos
      (hp.of_walk fun r => List.mem_cons_of_mem _)
    simp only [matchProduction]
    rw [← hb.recover, ← hb.size]
    refine Tracks.bind (repeatFrom_tracks hb _ content hcontent _ 0 (Pairing.runs_begin hpos)) ?_
    rintro ⟨run, count⟩ ⟨run', count'⟩ ⟨hr, rfl⟩
    refine Tracks.pure ?_
    split
    · exact .none
    · exact .some hr.toMatch
  | .opt content, pos, hp, hpos => by
    simp only [matchProduction]
    refine Tracks.bind (matchProduction_tracks hb hcall owner content pos
      (hp.of_walk fun r => List.mem_cons_of_mem _) hpos) ?_
    intro found found' hfound
    cases hfound with
    | none => exact Tracks.pure (.some (Pairing.matches_empty hpos))
    | some h => exact Tracks.pure (.some h)
  | .blank, pos, _, hpos => by
    simp only [matchProduction]
    exact Tracks.pure (.some (Pairing.matches_empty hpos))
  | .field name content, pos, hp, hpos => by
    simp only [matchProduction]
    refine Tracks.bind (matchProduction_tracks hb hcall owner content pos
      (hp.of_walk fun r => List.mem_cons_of_mem _) hpos) ?_
    intro found found' hfound
    exact Tracks.pure (optionRel_map hfound fun _ _ h => h.withFields [name])
  | .renamed content kind, pos, hp, hpos => by
    simp only [matchProduction]
    obtain ⟨⟨hover, hrenames⟩, hmasks⟩ := hp _ List.mem_cons_self
    have hcontent := hp.of_walk fun r => List.mem_cons_of_mem _
    have hmatched := matchProduction_tracks hb hcall owner content pos hcontent hpos
    have htracks : Tracks link (s.matchProduction call owner content pos)
        (s'.matchProduction call' owner content pos) (Option.Rel fun m m' => b.Matches m m' ∧
          (content.refName?.isSome = true → b.masks kind ∨ m.expected = m'.expected)) := by
      cases content with
      | ref name =>
        refine (matchReference_tracks hb hcall owner (hcontent _ List.mem_cons_self) hpos).weaken
          fun m m' h => ⟨h.1, fun _ => h.2.imp_left fun hhidden => ?_⟩
        exact hmasks name rfl hhidden.1 hhidden.2
      | _ => exact hmatched.weaken fun _ _ h => ⟨h, nofun⟩
    refine Tracks.bind htracks ?_
    intro found found' hfound
    exact Tracks.pure (optionRel_map hfound fun _ _ h => hb.matches_rename h.1 hover hrenames h.2)
  | .prec _ content _ _, pos, hp, hpos => by
    simp only [matchProduction]
    exact matchProduction_tracks hb hcall owner content pos
      (hp.of_walk fun r => List.mem_cons_of_mem _) hpos

theorem matchItems_tracks (hb : b.Lawful s s') (hcall : CallsTrack b link call call')
    (owner : String) : ∀ (ps : List Production) {run run' : Run},
    (∀ p ∈ ps, b.Admits s p) → b.Runs run run' →
    Tracks link (s.matchItems call owner ps run) (s'.matchItems call' owner ps run')
      (Option.Rel b.Matches)
  | [], run, run', _, hr => by
    simp only [matchItems]
    exact Tracks.pure (.some hr.toMatch)
  | p :: ps, run, run', hp, hr => by
    obtain ⟨hp, hps⟩ := List.forall_mem_cons.1 hp
    simp only [matchItems]
    rw [← hr.cursor]
    refine Tracks.bind (matchProduction_tracks hb hcall owner p run.cursor hp hr.reached) ?_
    intro found found' hfound
    cases hfound with
    | none => exact Tracks.pure .none
    | some h => exact matchItems_tracks hb hcall owner ps hps (hr.push h)

theorem matchMembers_tracks (hb : b.Lawful s s') (hcall : CallsTrack b link call call')
    (owner : String) : ∀ (ps : List Production) (index : Nat) {pos : Nat},
    (∀ p ∈ ps, b.label p.label?) → (∀ p ∈ ps, b.Admits s p) → b.reached pos →
    Tracks link (s.matchMembers call owner ps index pos) (s'.matchMembers call' owner ps index pos)
      (List.Forall₂ b.Candidates)
  | [], _, _, _, _, _ => by
    simp only [matchMembers]
    exact Tracks.pure .nil
  | p :: ps, index, pos, hlabel, hp, hpos => by
    obtain ⟨hl, hls⟩ := List.forall_mem_cons.1 hlabel
    obtain ⟨hp, hps⟩ := List.forall_mem_cons.1 hp
    simp only [matchMembers]
    refine Tracks.bind (matchProduction_tracks hb hcall owner p pos hp hpos) ?_
    intro found found' hfound
    refine Tracks.bind (matchMembers_tracks hb hcall owner ps (index + 1) hls hps hpos) ?_
    intro others others' hothers
    cases hfound with
    | none => exact Tracks.pure hothers
    | some h => exact Tracks.pure (.cons ⟨rfl, rfl, h, hl⟩ hothers)

end

/-! ## Alternatives -/

theorem matchElement_tracks (hb : b.Lawful s s') (hcall : CallsTrack b link call call')
    {rule : String} (hrule : b.scope rule) (minPrec : Int) (e : Element) {pos : Nat}
    (he : b.Admits s e.body) (hpos : b.reached pos) :
    Tracks link (s.matchElement call rule minPrec e pos) (s'.matchElement call' rule minPrec e pos)
      (Option.Rel b.Matches) := by
  unfold matchElement
  split
  · rename_i names _
    refine Tracks.bind (hcall.matches minPrec hrule hpos) ?_
    intro found found' hfound
    exact Tracks.pure (optionRel_map hfound fun _ _ h => h.withFields names)
  · exact matchProduction_tracks hb hcall rule e.body pos he hpos

theorem matchElements_tracks (hb : b.Lawful s s') (hcall : CallsTrack b link call call')
    {rule : String} (hrule : b.scope rule) (rightMin : Int) :
    ∀ (es : List Element) {run run' : Run}, (∀ e ∈ es, b.Admits s e.body) → b.Runs run run' →
    Tracks link (s.matchElements call rule rightMin es run)
      (s'.matchElements call' rule rightMin es run') (Option.Rel b.Matches)
  | [], run, run', _, hr => by
    simp only [matchElements]
    exact Tracks.pure (.some hr.toMatch)
  | e :: es, run, run', he, hr => by
    obtain ⟨he, hes⟩ := List.forall_mem_cons.1 he
    simp only [matchElements]
    rw [← hr.cursor]
    refine Tracks.bind (matchElement_tracks hb hcall hrule _ e he hr.reached) ?_
    intro found found' hfound
    cases hfound with
    | none => exact Tracks.pure .none
    | some h => exact matchElements_tracks hb hcall hrule rightMin es hes (hr.push h)

theorem growOnce_tracks (hb : b.Lawful s s') (hcall : CallsTrack b link call call')
    {rule : String} (hrule : b.scope rule) (minPrec : Int) {left left' : Match}
    (hl : b.Matches left left') : ∀ alts : List Alternative,
    (∀ a ∈ alts, b.AdmitsAlternative s a) →
    Tracks link (s.growOnce call rule minPrec left alts) (s'.growOnce call' rule minPrec left' alts)
      (Option.Rel b.Matches)
  | [], _ => by
    simp only [growOnce]
    exact Tracks.pure .none
  | a :: alts, ha => by
    obtain ⟨ha, halts⟩ := List.forall_mem_cons.1 ha
    have hrest := growOnce_tracks hb hcall hrule minPrec hl alts halts
    simp only [growOnce]
    split
    · exact hrest
    · rw [← hl.stop]
      refine Tracks.bind (matchElements_tracks hb hcall hrule a.rightMin (a.elements.drop 1)
        (fun e he => ha.elements e (List.mem_of_mem_drop he)) (Pairing.runs_begin hl.reached)) ?_
      intro found found' hfound
      cases hfound with
      | none => exact hrest
      | some h =>
        simp only [← h.stop]
        split
        · exact Tracks.pure (.some (hb.extended hl h ha.kind))
        · exact hrest

theorem growPass_tracks (hb : b.Lawful s s') (hcall : CallsTrack b link call call')
    {rule : String} (hrule : b.scope rule) (minPrec : Int) {alts alts' : RuleAlternatives}
    (hpost : alts'.postfixed = alts.postfixed) (hleft : alts'.leftRec = alts.leftRec)
    (ha : ∀ a ∈ alts.postfixed ++ alts.leftRec, b.AdmitsAlternative s a) {left left' : Match}
    (hl : b.Matches left left') :
    Tracks link (s.growPass call rule minPrec alts left)
      (s'.growPass call' rule minPrec alts' left') (Option.Rel b.Matches) := by
  obtain ⟨hapost, haleft⟩ := List.forall_mem_append.1 ha
  unfold growPass
  rw [hpost, hleft]
  refine Tracks.bind (growOnce_tracks hb hcall hrule minPrec hl alts.postfixed hapost) ?_
  intro found found' hfound
  cases hfound with
  | none => exact growOnce_tracks hb hcall hrule minPrec hl alts.leftRec haleft
  | some h => exact Tracks.pure (.some h)

theorem grow_tracks (hb : b.Lawful s s') (hcall : CallsTrack b link call call')
    {rule : String} (hrule : b.scope rule) (minPrec : Int) {alts alts' : RuleAlternatives}
    (hpost : alts'.postfixed = alts.postfixed) (hleft : alts'.leftRec = alts.leftRec)
    (ha : ∀ a ∈ alts.postfixed ++ alts.leftRec, b.AdmitsAlternative s a) :
    ∀ (n : Nat) {left left' : Match}, b.Matches left left' →
    Tracks link (s.grow call rule minPrec alts n left) (s'.grow call' rule minPrec alts' n left')
      b.Matches
  | 0, left, left', hl => by
    simp only [grow]
    exact Tracks.pure hl
  | n + 1, left, left', hl => by
    simp only [grow]
    refine Tracks.bind (growPass_tracks hb hcall hrule minPrec hpost hleft ha hl) ?_
    intro found found' hfound
    cases hfound with
    | none => exact Tracks.pure hl
    | some h => exact grow_tracks hb hcall hrule minPrec hpost hleft ha n h

/-! ## Rules -/

/-- An alternative that does not match at a position, and leaves the memos linked. -/
def Idle (s' : Session) (link : Memo → Memo → Prop) (call' : RuleMatcher) (rule : String)
    (pos : Nat) (a : Alternative) : Prop :=
  Tracks link (pure ()) (s'.matchElements call' rule a.rightMin a.elements (.begin pos))
    fun _ found => found = none

/-- Idle alternatives leave no candidates. -/
theorem seeds_idle {rule : String} (pos : Nat) : ∀ alts : List Alternative,
    (∀ a ∈ alts, s'.Idle link call' rule pos a) →
    Tracks link (pure ()) (s'.seeds call' rule pos alts) fun _ found => found = []
  | [], _ => by
    simp only [seeds]
    exact Tracks.pure rfl
  | a :: alts, ha => by
    obtain ⟨ha, halts⟩ := List.forall_mem_cons.1 ha
    have hrest := seeds_idle pos alts halts
    simp only [seeds]
    intro μ ν hlink _ found μ' ν' hμ hν
    obtain ⟨first, ν₁, hfirst, hν⟩ := Engine.bind_eq_ok hν
    obtain ⟨hlink, rfl⟩ := ha μ ν hlink () first μ' ν₁ hμ hfirst
    obtain ⟨others, ν₂, hothers, hν⟩ := Engine.bind_eq_ok hν
    obtain ⟨hlink, rfl⟩ := hrest μ' ν₁ hlink () others μ' ν₂ rfl hothers
    cases hν
    exact ⟨hlink, rfl⟩

/-- The seeds of a rule in two sessions, of which the second may have idle alternatives more. -/
theorem seeds_tracks (hb : b.Lawful s s') (hcall : CallsTrack b link call call') {rule : String}
    (hrule : b.scope rule) {pos : Nat} (hpos : b.reached pos) {extra : List Alternative}
    (hidle : ∀ a ∈ extra, s'.Idle link call' rule pos a) : ∀ alts : List Alternative,
    (∀ a ∈ alts, b.AdmitsAlternative s a) →
    Tracks link (s.seeds call rule pos alts) (s'.seeds call' rule pos (alts ++ extra))
      (List.Forall₂ b.Candidates)
  | [], _ => by
    intro μ ν hlink found found' μ' ν' hμ hν
    cases hμ
    obtain ⟨hlink, rfl⟩ := seeds_idle pos extra hidle μ ν hlink () found' μ ν' rfl hν
    exact ⟨hlink, .nil⟩
  | a :: alts, ha => by
    obtain ⟨ha, halts⟩ := List.forall_mem_cons.1 ha
    simp only [List.cons_append, seeds]
    refine Tracks.bind (matchElements_tracks hb hcall hrule a.rightMin a.elements ha.elements
      (Pairing.runs_begin hpos)) ?_
    intro found found' hfound
    refine Tracks.bind (seeds_tracks hb hcall hrule hpos hidle alts halts) ?_
    intro others others' hothers
    cases hfound with
    | none => exact Tracks.pure hothers
    | some h => exact Tracks.pure (.cons ⟨rfl, rfl, hb.dress h ha.kind, ha.label⟩ hothers)

/-- How two sessions differ in the alternatives of a rule: the second one has those of the first,
which the pairing admits, and more, which have the property `extra`. -/
structure Widened (b : Pairing) (s s' : Session) (extra : Alternative → Prop) (rule : String) :
    Prop where
  table : ∃ alts more, s.table.rules.get? rule = some alts ∧
    s'.table.rules.get? rule = some { alts with plain := alts.plain ++ more } ∧
    (∀ a ∈ more, extra a) ∧
    (∀ a ∈ alts.prefixed ++ alts.plain, b.AdmitsAlternative s a) ∧
    ∀ a ∈ alts.postfixed ++ alts.leftRec, b.AdmitsAlternative s a
  parents : Match.isHidden rule = false → b.parents rule

theorem matchAlternatives_tracks (hb : b.Lawful s s') (hcall : CallsTrack b link call call')
    {rule : String} (hrule : b.scope rule) {pos : Nat} (hpos : b.reached pos) (minPrec : Int)
    {alts alts' : RuleAlternatives} {more : List Alternative}
    (halts' : alts' = { alts with plain := alts.plain ++ more })
    (hidle : ∀ a ∈ more, s'.Idle link call' rule pos a)
    (hseeds : ∀ a ∈ alts.prefixed ++ alts.plain, b.AdmitsAlternative s a)
    (hgrowing : ∀ a ∈ alts.postfixed ++ alts.leftRec, b.AdmitsAlternative s a) :
    Tracks link (s.matchAlternatives call rule alts pos minPrec)
      (s'.matchAlternatives call' rule alts' pos minPrec) (Option.Rel b.Matches) := by
  have hmore : alts'.prefixed ++ alts'.plain = (alts.prefixed ++ alts.plain) ++ more := by
    rw [halts', List.append_assoc]
  unfold matchAlternatives
  rw [hmore, ← hb.size]
  refine Tracks.bind (seeds_tracks hb hcall hrule hpos hidle _ hseeds) ?_
  intro found found' hfound
  have hbest := hb.best rule hfound
  generalize Candidate.best s.grammar.conflicts rule found = left at hbest ⊢
  generalize Candidate.best s'.grammar.conflicts rule found' = left' at hbest ⊢
  cases hbest with
  | none => exact Tracks.pure .none
  | some hleft =>
    refine Tracks.bind (grow_tracks hb hcall hrule minPrec (congrArg (·.postfixed) halts')
      (congrArg (·.leftRec) halts') hgrowing _ hleft) ?_
    intro grown grown' hgrown
    exact Tracks.pure (.some hgrown)

/-- **Answers of two sessions that are paired**, for a rule that both know. -/
theorem answer_tracks (hb : b.Lawful s s') (hcall : CallsTrack b link call call') {key : MemoKey}
    (hrule : b.scope key.rule) (hpos : b.reached key.pos) {extra : Alternative → Prop}
    (h : Widened b s s' extra key.rule)
    (hidle : ∀ alts', s'.table.rules.get? key.rule = some alts' → ∀ a ∈ alts'.plain, extra a →
      s'.Idle link call' key.rule key.pos a) :
    Tracks link (s.answer call key) (s'.answer call' key) (Option.Rel (b.Answers key.rule)) := by
  obtain ⟨⟨alts, more, ht, ht', hmore, hseeds, hgrowing⟩, hover⟩ := h
  unfold answer
  rw [ht, ht']
  refine Tracks.bind (matchAlternatives_tracks hb hcall hrule hpos key.minPrec rfl
    (fun a ha => hidle _ ht' a (List.mem_append_right _ ha) (hmore a ha)) hseeds hgrowing) ?_
  intro found found' hfound
  exact Tracks.pure (optionRel_map hfound fun _ _ hm => hb.finish hm hover)

/-! ## Whole texts -/

theorem zipIdx_forall₂ {α β : Type} {rel : α → β → Prop} {xs : List α} {ys : List β}
    (h : List.Forall₂ rel xs ys) : ∀ k, List.Forall₂ (fun x y => rel x.1 y.1 ∧ x.2 = y.2)
      (xs.zipIdx k) (ys.zipIdx k) := by
  induction h with
  | nil => exact fun _ => .nil
  | cons hxy _ ih =>
    intro k
    rw [List.zipIdx_cons, List.zipIdx_cons]
    exact .cons ⟨hxy, rfl⟩ (ih (k + 1))

theorem rootItems_pairs (hb : b.Lawful s s') (start : String) {m m' : Match}
    (h : b.Matches m m') : List.Forall₂ b.item (rootItems start m) (rootItems start m') := by
  refine List.rel_flatMap h.items ?_
  rintro ⟨node, names⟩ ⟨node', names'⟩ ⟨hnode, hnames⟩
  show List.Forall₂ b.item
    (if node.kind = start then node.children.zipIdx.map fun x => (x.1, node.fieldNamesOf x.2)
      else [(node, names)])
    (if node'.kind = start then node'.children.zipIdx.map fun x => (x.1, node'.fieldNamesOf x.2)
      else [(node', names')])
  rw [← hb.kind node node' hnode]
  split
  · rw [List.forall₂_map_left_iff, List.forall₂_map_right_iff]
    refine (zipIdx_forall₂ (hb.children node node' hnode) 0).imp ?_
    rintro ⟨c, i⟩ ⟨c', i'⟩ ⟨hc, hi⟩
    refine ⟨hc, ?_⟩
    show node.fieldNamesOf i = node'.fieldNamesOf i'
    unfold Node.fieldNamesOf
    rw [hb.fields node node' hnode, show i = i' from hi]
  · exact .cons ⟨hnode, hnames⟩ .nil

theorem parsePass_tracks (hb : b.Lawful s s') (hcall : CallsTrack b link call call')
    (hstart : b.scope s.grammar.start) {pos : Nat} (hpos : b.reached pos)
    {items items' : List Item} (h : List.Forall₂ b.item items items') :
    Tracks link (s.parsePass call pos items) (s'.parsePass call' pos items')
      fun x y => List.Forall₂ b.item x.1 y.1 ∧ x.2 = y.2 ∧ ∀ next ∈ x.2, b.reached next := by
  unfold parsePass
  rw [← hb.start, ← hb.size, ← hb.recover]
  refine Tracks.bind (hcall.matches 0 hstart hpos) ?_
  intro found found' hfound
  have hread : List.Forall₂ b.item (readOn s.grammar.start items pos found).1
      (readOn s.grammar.start items' pos found').1 ∧
      (readOn s.grammar.start items pos found).2 = (readOn s.grammar.start items' pos found').2 ∧
      b.reached (readOn s.grammar.start items pos found).2 := by
    cases hfound with
    | none => exact ⟨h, rfl, hpos⟩
    | @some m m' hm =>
      refine ⟨List.rel_append (List.rel_reverse (rootItems_pairs hb _ hm)) h, ?_, ?_⟩
      · show max pos m.stop = max pos m'.stop
        rw [hm.stop]
      · show b.reached (max pos m.stop)
        rcases Nat.le_total pos m.stop with hle | hle
        · rw [Nat.max_eq_right hle]
          exact hm.reached
        · rw [Nat.max_eq_left hle]
          exact hpos
  obtain ⟨hitems, hsame, hreached⟩ := hread
  simp only [← hsame, ← hb.skip, ← hb.rawTokenEnd _ hreached]
  split
  · exact Tracks.pure ⟨hitems, rfl, nofun⟩
  · rename_i hlt
    split
    · refine Tracks.pure ⟨.cons ⟨hb.rootError _ _, rfl⟩ hitems, rfl, ?_⟩
      intro next hnext
      cases hnext
      exact hb.confined.rawToken hreached (Nat.not_le.1 hlt)
    · exact Tracks.pure ⟨.cons ⟨hb.rootError _ _, rfl⟩ hitems, rfl, nofun⟩

theorem parseFrom_tracks (hb : b.Lawful s s') (hcall : CallsTrack b link call call')
    (hstart : b.scope s.grammar.start) : ∀ (n : Nat) {pos : Nat} {items items' : List Item},
    b.reached pos → List.Forall₂ b.item items items' →
    Tracks link (s.parseFrom call n pos items) (s'.parseFrom call' n pos items')
      (List.Forall₂ b.item)
  | 0, _, _, _, _, h => by
    simp only [parseFrom]
    exact Tracks.pure h
  | n + 1, pos, items, items', hpos, h => by
    simp only [parseFrom]
    refine Tracks.bind (parsePass_tracks hb hcall hstart hpos h) ?_
    rintro ⟨read, next⟩ ⟨read', next'⟩ ⟨hread, hnext, hreached⟩
    cases hnext
    cases next with
    | none => exact Tracks.pure hread
    | some next => exact parseFrom_tracks hb hcall hstart n (hreached next rfl) hread

/-- **Trees of two sessions that are paired.** -/
theorem parseBy_tracks (hb : b.Lawful s s') (hcall : CallsTrack b link call call')
    (hstart : b.scope s.grammar.start) (hover : b.parents s.grammar.start) :
    Tracks link (s.parseBy call) (s'.parseBy call') b.node := by
  unfold parseBy
  rw [← hb.size, ← hb.start]
  refine Tracks.bind (parseFrom_tracks hb hcall hstart _ hb.confined.origin .nil) ?_
  intro items items' h
  exact Tracks.pure (hb.ofItems _ _ _ _ _ hover (List.rel_reverse h))

end Session

end LayeredGrammar
