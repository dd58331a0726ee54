import LayeredGrammar.Proofs.Engine.Leaves
import LayeredGrammar.Proofs.Engine.Requests
import LayeredGrammar.Proofs.Grammar.Derivation
import Mathlib.Data.List.Forall2

/-!
# The engine is sound for its grammar

A match without errors is a reading of its text: the production derives a string of symbols that the
leaves of the match spell, one leaf for each symbol (`Session.derives_of_found`). That holds for
every grammar that builds and whatever the session was asked for before.

The invariant of the induction says this of whole matches. For matches in a row it says it of what
is still to come, and for a match that grows it carries the derivation of the rule so far: the text
on the right is added to a derivation of the rule itself, so that left recursion unfolds from the
inside out although the engine meets it from the outside.
-/

namespace LayeredGrammar

namespace Session

variable {s : Session}

/-- The text between two positions is a symbol. -/
def Spells (s : Session) : Symbol → Nat × Nat → Prop
  | .literal value, (start, stop) => s.slice start stop = value
  | .token name, (start, stop) => ∃ t, s.grammar.tokens.get? name = some t ∧
      t.matchAt s.text start = some stop ∧
      (s.grammar.word = some name → s.slice start stop ∉ s.grammar.reserved)

/-! ## Readings -/

/-- A match that, if it has no errors, is a reading of a production. -/
def Derived (s : Session) (p : Production) (m : Match) : Prop :=
  m.errors = 0 → ∃ w, s.grammar.Derives p w ∧ List.Forall₂ s.Spells w m.spans

/-- A match that completes a run by a reading of a production. -/
def Completes (s : Session) (run : Run) (p : Production) (m : Match) : Prop :=
  run.errors ≤ m.errors ∧ ∃ rest, m.spans = Node.spans (run.items.reverse.map (·.1)) ++ rest ∧
    (m.errors = 0 → ∃ w, s.grammar.Derives p w ∧ List.Forall₂ s.Spells w rest)

theorem Derived.of_eq {p q : Production} {m m' : Match} (h : s.Derived p m)
    (herr : m'.errors = m.errors) (hspans : m'.spans = m.spans)
    (hpq : ∀ w, s.grammar.Derives p w → s.grammar.Derives q w) : s.Derived q m' := by
  intro hzero
  obtain ⟨w, hw, hspell⟩ := h (herr ▸ hzero)
  exact ⟨w, hpq w hw, hspans ▸ hspell⟩

theorem Completes.derived {pos : Nat} {p : Production} {m : Match}
    (h : s.Completes (.begin pos) p m) : s.Derived p m := by
  obtain ⟨_, rest, hspans, hw⟩ := h
  intro hzero
  rw [hspans]
  exact hw hzero

theorem completes_toMatch {run : Run} {p : Production} (h : s.grammar.Derives p []) :
    s.Completes run p run.toMatch :=
  ⟨Nat.le_refl _, [], (List.append_nil _).symm, fun _ => ⟨[], h, .nil⟩⟩

/-- A run that takes in a reading of `p` is completed by one of `q`: the two make a reading of
`r`. -/
theorem Derived.completes {run run' : Run} {p q r : Production} {m m' : Match}
    (herr : run'.errors = run.errors + m.errors)
    (hspans : Node.spans (run'.items.reverse.map (·.1)) =
      Node.spans (run.items.reverse.map (·.1)) ++ m.spans)
    (hm : s.Derived p m) (hm' : s.Completes run' q m')
    (hr : ∀ u v, s.grammar.Derives p u → s.grammar.Derives q v → s.grammar.Derives r (u ++ v)) :
    s.Completes run r m' := by
  obtain ⟨hle, rest, hrest, hw⟩ := hm'
  refine ⟨by omega, m.spans ++ rest, ?_, ?_⟩
  · rw [hrest, hspans, List.append_assoc]
  · intro hzero
    obtain ⟨v, hv, hspell'⟩ := hw hzero
    obtain ⟨u, hu, hspell⟩ := hm (by omega)
    exact ⟨u ++ v, hr u v hu hv, List.rel_append hspell hspell'⟩

theorem errors_push (run : Run) (m : Match) : (run.push m).errors = run.errors + m.errors := by
  unfold Run.push
  split <;> rfl

theorem spans_take (run : Run) (m : Match) :
    Node.spans ((run.take m).items.reverse.map (·.1)) =
      Node.spans (run.items.reverse.map (·.1)) ++ m.spans := by
  unfold Run.take
  rw [List.reverse_append, List.reverse_reverse, List.map_append, Node.spans_append]
  rfl

theorem spans_push (run : Run) (m : Match) :
    Node.spans ((run.push m).items.reverse.map (·.1)) =
      Node.spans (run.items.reverse.map (·.1)) ++ m.spans := by
  unfold Run.push
  split
  · rename_i hnil
    have : m.spans = [] := by
      unfold Match.spans
      rw [List.isEmpty_iff.1 hnil]
      rfl
    rw [this, List.append_nil]
  · exact spans_take run m

theorem errors_rename (content : Production) (kind : String) (m : Match) :
    (m.rename content kind).errors = m.errors := by
  obtain ⟨_, _, _, _, heq⟩ | heq := Match.rename_cases content kind m <;> rw [heq]
  rfl

theorem errors_finish (rule : String) (m : Match) : (m.finish rule).errors = m.errors := by
  obtain ⟨_, heq⟩ | ⟨_, heq | ⟨_, _, _, _, heq⟩⟩ := Match.finish_cases rule m <;> rw [heq]
  rfl

theorem errors_dress (a : Alternative) (m : Match) : (dress a m).errors = m.errors := by
  obtain ⟨_, ⟨_, heq⟩ | ⟨_, _, heq⟩⟩ := dress_cases a m <;> rw [heq]
  rfl

/-! ## The invariant -/

/-- What a reading is for each kind of task. -/
def Task.Derived (s : Session) : Task → Match → Prop
  | .production p _, m => s.Derived p m
  | .items ps run, m => s.Completes run (.seq ps) m
  | .rounds content least _ count run, m => s.Completes run (.rep content (least - count) false) m
  | .element owner _ e _, m => e.selfFields = e.body.selfFields? owner → s.Derived e.body m
  | .elements owner _ es run, m => (∀ e ∈ es, e.selfFields = e.body.selfFields? owner) →
      s.Completes run (.seq (es.map (·.body))) m
  | .growth owner _ left, m => ∀ pos, left.Proper pos s.size → s.Derived (.ref owner) left →
      s.Derived (.ref owner) m
  | .rule key, m => s.Derived (.ref key.rule) m

theorem derived_literal (hb : s.table.Built) {value : String} {pos : Nat} {m : Match}
    (h : s.matchLiteral value pos = some m) : s.Derived (.lit value) m := by
  obtain ⟨l, hl, rfl, rfl⟩ := matchLiteral_eq_some h
  obtain ⟨hslice, hlen⟩ := slice_of_literalAt hb hl
  intro _
  refine ⟨[.literal l.text], .lit, ?_⟩
  show List.Forall₂ _ _ (Node.spans [Node.leaf _ _ _ _])
  rw [Node.spans_of_childless rfl]
  have hlt : s.skip pos < s.skip pos + l.chars.length := by omega
  exact (if_pos hlt) ▸ .cons hslice .nil

theorem derived_token {name : String} {t : Token} {pos : Nat} {m : Match}
    (ht : s.grammar.tokens.get? name = some t) (h : s.matchToken name t pos = some m) :
    s.Derived (.ref name) m := by
  obtain ⟨stop, hstop, hlt, hword, rfl⟩ := matchToken_eq_some h
  intro _
  refine ⟨[.token name], .token (NameTable.mem_names_of_get? ht), ?_⟩
  show List.Forall₂ _ _ (Node.spans [Node.leaf _ _ _ _])
  rw [Node.spans_of_childless rfl]
  exact (if_pos hlt) ▸ .cons ⟨t, ht, hstop, hword⟩ .nil

/-- An alternative that starts with the rule itself adds what comes after that to a reading of the
rule. -/
theorem derived_extended (hb : s.table.Built) {rule : String} {alts : RuleAlternatives}
    {a : Alternative} {left right : Match} {pos : Nat}
    (ht : s.table.rules.get? rule = some alts) (ha : a ∈ alts.postfixed ∨ a ∈ alts.leftRec)
    (hp : left.Proper pos s.size) (hp' : right.Proper left.stop s.size)
    (hlt : left.stop < right.stop) (hleft : s.Derived (.ref rule) left)
    (hright : s.Derived (.seq ((a.elements.drop 1).map (·.body))) right) :
    s.Derived (.ref rule) (extended a left right) := by
  obtain ⟨hoffers, hself⟩ := hb.offers_growing ht ha
  obtain ⟨e, es, hes, hbody⟩ := Alternative.exists_of_startsWithSelf hoffers.knows hself
  intro hzero
  have herr : left.errors + right.errors = 0 := by
    rw [← hzero, extended, errors_dress]
    rfl
  obtain ⟨u, hu, hspell⟩ := hleft (by omega)
  obtain ⟨v, hv, hspell'⟩ := hright (by omega)
  rw [hes] at hv
  refine ⟨u ++ v, hoffers.derives ?_, ?_⟩
  · unfold Alternative.spine
    rw [hes]
    exact .seqCons (.of_unfield (hbody ▸ hu)) hv
  · rw [hp.spans_extended hp' hlt]
    exact List.rel_append hspell hspell'

/-- **Every match without errors is a reading of what it matches.** -/
theorem Yields.derived (hb : s.table.Built) {t : Task} {m : Match} (h : s.Yields t m) :
    t.Derived s m := by
  induction h with
  | lit h => exact derived_literal hb h
  | token ht h => exact derived_token ht h
  | ref _ _ ih => exact ih
  | seq _ ih => exact Completes.derived ih
  | choice hp _ ih => exact Derived.of_eq ih rfl rfl fun _ hw => .choice hp hw
  | @rep content least recover pos m _ ih =>
    refine Derived.of_eq (Completes.derived ih) rfl rfl ?_
    intro w hw
    cases hw with
    | rep hl hcopies => exact .rep (by omega) hcopies
  | opt _ ih => exact Derived.of_eq ih rfl rfl fun _ hw => .opt hw
  | omitted => exact fun _ => ⟨[], .omitted, .nil⟩
  | blank => exact fun _ => ⟨[], .blank, .nil⟩
  | field _ ih =>
    exact Derived.of_eq ih rfl (Match.spans_withFields _ _) fun _ hw => .field hw
  | renamed h ih =>
    exact Derived.of_eq ih (errors_rename _ _ _) (Match.Proper.spans_rename h.proper _ _)
      fun _ hw => .renamed hw
  | prec _ ih => exact Derived.of_eq ih rfl rfl fun _ hw => .prec hw
  | itemsDone => exact completes_toMatch .seqNil
  | itemsNext _ _ ih ih' =>
    exact Derived.completes (errors_push _ _) (spans_push _ _) ih ih' fun _ _ => .seqCons
  | @roundsDone content least _ run count hc =>
    have hnone : s.grammar.Derives (.rep content (least - count) false) [].flatten :=
      .rep (by simp only [List.length_nil]; omega) nofun
    exact completes_toMatch hnone
  | @round content least _ count run m m' _ _ _ ih ih' =>
    refine Derived.completes rfl (spans_take _ _) ih ih' ?_
    intro u v hu hv
    have hcount : least - ((count + 1 : Nat) : Int) = least - count - 1 := by omega
    rw [hcount] at hv
    exact hu.rep_cons hv
  | @region content least count run start stop m' _ _ ih' =>
    obtain ⟨hle, rest, hspans, _⟩ := ih'
    have herr : run.errors + 1 ≤ m'.errors := hle
    unfold Run.pushError at hspans
    rw [List.reverse_cons, List.map_append, Node.spans_append, List.append_assoc] at hspans
    exact ⟨by omega, _, hspans, fun hzero => by omega⟩
  | @selfElement rule _ e _ _ _ he _ ih =>
    intro hknows
    have hbody : e.body.unfield.2 = .ref rule :=
      Production.unfield_of_selfFields? (hknows.symm.trans he)
    exact Derived.of_eq ih rfl (Match.spans_withFields _ _) fun _ hw => .of_unfield (hbody ▸ hw)
  | bodyElement _ _ ih => exact fun _ => ih
  | elementsDone => exact fun _ => completes_toMatch .seqNil
  | elementsNext _ _ ih ih' =>
    intro hknows
    exact Derived.completes (errors_push _ _) (spans_push _ _) (ih (hknows _ List.mem_cons_self))
      (ih' fun e he => hknows e (List.mem_cons_of_mem _ he)) fun _ _ => .seqCons
  | grown => exact fun _ _ h => h
  | grow ht ha _ h hlt _ ih ih' =>
    intro pos hp hleft
    have hp' := h.proper (Run.proper_begin _ _)
    have hknows := (hb.offers_growing ht ha).1.knows
    refine ih' pos (hp.extended hp' hlt _) (derived_extended hb ht ha hp hp' hlt hleft ?_)
    exact (ih fun e he => hknows e (List.mem_of_mem_drop he)).derived
  | @rule key _ a seed m ht ha h h' ih ih' =>
    have hseed := h.proper (Run.proper_begin _ _)
    have hm := h'.proper _ (hseed.dress a)
    have hoffers := (hb.offers_seed ht ha).1
    refine Derived.of_eq (ih' _ (hseed.dress a) ?_) (errors_finish _ _) (hm.spans_finish _)
      fun _ hw => hw
    exact Derived.of_eq (ih hoffers.knows).derived (errors_dress _ _) (hseed.spans_dress _)
      fun _ hw => hoffers.derives hw

/-! ## Answers of a session -/

/-- The production that a request asks to match. -/
def Request.production? : Request → Option Production
  | .rule name _ _ => some (.ref name)
  | .production p _ _ => some p
  | .parse => none

/-- **A match without errors is a reading of its text.** Whatever a session of a grammar that builds
was asked for before, if it answers a request for a production or a rule with a match that has no
errors, then the production derives a string with one symbol for each leaf of the match: each leaf
is spelled like its symbol, and the leaves stand in source order. -/
theorem derives_of_found {layers : List Layer}
    (hb : (ParseTable.ofLayers layers).outcome = .ok s.table) {limit : Nat}
    {history : List Request} {r : Request} {p : Production} {m : Match} {μ : Memo}
    (hp : r.production? = some p)
    (hm : s.perform limit r (s.memoAfter limit history) = .ok (.found (some m)) μ)
    (herr : m.errors = 0) :
    ∃ w, s.grammar.Derives p w ∧
      List.Forall₂ (fun sym n => s.Spells sym (n.start, n.stop)) w m.leaves ∧
      m.leaves.Pairwise (fun a b => a.stop ≤ b.start) := by
  have hreply := replies_of_perform hm
  have hread : s.Derived p m ∧ ∃ lo, InOrder lo m.spans m.stop := by
    cases r with
    | parse => cases hp
    | rule name pos minPrec =>
      cases hp
      have hy : s.Yields (.rule ⟨name, pos, minPrec⟩) m := hreply m rfl
      exact ⟨hy.derived (ParseTable.built hb), pos, hy.ordered⟩
    | production q pos owner =>
      cases hp
      have hy : s.Yields (.production p pos) m := hreply m rfl
      exact ⟨hy.derived (ParseTable.built hb), pos, hy.ordered⟩
  obtain ⟨hderived, lo, horder⟩ := hread
  obtain ⟨w, hw, hspell⟩ := hderived herr
  rw [Match.spans_eq_map_leaves] at hspell horder
  exact ⟨w, hw, List.forall₂_map_right_iff.1 hspell, List.pairwise_map.1 horder.pairwise.1⟩

/-- Sums of numbers, with the sum on the left. -/
def sumLayer : Layer where
  name := "Sums"
  start := some (some "sum")
  word := some none
  members :=
    [("number", .token none (.declare "\\d+")),
     ("sum", .rule none (.choice
      [.prec 1 (.renamed (.seq [.ref "sum", .lit "+", .ref "number"]) "addition") .left none,
       .ref "number"]))]

/-- A sum that a session reads after it has read the whole text. -/
theorem derives_of_found_sum : ∃ (s : Session) (m : Match) (μ : Memo),
    (ParseTable.ofLayers [sumLayer]).outcome = .ok s.table ∧
    s.text = #['1', '+', ' ', '2', '+', '3'] ∧
    s.perform 5 (.rule "sum" 0 0) (s.memoAfter 5 [.parse]) = .ok (.found (some m)) μ ∧
    m.leaves.length = 5 ∧ ∃ w, s.grammar.Derives (.ref "sum") w ∧
      List.Forall₂ (fun sym n => s.Spells sym (n.start, n.stop)) w m.leaves ∧
      m.leaves.Pairwise (fun a b => a.stop ≤ b.start) := by
  have hrun : ((ParseTable.ofLayers [sumLayer]).outcome.toOption.any fun table =>
      let s : Session := ⟨table, true, #['1', '+', ' ', '2', '+', '3']⟩
      (Engine.value? (s.perform 5 (.rule "sum" 0 0)) (s.memoAfter 5 [.parse])).any fun reply =>
        reply.found?.any fun m => decide (m.errors = 0 ∧ m.leaves.length = 5)) = true := by
    decide +kernel
  obtain ⟨table, htable, hrun⟩ := Traced.exists_of_any hrun
  obtain ⟨reply, μ, hreply, htest⟩ := Engine.exists_of_any hrun
  obtain ⟨m, rfl, hm⟩ := Reply.exists_of_any htest
  obtain ⟨herr, hlen⟩ := of_decide_eq_true hm
  exact ⟨⟨table, true, #['1', '+', ' ', '2', '+', '3']⟩, m, μ, htable, rfl, hreply, hlen,
    derives_of_found htable rfl hreply herr⟩

end Session

end LayeredGrammar
