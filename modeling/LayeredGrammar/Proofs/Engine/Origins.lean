import LayeredGrammar.Proofs.Engine.Formed

/-!
# Where nodes of special kinds come from

Kinds that are neither those of literals and tokens nor given by the grammar belong to rules and to
error regions alone. `Session.Sourced` lists what has to be shown of a property of nodes of such
kinds: that it holds of the error regions the session makes, and of the nodes that rules make of their
matches. It then holds throughout every match (`Session.Yields.throughout`).
-/

namespace LayeredGrammar

namespace Session

variable {s : Session} {P : Node → Prop} {special : String → Prop}

/-- What has to be shown of a property of nodes of special kinds so that it holds throughout every
match. -/
structure Sourced (s : Session) (P : Node → Prop) (special : String → Prop) : Prop where
  built : s.table.Built
  plain : ∀ n, ¬special n.kind → P n
  literals : ∀ value ∈ s.grammar.literals, ¬special value
  tokens : ∀ name ∈ s.grammar.tokens.names, ¬special name
  kinds : ∀ kind ∈ s.grammar.aliasKinds, ¬special kind
  region : s.recover = true → ∀ {pos start stop}, s.errorSpan pos = some (start, stop) →
    ∀ expected, P (.error start stop expected)
  rule : ∀ {key : MemoKey} {alts : RuleAlternatives} {a : Alternative} {seed m : Match},
    s.table.rules.get? key.rule = some alts → (a ∈ alts.prefixed ∨ a ∈ alts.plain) →
    s.Yields (.elements key.rule a.rightMin a.elements (.begin key.pos)) seed →
    s.Yields (.growth key.rule key.minPrec (dress a seed)) m → special key.rule →
    P (.ofItems key.rule m.items m.start m.stop) ∧
      ∀ node names, m.items = [(node, names)] → node.named = false →
        P (.leaf key.rule node.start node.stop true)

/-- No kind that is given in a production is special. -/
def Ordinary (special : String → Prop) (p : Production) : Prop := ∀ kind ∈ p.kinds, ¬special kind

theorem Ordinary.of_child {p q : Production} (h : Ordinary special p) (hq : q ∈ p.children) :
    Ordinary special q :=
  fun kind hkind =>
    h kind (Production.kinds_subset (fun _ hr => Production.walk_of_child hq hr) hkind)

/-- What it means that a property holds throughout a match, for each kind of task. -/
def Task.Holds (s : Session) (P : Node → Prop) (special : String → Prop) : Task → Match → Prop
  | .production p _, m => Ordinary special p → m.Throughout P
  | .items ps run, m => (∀ p ∈ ps, Ordinary special p) → run.Throughout P → m.Throughout P
  | .rounds content _ recovering _ run, m => Ordinary special content →
      (recovering = true → s.recover = true) → run.Throughout P → m.Throughout P
  | .element _ _ e _, m => Ordinary special e.body → m.Throughout P
  | .elements _ _ es run, m => (∀ e ∈ es, Ordinary special e.body) → run.Throughout P →
      m.Throughout P
  | .growth _ _ left, m => left.Throughout P → m.Throughout P
  | .rule _, m => m.Throughout P

namespace Sourced

theorem literal (h : s.Sourced P special) {value : String} {pos : Nat} {m : Match}
    (hm : s.matchLiteral value pos = some m) : m.Throughout P := by
  obtain ⟨l, hl, rfl, rfl⟩ := matchLiteral_eq_some hm
  refine Node.Throughout.single_iff.2 ⟨h.plain _ ?_, .nil⟩
  exact h.literals _ (literal_mem h.built hl)

theorem token (h : s.Sourced P special) {name : String} {t : Token} {pos : Nat} {m : Match}
    (ht : s.grammar.tokens.get? name = some t) (hm : s.matchToken name t pos = some m) :
    m.Throughout P := by
  obtain ⟨stop, _, _, _, rfl⟩ := matchToken_eq_some hm
  refine Node.Throughout.single_iff.2 ⟨h.plain _ ?_, .nil⟩
  exact h.tokens _ (NameTable.mem_names_of_get? ht)

theorem element (h : s.Sourced P special) {rule : String} {a : Alternative}
    (ha : s.table.Offers rule a) : ∀ e ∈ a.elements, Ordinary special e.body :=
  fun _ he kind hkind => h.kinds kind (ha.kinds_element he hkind)

theorem dress (h : s.Sourced P special) {rule : String} {a : Alternative} {m : Match}
    (ha : s.table.Offers rule a) (hm : m.Throughout P) : (dress a m).Throughout P :=
  Match.throughout_dress hm fun kind hkind => h.plain _ (h.kinds kind (ha.kind_mem hkind))

end Sourced

/-- **The property holds throughout every match.** -/
theorem Yields.throughout (hp : s.Sourced P special) {t : Task} {m : Match} (h : s.Yields t m) :
    t.Holds s P special m := by
  induction h with
  | lit h => exact fun _ => hp.literal h
  | token ht h => exact fun _ => hp.token ht h
  | ref _ _ ih => exact fun _ => ih
  | seq _ ih => exact fun hq => ih (fun p hp => hq.of_child hp) .nil
  | choice hp _ ih => exact fun hq => ih (hq.of_child hp)
  | @rep content least recover _ _ _ ih =>
    refine fun hq => ih (hq.of_child List.mem_cons_self) (fun hrecover => ?_) .nil
    exact (Bool.and_eq_true_iff.1 hrecover).2
  | opt _ ih => exact fun hq => ih (hq.of_child List.mem_cons_self)
  | omitted => exact fun _ => .nil
  | blank => exact fun _ => .nil
  | field _ ih =>
    exact fun hq => (Match.throughout_withFields _).2 (ih (hq.of_child List.mem_cons_self))
  | @renamed content kind pos m _ ih =>
    intro hq
    have hkind : ¬special kind :=
      hq kind (Production.mem_kinds.2 ⟨content, Production.mem_walk_self _⟩)
    exact Match.throughout_rename (ih (hq.of_child List.mem_cons_self)) (hp.plain _ hkind)
      fun node names _ => hp.plain _ hkind
  | prec _ ih => exact fun hq => ih (hq.of_child List.mem_cons_self)
  | itemsDone => exact fun _ hrun => hrun.toMatch
  | itemsNext _ _ ih ih' =>
    intro hqs hrun
    obtain ⟨hq, hqs⟩ := List.forall_mem_cons.1 hqs
    exact ih' hqs (hrun.push (ih hq))
  | roundsDone => exact fun _ _ hrun => hrun.toMatch
  | round _ _ _ ih ih' => exact fun hq hrecover hrun => ih' hq hrecover (hrun.take (ih hq))
  | region hspan _ ih' =>
    intro hq hrecover hrun
    exact ih' hq hrecover (hrun.pushError (hp.region (hrecover rfl) hspan _))
  | selfElement _ _ ih => exact fun _ => (Match.throughout_withFields _).2 ih
  | bodyElement _ _ ih => exact ih
  | elementsDone => exact fun _ hrun => hrun.toMatch
  | elementsNext _ _ ih ih' =>
    intro hes hrun
    obtain ⟨he, hes⟩ := List.forall_mem_cons.1 hes
    exact ih' hes (hrun.push (ih he))
  | grown => exact fun hleft => hleft
  | grow ht ha _ _ _ _ ih ih' =>
    intro hleft
    have hoffers := (hp.built.offers_growing ht ha).1
    have hright := ih (fun e he => hp.element hoffers e (List.mem_of_mem_drop he)) .nil
    exact ih' (hp.dress hoffers
      (Match.throughout_join.2 ⟨(Match.throughout_withFields _).2 hleft, hright⟩))
  | @rule key _ a seed m ht ha h h' ih ih' =>
    have hoffers := (hp.built.offers_seed ht ha).1
    have hm := ih' (hp.dress hoffers (ih (hp.element hoffers) .nil))
    by_cases hspecial : special key.rule
    · obtain ⟨hnode, hleaf⟩ := hp.rule ht ha h h' hspecial
      exact Match.throughout_finish hm (fun _ => hnode) fun _ => hleaf
    · exact Match.throughout_finish hm (fun _ => hp.plain _ hspecial)
        fun _ _ _ _ _ => hp.plain _ hspecial

end Session

end LayeredGrammar
