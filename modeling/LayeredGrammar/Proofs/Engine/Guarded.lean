import LayeredGrammar.Proofs.Engine.Formed
import LayeredGrammar.Proofs.Engine.Growth
import LayeredGrammar.Proofs.Engine.Tracking

/-!
# Properties of the nodes of answers

A property of nodes that depends on what was tried and did not match, such as the precedence of
operators, holds of answers and not of all matches that the rules can yield. `Session.Guarded` lists
what has to be shown of such a property: that it holds where a rule and its alternatives make nodes of
special kinds, and that nothing else makes such nodes. It then holds throughout every answer
(`Session.Guarded.truth`) and every tree (`Session.Guarded.parse`).

A session is paired with itself for that: nodes correspond if they are the same and the property holds
throughout them.
-/

namespace LayeredGrammar

namespace Session

open Engine (Tracks)

variable {s : Session} {P : Node → Prop} {special : String → Prop}

/-- Nodes correspond to themselves if the property holds throughout them; only nodes of special kinds
are not made at will. -/
def holding (P : Node → Prop) (special : String → Prop) : Pairing where
  node n n' := n = n' ∧ Node.Throughout P [n]
  scope _ := True
  reached _ := True
  parents kind := ¬special kind
  renames kind := ¬special kind
  masks _ := True
  label _ := True

theorem holding_items {items items' : List Item} :
    List.Forall₂ (holding P special).item items items' ↔
      items = items' ∧ Node.Throughout P (items.map (·.1)) := by
  constructor
  · intro h
    induction h with
    | nil => exact ⟨rfl, .nil⟩
    | @cons x y xs ys hxy _ ih =>
      obtain ⟨⟨hnode, hp⟩, hnames⟩ := hxy
      obtain ⟨rfl, hps⟩ := ih
      obtain ⟨hx, hbelow⟩ := Node.Throughout.single_iff.1 hp
      exact ⟨congrArg (· :: xs) (Prod.ext hnode hnames),
        Node.Throughout.cons_iff.2 ⟨hx, hbelow, hps⟩⟩
  · rintro ⟨rfl, h⟩
    induction items with
    | nil => exact .nil
    | cons x items ih =>
      obtain ⟨hx, hbelow, hrest⟩ := Node.Throughout.cons_iff.1 h
      exact .cons ⟨⟨rfl, Node.Throughout.single_iff.2 ⟨hx, hbelow⟩⟩, rfl⟩ (ih hrest)

theorem holding_matches {m : Match} (h : m.Throughout P) : (holding P special).Matches m m :=
  ⟨rfl, rfl, holding_items.2 ⟨rfl, h⟩, rfl, rfl, rfl, trivial⟩

/-- The property holds of leaves and of nodes that are not special. -/
structure Harmless (P : Node → Prop) (special : String → Prop) : Prop where
  plain : ∀ n, ¬special n.kind → P n
  leaf : ∀ kind start stop named, P (.leaf kind start stop named)
  error : ¬special Node.errorKind

theorem holding_lawful (h : Harmless P special) : (holding P special).Lawful s s where
  confined := confined_everywhere
  size := rfl
  recover := rfl
  literal _ _ _ := rfl
  tokens _ := rfl
  token _ _ _ := rfl
  errorSpan _ _ := rfl
  skip _ := rfl
  rawTokenEnd _ _ := rfl
  start := rfl
  preferred _ _ _ := rfl
  kind _ _ hn := congrArg Node.kind hn.1
  named _ _ hn := congrArg Node.named hn.1
  span _ _ hn := ⟨congrArg Node.start hn.1, congrArg Node.stop hn.1⟩
  fields _ _ hn := congrArg Node.fields hn.1
  children := by
    rintro n _ ⟨rfl, hn⟩
    have hbelow := (Node.Throughout.single_iff.1 hn).2
    have hall : ∀ ns : List Node, Node.Throughout P ns →
        List.Forall₂ (holding P special).node ns ns := by
      intro ns hns
      refine List.forall₂_same.2 fun c hc => ⟨rfl, ?_⟩
      exact Node.Throughout.single_iff.2 (hns.of_mem hc)
    exact hall n.children hbelow
  leaf kind start stop named :=
    ⟨rfl, Node.Throughout.single_iff.2 ⟨h.leaf kind start stop named, .nil⟩⟩
  error _ _ _ := ⟨rfl, Node.Throughout.single_iff.2 ⟨h.plain _ h.error, .nil⟩⟩
  rootError _ _ := ⟨rfl, Node.Throughout.single_iff.2 ⟨h.plain _ h.error, .nil⟩⟩
  ofItems kind start stop items items' hkind hitems := by
    obtain ⟨rfl, hall⟩ := holding_items.1 hitems
    exact ⟨rfl, Node.Throughout.single_iff.2 ⟨h.plain _ hkind, hall⟩⟩
  expected _ _ hn _ := congrArg Node.expected hn.1
  rename := by
    rintro kind n _ hkind _ ⟨rfl, hn⟩
    exact ⟨rfl, Node.Throughout.single_iff.2
      ⟨h.plain _ hkind, (Node.Throughout.single_iff.1 hn).2⟩⟩

theorem holding_calls {answers : MemoKey → Option Match}
    (h : ∀ k m, answers k = some m → m.Throughout P) :
    CallsTrack (holding P special) (fun _ _ => True) (tabled answers) (tabled answers) := by
  intro rule pos minPrec _ _
  refine Tracks.pure ?_
  cases hk : answers ⟨rule, pos, minPrec⟩ with
  | none => exact .none
  | some m => exact .some ⟨holding_matches (h _ m hk), fun _ => rfl⟩

/-! ## Elements in a row -/

/-- A table with only those answers that are good. -/
theorem exists_restriction (answers : MemoKey → Option Match) (good : Match → Prop) :
    ∃ kept : MemoKey → Option Match, (∀ k m, kept k = some m → good m) ∧
      ∀ k, (∀ m ∈ answers k, good m) → kept k = answers k := by
  classical
  refine ⟨fun k => (answers k).filter (decide <| good ·), ?_, ?_⟩
  · intro k m hm
    exact of_decide_eq_true (Option.filter_eq_some_iff.1 hm).2
  · intro k hk
    cases hm : answers k with
    | none => simp only [hm, Option.filter_none]
    | some m => exact Option.filter_eq_some_iff.2 ⟨hm, decide_eq_true (hk m hm)⟩

/-- The property holds throughout a match of elements if it does throughout the answers they ask
for. -/
theorem inRow_throughout (h : Harmless P special) {answers : MemoKey → Option Match}
    (ht : s.Truthful answers) {rule : String} {rightMin : Int} {es : List Element} {pos : Nat}
    (hes : ∀ e ∈ es, ∀ kind ∈ e.body.kinds, ¬special kind)
    (hasks : ∀ k, s.Asks (.elements rule rightMin es (.begin pos)) k →
      ∀ m ∈ answers k, m.Throughout P) {m : Match}
    (hm : s.inRow answers rule rightMin es pos = some m) : m.Throughout P := by
  obtain ⟨kept, hgood, hkept⟩ := exists_restriction answers (·.Throughout P)
  rw [inRow_congr ht fun k hk => (hkept k (hasks k hk)).symm] at hm
  have hadmits : ∀ e ∈ es, (holding P special).Admits s e.body := by
    intro e he q hq
    cases q with
    | renamed content kind =>
      have hkind := hes e he kind (Production.mem_kinds.2 ⟨content, hq⟩)
      exact ⟨⟨hkind, hkind⟩, fun _ _ _ _ => trivial⟩
    | ref name => exact fun _ => trivial
    | choice members => exact fun _ _ => trivial
    | _ => exact trivial
  have htracks : Tracks (fun _ _ => True)
      (s.matchElements (tabled kept) rule rightMin es (.begin pos))
      (s.matchElements (tabled kept) rule rightMin es (.begin pos))
      (Option.Rel (holding P special).Matches) :=
    matchElements_tracks (holding_lawful h) (holding_calls hgood) trivial rightMin es hadmits
      (Pairing.runs_begin trivial)
  unfold inRow at hm
  cases hrun : s.matchElements (tabled kept) rule rightMin es (.begin pos) {} with
  | error e μ =>
    rw [hrun] at hm
    cases hm
  | ok found μ =>
    rw [hrun] at hm
    obtain ⟨_, hrel⟩ := htracks {} {} trivial found found μ μ hrun hrun
    rw [show found = some m from hm] at hrel
    cases hrel with
    | some hmatches => exact (holding_items.1 hmatches.items).2

/-! ## Answers -/

/-- What has to be shown of a property of nodes so that it holds of all nodes of answers. -/
structure Guarded (s : Session) (height : MemoKey → Nat) (P : Node → Prop)
    (special : String → Prop) : Prop extends Harmless P special where
  built : s.table.Built
  falling : s.Falling height
  /-- Nothing inside an alternative gives a special kind. -/
  elements : ∀ rule a, s.table.Offers rule a → ∀ e ∈ a.elements, ∀ kind ∈ e.body.kinds,
    ¬special kind
  start : ¬special s.grammar.start
  /-- The property holds where an alternative starts a match with a special node. -/
  seed : ∀ {k alts a seed left}, s.Grows (s.truth height) k alts a seed left →
    ∀ kind, a.kind = some kind → special kind →
      P (.ofItems kind seed.items seed.start seed.stop)
  /-- The property holds where an alternative grows a match to a special node. -/
  growth : ∀ {k alts a seed left left' b right}, s.Grows (s.truth height) k alts a seed left' →
    s.Grown (s.truth height) k.rule alts k.minPrec (dress a seed) left →
    b ∈ alts.postfixed ++ alts.leftRec → k.minPrec ≤ b.rank →
    s.Lengthens (s.truth height) k.rule b left.stop right →
    ∀ kind, b.kind = some kind → special kind →
      P (.ofItems kind ((left.withFields b.leadFields).join right).items left.start right.stop)
  /-- The property holds where a rule with a special name puts its match under a node. -/
  rule : ∀ {k alts a seed left}, s.Grows (s.truth height) k alts a seed left → special k.rule →
    P (.ofItems k.rule left.items left.start left.stop)

namespace Guarded

variable {height : MemoKey → Nat}

/-- **The property holds throughout every answer**, by induction on its height: the answers that an
answer is made of have lower ones. -/
theorem truth (h : s.Guarded height P special) (k : MemoKey) {m : Match}
    (hm : s.truth height k = some m) : m.Throughout P := by
  obtain ⟨alts, a, seed, left, hgrows, rfl⟩ := truth_grows h.falling hm
  have hlower : ∀ k', s.Asks (.rule k) k' → ∀ m' ∈ s.truth height k', m'.Throughout P := by
    intro k' hk' m' hm'
    have hlt := h.falling k k' hk'
    exact h.truth k' hm'
  have hoffers := (h.built.offers_seed hgrows.table hgrows.mem).1
  have hseed : seed.Throughout P :=
    inRow_throughout h.toHarmless truthful_truth (h.elements k.rule a hoffers)
      (fun k' hk' => hlower k' (.ruleSeed hgrows.table hgrows.mem hk')) hgrows.begins
  have hdressed : (dress a seed).Throughout P := by
    refine Match.throughout_dress hseed fun kind hkind => ?_
    by_cases hspecial : special kind
    · exact h.seed hgrows kind hkind hspecial
    · exact h.plain _ hspecial
  -- the matches on the way, by induction on the growth
  have hgrown : ∀ {left'}, s.Grown (s.truth height) k.rule alts k.minPrec (dress a seed) left' →
      left'.Throughout P := by
    intro left' hg
    induction hg with
    | seed => exact hdressed
    | @step left' b right hg hb hrank hadds ih =>
      have hoffers := (h.built.offers_growing hgrows.table (List.mem_append.1 hb)).1
      have hright : right.Throughout P :=
        inRow_throughout h.toHarmless truthful_truth
          (fun e he => h.elements k.rule b hoffers e (List.mem_of_mem_drop he))
          (fun k' hk' => hlower k' (hgrows.asks truthful_truth hg hb hk')) hadds.1
      refine Match.throughout_dress (Match.throughout_join.2
        ⟨(Match.throughout_withFields _).2 ih, hright⟩) fun kind hkind => ?_
      by_cases hspecial : special kind
      · exact h.growth hgrows hg hb hrank hadds kind hkind hspecial
      · exact h.plain _ hspecial
  refine Match.throughout_finish (hgrown hgrows.grown) (fun _ => ?_) fun _ _ _ _ _ => h.leaf _ _ _ _
  by_cases hspecial : special k.rule
  · exact h.rule hgrows hspecial
  · exact h.plain _ hspecial
termination_by height k

/-- **The property holds throughout every tree.** -/
theorem parse (h : s.Guarded height P special) {limit : Nat} {root : Node} {μ : Memo}
    (hroot : s.parse limit {} = .ok root μ) : ∀ n ∈ root.walk, P n := by
  obtain ⟨ν, hν⟩ := parse_faithful h.falling hroot
  obtain ⟨_, _, hall⟩ := parseBy_tracks (holding_lawful (s := s) h.toHarmless)
    (holding_calls fun k m hm => h.truth k hm) trivial h.start {} {} trivial root root ν ν hν hν
  unfold Node.Throughout at hall
  rwa [Node.walkAll, Node.walkAll, List.append_nil] at hall

end Guarded

end Session

end LayeredGrammar
