import LayeredGrammar.Proofs.Catalog.Operators
import LayeredGrammar.Proofs.Engine.Guarded
import LayeredGrammar.Proofs.Tiling

/-!
# Precedence and associativity

Trees of the ready-made grammars respect the precedence and the associativity of the operators, also
around error regions (`ParseTable.parse_grouped`).

For operands on the right this is what they were asked for with. Nothing limits operands on the left:
an operator takes in whatever stands there. But what stands there ends in an operand that was grown
until it was stuck, at the very place where the operator adds text now; so it was asked for with a
higher precedence than that of the operator (`Session.Operand`).
-/

namespace LayeredGrammar

namespace Session

variable {s : Session} {answers : MemoKey → Option Match} {rule : String} {o : Operator}
  {a : Alternative} {pos : Nat}

/-! ## What alternatives leave -/

/-- A single operand leaves one node, of another kind. -/
theorem items_of_isOperand {kinds : List String} (h : a.IsOperand kinds) {rightMin : Int}
    {seed : Match} (hseed : s.Yields (.elements rule rightMin a.elements (.begin pos)) seed) :
    ∃ n, seed.items = [(n, [])] ∧ n.kind ∉ kinds := by
  obtain ⟨_, kind, _, houtline, hkind⟩ := h
  obtain ⟨e, helements, he⟩ := List.map_eq_singleton_iff.1 houtline
  rw [helements] at hseed
  cases hseed with
  | elementsNext h h' =>
    cases h' with
    | elementsDone =>
      unfold Element.outline? at he
      cases h with
      | selfElement hself _ =>
        rw [hself] at he
        cases he
      | @bodyElement _ _ _ _ m hself h =>
        rw [hself] at he
        obtain ⟨⟨n, names⟩, hitems, hnames, hfits⟩ := Yields.fits e.body he h
        obtain rfl : names = [] := hnames
        exact ⟨n, (Run.items_push_begin pos _).trans hitems, hfits kind rfl ▸ hkind⟩

theorem startsWithSelf_of_isOperand {kinds : List String} (h : a.IsOperand kinds) :
    a.startsWithSelf = false := by
  obtain ⟨_, kind, _, houtline, _⟩ := h
  obtain ⟨e, helements, he⟩ := List.map_eq_singleton_iff.1 houtline
  unfold Alternative.startsWithSelf
  rw [helements]
  unfold Element.outline? at he
  cases hself : e.selfFields with
  | none => simp [hself]
  | some names =>
    rw [hself] at he
    cases he

/-- The items below the node of an operator that ends at a position. -/
structure Laid (answers : MemoKey → Option Match) (rule : String) (o : Operator)
    (items : List Item) (stop : Nat) : Prop where
  fits : List.Forall₂ ItemOutline.Fits o.children items
  /-- The last operand is an answer that ends there too. -/
  last : o.closes = true → ∃ k m n names, k.rule = rule ∧ k.minPrec = o.rightMin ∧
    answers k = some m ∧ m.items = [(n, [])] ∧ m.stop = stop ∧ items.getLast? = some (n, names)

theorem EndsWith.last {es : List Element} {items : List Item} {stop : Nat}
    (h : EndsWith answers rule a.rightMin es items stop) (ha : a.Follows o)
    (hes : es.getLast? = a.elements.getLast?) (hcloses : o.closes = true) :
    ∃ k m n names, k.rule = rule ∧ k.minPrec = o.rightMin ∧ answers k = some m ∧
      m.items = [(n, [])] ∧ m.stop = stop ∧ items.getLast? = some (n, names) := by
  have hends := ha.closes.trans hcloses
  unfold Alternative.endsWithSelf at hends
  rw [← hes] at hends
  cases hlast : es.getLast? with
  | none =>
    rw [hlast] at hends
    cases hends
  | some e =>
    rw [hlast] at hends
    rw [← ha.rightMin]
    exact h e hlast hends

/-- What an operator starts a match with. -/
theorem laid_seed (ht : s.Truthful answers) (hsingle : Single answers rule) (ha : a.Follows o)
    {seed : Match} (hseed : s.inRow answers rule a.rightMin a.elements pos = some seed) :
    Laid answers rule o seed.items seed.stop := by
  obtain ⟨hfits, hends⟩ := inRow_outlined ht hsingle ha.children hseed
  exact ⟨hfits, hends.last ha rfl⟩

/-- What an operator grows a match to. -/
theorem laid_growth (ht : s.Truthful answers) (hsingle : Single answers rule) (ha : a.Follows o)
    (hself : a.startsWithSelf = true) {left right : Match} {n : Node}
    (hleft : left.items = [(n, [])]) (hadds : s.Lengthens answers rule a left.stop right) :
    Laid answers rule o ((left.withFields a.leadFields).join right).items right.stop ∧
      ((left.withFields a.leadFields).join right).items.head? = some (n, a.leadFields) := by
  have hitems : ((left.withFields a.leadFields).join right).items =
      (n, a.leadFields) :: right.items := by
    unfold Match.join
    rw [Match.items_withFields hleft]
    rfl
  obtain ⟨hrow, hlt⟩ := hadds
  have hchildren := ha.children
  cases helements : a.elements with
  | nil =>
    unfold Alternative.startsWithSelf at hself
    rw [helements] at hself
    cases hself
  | cons e es =>
    rw [helements] at hrow hchildren
    obtain ⟨names, hnames⟩ : ∃ names, e.selfFields = some names := by
      unfold Alternative.startsWithSelf at hself
      rw [helements] at hself
      exact Option.isSome_iff_exists.1 hself
    have hlead : a.leadFields = names := by
      unfold Alternative.leadFields
      rw [helements]
      show e.selfFields.getD [] = names
      rw [hnames]
      rfl
    cases hos : o.children with
    | nil =>
      rw [hos] at hchildren
      cases hchildren
    | cons first os =>
      rw [hos] at hchildren
      obtain ⟨hfirst, hrest⟩ := List.cons.inj hchildren
      obtain ⟨hfits, hends⟩ := inRow_outlined ht hsingle hrest hrow
      have hlast : es.getLast? = a.elements.getLast? := by
        rw [helements]
        cases es with
        | nil =>
          -- nothing is added after the match itself
          cases hrow
          exact absurd hlt (Nat.lt_irrefl _)
        | cons e' es => rfl
      have hfirst' : first = (none, names) := by
        unfold Element.outline? at hfirst
        rw [hnames] at hfirst
        exact (Option.some.inj hfirst).symm
      rw [hitems]
      refine ⟨⟨?_, fun hcloses => ?_⟩, rfl⟩
      · rw [hos, hfirst', hlead]
        exact .cons ⟨rfl, nofun⟩ hfits
      · obtain ⟨k, m, n', names', hrule, hmin, hk, hm, hstop, hget⟩ := hends.last ha hlast hcloses
        refine ⟨k, m, n', names', hrule, hmin, hk, hm, hstop, ?_⟩
        rw [List.getLast?_cons, hget]
        rfl

/-! ## Operands -/

/-- A match that is an operand with some precedence: what it ends in was asked for with a precedence
that no alternative has that adds text to it. -/
structure Operand (s : Session) (answers : MemoKey → Option Match) (rule : String)
    (alts : RuleAlternatives) (minPrec : Int) (m : Match) (n : Node) : Prop where
  items : m.items = [(n, [])]
  level : n.AtLeast minPrec
  stuck : ∀ b, n.openLevel? = some b → s.Stuck answers rule alts b m.stop

/-- An alternative that adds text to an operand does not take it from what the operand ends in. -/
theorem Operand.closedAbove {alts : RuleAlternatives} {minPrec : Int} {left : Match} {n : Node}
    (h : s.Operand answers rule alts minPrec left n) (ha : a ∈ alts.postfixed ++ alts.leftRec)
    {right : Match} (hadds : s.Lengthens answers rule a left.stop right) : n.ClosedAbove a.rank :=
  ⟨h.level.1, fun b hb => (h.stuck b hb).rank_lt ha hadds⟩

open Catalog

variable {height : MemoKey → Nat}

/-- The matches an expression grows through are single nodes without field names. -/
theorem single_of_grown (ht : Shipped s.table) {k : MemoKey} (hk : k.rule = "_expression")
    {alts : RuleAlternatives} {seed left left' : Match}
    (hgrows : s.Grows (s.truth height) k alts a seed left')
    (hg : s.Grown (s.truth height) k.rule alts k.minPrec (dress a seed) left) :
    ∃ n, left.items = [(n, [])] := by
  induction hg with
  | seed =>
    have hoffers := (ht.built.offers_seed hgrows.table hgrows.mem).1
    have hmakes := (ht.makes hoffers).1
    rw [if_pos hk] at hmakes
    rcases hmakes with hoperand | ⟨o, _, hfollows⟩
    · obtain ⟨n, hitems, _⟩ := items_of_isOperand hoperand (yields_inRow truthful_truth hgrows.begins)
      exact ⟨n, (Match.items_dress_of_none hoperand.1 seed).trans hitems⟩
    · exact ⟨_, Match.items_dress hfollows.kind seed⟩
  | step _ hb _ _ _ =>
    obtain ⟨hoffers, hself⟩ := ht.built.offers_growing hgrows.table (List.mem_append.1 hb)
    have hmakes := (ht.makes hoffers).1
    rw [if_pos hk] at hmakes
    rcases hmakes with hoperand | ⟨o, _, hfollows⟩
    · rw [startsWithSelf_of_isOperand hoperand] at hself
      cases hself
    · exact ⟨_, Match.items_dress hfollows.kind _⟩

theorem single_truth (ht : Shipped s.table) (hfall : s.Falling height) :
    Single (s.truth height) "_expression" := by
  intro k m hk hm
  obtain ⟨alts, a, seed, left, hgrows, rfl⟩ := truth_grows hfall hm
  obtain ⟨n, hn⟩ := single_of_grown ht hk hgrows hgrows.grown
  refine ⟨n, ?_⟩
  rw [hk]
  exact hn

/-- The node of an operator is an operand, with the precedence of the operator if it has a level. -/
theorem operand_of_laid (hfall : s.Falling height) (ho : o ∈ operators) {alts : RuleAlternatives}
    (htable : s.table.rules.get? "_expression" = some alts) {items : List Item} {start stop : Nat}
    (h : Laid (s.truth height) "_expression" o items stop) {minPrec : Int}
    (hmin : o.grows = true → minPrec ≤ o.rank) {m : Match}
    (hm : m.items = [(Node.ofItems o.kind items start stop, [])]) (hstop : m.stop = stop) :
    s.Operand (s.truth height) "_expression" alts minPrec m
      (Node.ofItems o.kind items start stop) := by
  refine ⟨hm, ⟨Operator.leveled_ofItems ho h.fits, fun l hl => ?_⟩, fun b hb => ?_⟩
  · rw [Operator.level?_ofItems ho h.fits] at hl
    obtain ⟨hgrows, rfl⟩ := Operator.grows_of_level? ho hl
    exact hmin hgrows
  · obtain ⟨hcloses, rfl⟩ := Operator.closes_of_openLevel? ho h.fits hb
    obtain ⟨k, m', _, _, hrule, hk, hanswer, _, hstop', _⟩ := h.last hcloses
    rw [hstop, ← hstop', ← hk]
    exact stuck_of_truth hfall htable hrule hanswer

/-- **Expressions are operands all the way they grow.** -/
theorem operand_of_grown (ht : Shipped s.table) (hfall : s.Falling height) {k : MemoKey}
    (hk : k.rule = "_expression") {alts : RuleAlternatives} {seed left left' : Match}
    (hgrows : s.Grows (s.truth height) k alts a seed left')
    (hg : s.Grown (s.truth height) k.rule alts k.minPrec (dress a seed) left) :
    ∃ n, s.Operand (s.truth height) "_expression" alts k.minPrec left n := by
  have hsingle := single_truth ht hfall
  have htable := hgrows.table
  rw [hk] at htable
  induction hg with
  | seed =>
    obtain ⟨hoffers, hself⟩ := ht.built.offers_seed hgrows.table hgrows.mem
    have hmakes := (ht.makes hoffers).1
    have hbegins := hgrows.begins
    rw [if_pos hk] at hmakes
    rw [hk] at hbegins
    rcases hmakes with hoperand | ⟨o, ho, hfollows⟩
    · obtain ⟨n, hitems, hkind⟩ :=
        items_of_isOperand hoperand (yields_inRow truthful_truth hbegins)
      have hlevel := Node.level?_eq_none hkind
      refine ⟨n, (Match.items_dress_of_none hoperand.1 seed).trans hitems, ⟨fun hbinary => ?_, ?_⟩, ?_⟩
      · exact absurd hbinary (Node.kind_ne_of_not_operator hkind (by decide))
      · rw [hlevel]
        exact nofun
      · rw [Node.openLevel?_eq_none hkind]
        exact nofun
    · refine ⟨_, operand_of_laid hfall ho htable (laid_seed truthful_truth hsingle hfollows hbegins)
        (fun hgrows' => ?_) (Match.items_dress hfollows.kind seed) (stop_dress a seed)⟩
      rw [← hfollows.grows, hself] at hgrows'
      cases hgrows'
  | @step left b right hg hb hrank hadds ih =>
    obtain ⟨n, hn⟩ := ih
    obtain ⟨hoffers, hself⟩ := ht.built.offers_growing hgrows.table (List.mem_append.1 hb)
    have hmakes := (ht.makes hoffers).1
    rw [if_pos hk] at hmakes
    rw [hk] at hadds
    rcases hmakes with hoperand | ⟨o, ho, hfollows⟩
    · rw [startsWithSelf_of_isOperand hoperand] at hself
      cases hself
    · obtain ⟨hlaid, _⟩ := laid_growth truthful_truth hsingle hfollows hself hn.items hadds
      exact ⟨_, operand_of_laid hfall ho htable hlaid (fun _ => hfollows.rank ▸ hrank)
        (Match.items_dress hfollows.kind _) (stop_dress b _)⟩

/-- The answers for expressions are operands with the precedence they were asked for with. -/
theorem atLeast_of_truth (ht : Shipped s.table) (hfall : s.Falling height) {k : MemoKey}
    (hk : k.rule = "_expression") {m : Match} (hm : s.truth height k = some m) {n : Node}
    (hitems : m.items = [(n, [])]) : n.AtLeast k.minPrec := by
  obtain ⟨alts, a, seed, left, hgrows, rfl⟩ := truth_grows hfall hm
  obtain ⟨n', hn'⟩ := operand_of_grown ht hfall hk hgrows hgrows.grown
  have hsame := hn'.items
  rw [hk] at hitems
  rw [show left.items = [(n, [])] from hitems] at hsame
  cases hsame
  exact hn'.level

/-! ## Trees -/

/-- The operands on the right of an operator have the precedence they were asked for with. -/
theorem Laid.atLeast (ht : Shipped s.table) (hfall : s.Falling height) {items : List Item}
    {stop : Nat} (h : Laid (s.truth height) "_expression" o items stop) (hcloses : o.closes = true) :
    ∀ x ∈ items.getLast?, x.1.AtLeast o.rightMin := by
  intro x hx
  obtain ⟨k, m, n, names, hrule, hk, hanswer, hitems, _, hlast⟩ := h.last hcloses
  rw [hlast] at hx
  cases hx
  rw [← hk]
  exact atLeast_of_truth ht hfall hrule hanswer hitems

/-- A rule other than the one for expressions makes no operator's node. -/
theorem rule_of_operatorKind (ht : Shipped s.table) {rule : String} {a : Alternative}
    (ha : s.table.Offers rule a) {kind : String} (hkind : a.kind = some kind)
    (hspecial : kind ∈ operatorKinds) :
    rule = "_expression" ∧ ∃ o ∈ operators, a.Follows o ∧ o.kind = kind := by
  have hmakes := (ht.makes ha).1
  split at hmakes
  · rename_i hrule
    rcases hmakes with hoperand | ⟨o, ho, hfollows⟩
    · rw [hoperand.1] at hkind
      cases hkind
    · exact ⟨hrule, o, ho, hfollows, Option.some.inj (hfollows.kind.symm.trans hkind)⟩
  · exact absurd hspecial (hmakes kind hkind)

/-- **Precedence holds where operators make nodes**, and nothing else makes nodes of their kinds. -/
theorem guarded_grouped (ht : Shipped s.table) (hfall : s.Falling height) :
    s.Guarded height Node.Grouped (· ∈ operatorKinds) where
  plain _ := Node.grouped_of_not_operator
  leaf _ _ _ _ := Node.grouped_of_childless rfl rfl
  error := by decide
  built := ht.built
  falling := hfall
  elements _ _ ha := (ht.makes ha).2.2
  start := by
    show s.table.grammar.start ∉ operatorKinds
    rw [ht.settings.1]
    decide
  seed := by
    intro k alts a seed left hgrows kind hkind hspecial
    obtain ⟨hoffers, hself⟩ := ht.built.offers_seed hgrows.table hgrows.mem
    obtain ⟨hrule, o, ho, hfollows, rfl⟩ := rule_of_operatorKind ht hoffers hkind hspecial
    have hbegins := hgrows.begins
    rw [hrule] at hbegins
    have hlaid := laid_seed truthful_truth (single_truth ht hfall) hfollows hbegins
    refine Operator.grouped_ofItems ho hlaid.fits (fun hgrows' => ?_) (hlaid.atLeast ht hfall)
    rw [← hfollows.grows, hself] at hgrows'
    cases hgrows'
  growth := by
    intro k alts a seed left left' b right hgrows hg hb hrank hlengthens kind hkind hspecial
    obtain ⟨hoffers, hself⟩ := ht.built.offers_growing hgrows.table (List.mem_append.1 hb)
    obtain ⟨hrule, o, ho, hfollows, rfl⟩ := rule_of_operatorKind ht hoffers hkind hspecial
    obtain ⟨n, hn⟩ := operand_of_grown ht hfall hrule hgrows hg
    rw [hrule] at hlengthens
    obtain ⟨hlaid, hhead⟩ := laid_growth truthful_truth (single_truth ht hfall) hfollows hself
      hn.items hlengthens
    refine Operator.grouped_ofItems ho hlaid.fits (fun _ x hx => ?_) (hlaid.atLeast ht hfall)
    rw [hhead] at hx
    cases hx
    rw [← hfollows.rank]
    exact hn.closedAbove hb hlengthens
  rule hgrows hspecial :=
    absurd hspecial (ht.makes (ht.built.offers_seed hgrows.table hgrows.mem).1).2.1

end Session

/-- **Precedence and associativity in the trees of the ready-made grammars.** Whether or not errors
are recovered from or allowed, the operands of every node of a tree are in accordance with precedence
and associativity. -/
theorem ParseTable.parse_grouped {table : ParseTable} (ht : Catalog.Shipped table)
    {recover strict : Bool} {text : List Char} {limit : Nat} {tree : Tree}
    (h : table.parse recover strict text limit = .ok tree) : ∀ n ∈ tree.root.walk, n.Grouped := by
  obtain ⟨μ, hroot⟩ := parse_eq_ok h
  exact (Session.guarded_grouped ht (Catalog.Shipped.falling ht)).parse hroot

set_option maxRecDepth 100000 in
/-- An assignment of a sum that ends in a product. -/
theorem ParseTable.parse_grouped_sum : ∃ table tree, Catalog.cTable.outcome = .ok table ∧
    table.parse true false ['a', '=', 'b', '+', 'c', '*', 'd', ';'] 20 = .ok tree ∧
    tree.root.walk.filterMap Node.level? =
      [Catalog.BaseC.Level.assignment, Catalog.BaseC.Level.additive,
        Catalog.BaseC.Level.multiplicative] ∧
    ∀ n ∈ tree.root.walk, n.Grouped := by
  have hrun : ((Catalog.cBuilt.parse true false
      ['a', '=', 'b', '+', 'c', '*', 'd', ';'] 20).toOption.any fun tree =>
        decide (tree.root.walk.filterMap Node.level? =
          [Catalog.BaseC.Level.assignment, Catalog.BaseC.Level.additive,
            Catalog.BaseC.Level.multiplicative])) = true := by
    decide +kernel
  obtain ⟨tree, htree, hlevels⟩ := Except.exists_of_any hrun
  exact ⟨_, tree, Catalog.cTable_eq, htree, of_decide_eq_true hlevels,
    parse_grouped (Or.inl Catalog.cTable_eq) htree⟩

end LayeredGrammar
