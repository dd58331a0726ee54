import LayeredGrammar.Proofs.Catalog.Shipped
import LayeredGrammar.Proofs.Engine.Formed
import LayeredGrammar.Proofs.Engine.Outline

/-!
# Operators and their operands

What precedence means for a syntax tree (`Node.Grouped`), and the operators of the ready-made grammars
(`Catalog.operators`): each with the children of the node it makes, its precedence, and the least
precedence it asks of the operand at its end. That these are the operators, that every other
alternative for an expression is a single operand, and that nothing else in the grammars makes nodes
of the same kinds, is checked of the declarations.

A node that an operator makes is grouped by precedence if its operands are
(`Operator.grouped_ofItems`): the first one must not end in an operand that was asked for with a
precedence that is not above the operator's own, and the last one must have the precedence that it was
asked for with.
-/

namespace LayeredGrammar

open Catalog.BaseC

/-! ## Precedence in trees -/

namespace Node

/-- The children that a field names. -/
def under (n : Node) (name : String) : List Node := (n.fieldAll? name).getD []

/-- The level of an operator with operands on both sides. -/
def level? (n : Node) : Option Int :=
  if n.kind = "assignment_expression" then some Level.assignment
  else if n.kind = "conditional_expression" then some Level.conditional
  else if n.kind = "binary_expression" then
    (n.under "operator").head?.bind fun o => binaryOperators.lookup o.kind
  else none

/-- The kinds of nodes with operands on both sides. -/
def infixKinds : List String :=
  ["binary_expression", "conditional_expression", "assignment_expression"]

/-- The kinds of nodes that begin with their operator and what is asked for on its right. -/
def prefixKinds : List String := ["cast_expression", "unary_expression", "pointer_expression"]

/-- The operands that stand after an operator, by the kind of the node and by the field. -/
def prefixOperands : List (String × String) :=
  [("unary_expression", "argument"), ("pointer_expression", "argument"),
   ("cast_expression", "value"), ("sizeof_expression", "value")]

/-- The operands that stand before an operator, by the kind of the node and by the field. -/
def postfixOperands : List (String × String) :=
  [("call_expression", "function"), ("subscript_expression", "argument"),
   ("field_expression", "argument")]

/-- The operands of a node are in accordance with precedence and associativity. -/
structure Grouped (n : Node) : Prop where
  /-- Binary operators group to the left, within one level. -/
  binary : n.kind = "binary_expression" → n.children ≠ [] → ∃ p, n.level? = some p ∧
    (∀ c ∈ n.under "left", ∀ q, c.level? = some q → p ≤ q) ∧
    ∀ c ∈ n.under "right", ∀ q, c.level? = some q → p < q
  /-- Assignments group to the right. -/
  assignment : n.kind = "assignment_expression" →
    ∀ c ∈ n.under "left", c.kind ≠ "assignment_expression"
  /-- So do conditional expressions. -/
  conditional : n.kind = "conditional_expression" →
    (∀ c ∈ n.under "condition", ∀ q, c.level? = some q → Level.conditional < q) ∧
    ∀ c ∈ n.under "alternative", c.kind ≠ "assignment_expression"
  /-- Operators before their operand bind closer than those between operands. -/
  prefixed : ∀ field, (n.kind, field) ∈ prefixOperands →
    ∀ c ∈ n.under field, c.kind ∉ infixKinds
  /-- Operators after their operand bind closest. -/
  postfixed : ∀ field, (n.kind, field) ∈ postfixOperands →
    ∀ c ∈ n.under field, c.kind ∉ infixKinds ∧ c.kind ∉ prefixKinds

/-- A child that was looked up has one of the positions of the field. -/
theorem exists_of_mem_mapM {children nodes : List Node} {indices : List Nat}
    (h : indices.mapM (children[·]?) = some nodes) {c : Node} (hc : c ∈ nodes) :
    ∃ i ∈ indices, children[i]? = some c := by
  induction indices generalizing nodes with
  | nil =>
    cases h
    cases hc
  | cons i indices ih =>
    rw [List.mapM_cons] at h
    obtain ⟨first, hfirst, h⟩ := Option.bind_eq_some_iff.1 h
    obtain ⟨rest, hrest, h⟩ := Option.bind_eq_some_iff.1 h
    cases h
    rcases List.mem_cons.1 hc with rfl | hc
    · exact ⟨i, List.mem_cons_self, hfirst⟩
    · obtain ⟨j, hj, hcj⟩ := ih hrest hc
      exact ⟨j, List.mem_cons_of_mem _ hj, hcj⟩

/-- The children that a field names are children. -/
theorem exists_of_mem_under {n c : Node} {name : String} (h : c ∈ n.under name) :
    ∃ i ∈ n.fieldIndices name, n.children[i]? = some c := by
  unfold under at h
  cases hall : n.fieldAll? name with
  | none =>
    rw [hall] at h
    cases h
  | some nodes =>
    rw [hall] at h
    exact exists_of_mem_mapM hall h

/-- The children that a field names in a node over items. -/
theorem mem_under_ofItems {kind name : String} {items : List Item} {start stop : Nat} {c : Node}
    (h : c ∈ (Node.ofItems kind items start stop).under name) :
    ∃ names, (c, names) ∈ items ∧ name ∈ names := by
  obtain ⟨i, hi, hc⟩ := exists_of_mem_under h
  unfold fieldIndices at hi
  rw [mem_sortBy, List.mem_eraseDups] at hi
  obtain ⟨⟨name', j⟩, hkept, rfl⟩ := List.mem_map.1 hi
  obtain ⟨hfield, hname⟩ := List.mem_filter.1 hkept
  obtain rfl : name' = name := eq_of_beq hname
  obtain ⟨⟨⟨node, names⟩, j'⟩, hx, hfield⟩ := List.mem_flatMap.1 hfield
  obtain ⟨name'', hname, heq⟩ := List.mem_map.1 hfield
  cases heq
  have hitem := List.mem_zipIdx_iff_getElem?.1 hx
  refine ⟨names, ?_, hname⟩
  have hnode : (items.map (·.1))[j]? = some c := hc
  rw [List.getElem?_map, hitem] at hnode
  cases hnode
  exact List.mem_of_getElem? hitem

/-- The least precedence with which the operand at the end of a node was asked for, by its kind and
level, if it ends in an operand. -/
def openLevelOf (kind : String) (level : Option Int) : Option Int :=
  if kind = "binary_expression" then level.map (· + 1)
  else if kind = "cast_expression" then some Level.cast
  else if kind = "unary_expression" ∨ kind = "pointer_expression" then some Level.unary
  else level

/-- The least precedence with which the operand at the end of a node was asked for. -/
def openLevel? (n : Node) : Option Int := openLevelOf n.kind n.level?

/-- A binary node has a level. -/
def Leveled (n : Node) : Prop := n.kind = "binary_expression" → ∃ l, n.level? = some l

/-- An operand that does not end in one that was asked for with the given precedence or a lower
one. -/
def ClosedAbove (n : Node) (r : Int) : Prop := n.Leveled ∧ ∀ b, n.openLevel? = some b → r < b

/-- An operand that has at least the given level, if it has one. -/
def AtLeast (n : Node) (r : Int) : Prop := n.Leveled ∧ ∀ l, n.level? = some l → r ≤ l

variable {n : Node} {l r : Int}

theorem lookup_bounds {op : String} (h : binaryOperators.lookup op = some l) : 3 ≤ l ∧ l ≤ 12 := by
  obtain ⟨before, after, hsplit, _⟩ := List.lookup_eq_some_iff.1 h
  have hall : ∀ op ∈ binaryOperators, 3 ≤ op.2 ∧ op.2 ≤ 12 := by decide
  exact hall (op, l) (hsplit ▸ List.mem_append_right _ List.mem_cons_self)

theorem level?_bounds (h : n.level? = some l) :
    1 ≤ l ∧ l ≤ 12 ∧ (n.kind = "binary_expression" → 3 ≤ l) := by
  unfold level? at h
  split at h
  · rename_i hkind
    cases h
    exact ⟨by decide, by decide, fun hbinary => absurd (hkind.symm.trans hbinary) (by decide)⟩
  · split at h
    · rename_i hkind
      cases h
      exact ⟨by decide, by decide, fun hbinary => absurd (hkind.symm.trans hbinary) (by decide)⟩
    · split at h
      · obtain ⟨o, _, hlookup⟩ := Option.bind_eq_some_iff.1 h
        have := lookup_bounds hlookup
        omega
      · cases h

/-- A node with a level ends in an operand that was asked for with that level, or with the next one if
the operator is binary. -/
theorem openLevel?_of_level? (h : n.level? = some l) : ∃ b, n.openLevel? = some b ∧ b ≤ l + 1 ∧
    (n.kind ≠ "binary_expression" → b = l) := by
  unfold openLevel? openLevelOf
  rw [h]
  by_cases hbinary : n.kind = "binary_expression"
  · rw [if_pos hbinary]
    exact ⟨l + 1, rfl, Int.le_refl _, fun hne => absurd hbinary hne⟩
  · have hlevel := h
    unfold level? at hlevel
    rw [if_neg hbinary]
    split at hlevel
    · rename_i hkind
      rw [hkind]
      exact ⟨l, rfl, by omega, fun _ => rfl⟩
    · split at hlevel
      · rename_i hkind
        rw [hkind]
        exact ⟨l, rfl, by omega, fun _ => rfl⟩
      · cases hlevel

theorem Leveled.exists_level (h : n.Leveled) (hkind : n.kind ∈ infixKinds) :
    ∃ l, n.level? = some l := by
  unfold infixKinds at hkind
  simp only [List.mem_cons, List.not_mem_nil, or_false] at hkind
  rcases hkind with hkind | hkind | hkind
  · exact h hkind
  · refine ⟨Level.conditional, ?_⟩
    unfold level?
    rw [hkind]
    rfl
  · refine ⟨Level.assignment, ?_⟩
    unfold level?
    rw [hkind]
    rfl

/-- An operand with a level that does not end in a looser one has no lower level. -/
theorem ClosedAbove.le_level (h : n.ClosedAbove r) (hl : n.level? = some l) :
    r ≤ l ∧ (n.kind ≠ "binary_expression" → r < l) := by
  obtain ⟨b, hb, hle, heq⟩ := openLevel?_of_level? hl
  have := h.2 b hb
  constructor
  · omega
  · intro hne
    have := heq hne
    omega

theorem ClosedAbove.kind_ne_assignment (h : n.ClosedAbove Level.assignment) :
    n.kind ≠ "assignment_expression" := by
  intro hkind
  have hlevel : n.level? = some Level.assignment := by
    unfold level?
    rw [if_pos hkind]
  have hne : n.kind ≠ "binary_expression" := by
    rw [hkind]
    decide
  exact Int.lt_irrefl _ ((h.le_level hlevel).2 hne)

theorem AtLeast.kind_ne_assignment (h : n.AtLeast Level.conditional) :
    n.kind ≠ "assignment_expression" := by
  intro hkind
  have hlevel : n.level? = some Level.assignment := by
    unfold level?
    rw [if_pos hkind]
  exact absurd (h.2 _ hlevel) (by decide)

theorem AtLeast.kind_not_infix (h : n.AtLeast Level.cast) : n.kind ∉ infixKinds := by
  intro hkind
  obtain ⟨l, hl⟩ := h.1.exists_level hkind
  have := h.2 l hl
  have := (level?_bounds hl).2.1
  unfold Level.cast at *
  omega

theorem ClosedAbove.kind_not_open (h : n.ClosedAbove Level.postfixed) :
    n.kind ∉ infixKinds ∧ n.kind ∉ prefixKinds := by
  constructor
  · intro hkind
    obtain ⟨l, hl⟩ := h.1.exists_level hkind
    have := (h.le_level hl).1
    have := (level?_bounds hl).2.1
    unfold Level.postfixed at *
    omega
  · intro hkind
    have hopen : ∀ kind ∈ prefixKinds, ∀ level, ∃ b ≤ Level.postfixed,
        openLevelOf kind level = some b := by
      intro kind hkind level
      unfold prefixKinds at hkind
      simp only [List.mem_cons, List.not_mem_nil, or_false] at hkind
      rcases hkind with rfl | rfl | rfl
      · exact ⟨Level.cast, by decide, rfl⟩
      · exact ⟨Level.unary, by decide, rfl⟩
      · exact ⟨Level.unary, by decide, rfl⟩
    obtain ⟨b, hle, hb⟩ := hopen n.kind hkind n.level?
    have := h.2 b hb
    omega

end Node

/-! ## Operators -/

/-- What is known of the nodes that an alternative of a rule makes. -/
structure Operator where
  kind : String
  children : List ItemOutline
  rank : Int
  /-- The least precedence of the operand at the end. -/
  rightMin : Int
  /-- Whether the first child is an operand. -/
  grows : Bool
  /-- Whether the last child is an operand. -/
  closes : Bool

/-- Whether an alternative ends with the rule itself. -/
def Alternative.endsWithSelf (a : Alternative) : Bool :=
  (a.elements.getLast?.bind (·.selfFields)).isSome

/-- An alternative makes the nodes of an operator. -/
structure Alternative.Follows (a : Alternative) (o : Operator) : Prop where
  kind : a.kind = some o.kind
  children : a.elements.map Element.outline? = o.children.map some
  rank : a.rank = o.rank
  rightMin : a.rightMin = o.rightMin
  grows : a.startsWithSelf = o.grows
  closes : a.endsWithSelf = o.closes

instance (a : Alternative) (o : Operator) : Decidable (a.Follows o) :=
  decidable_of_iff
    (a.kind = some o.kind ∧ a.elements.map Element.outline? = o.children.map some ∧
      a.rank = o.rank ∧ a.rightMin = o.rightMin ∧ a.startsWithSelf = o.grows ∧
      a.endsWithSelf = o.closes)
    ⟨fun ⟨h1, h2, h3, h4, h5, h6⟩ => ⟨h1, h2, h3, h4, h5, h6⟩,
      fun ⟨h1, h2, h3, h4, h5, h6⟩ => ⟨h1, h2, h3, h4, h5, h6⟩⟩

/-- An alternative that is a single operand, of a kind that is none of the given ones. -/
def Alternative.IsOperand (kinds : List String) (a : Alternative) : Prop :=
  a.kind = none ∧ ∃ kind ∈ (a.elements.map Element.outline?).head?.join.bind (·.1),
    a.elements.map Element.outline? = [some (some kind, [])] ∧ kind ∉ kinds

instance (kinds : List String) (a : Alternative) : Decidable (a.IsOperand kinds) :=
  inferInstanceAs (Decidable (_ ∧ ∃ kind ∈ (a.elements.map Element.outline?).head?.join.bind (·.1),
    a.elements.map Element.outline? = [some (some kind, [])] ∧ kind ∉ kinds))

namespace Operator

/-- A field can only name the first child, which is an operand. -/
def LeadOnly (o : Operator) (field : String) : Prop :=
  o.grows = true ∧ ∀ c ∈ o.children.tail, field ∉ c.2

/-- A field can only name the last child, if that is an operand, or none. -/
def LastOnly (o : Operator) (field : String) : Prop :=
  (∀ c ∈ o.children.reverse.tail, field ∉ c.2) ∧ (o.closes = true ∨ ∀ c ∈ o.children, field ∉ c.2)

instance (o : Operator) (field : String) : Decidable (o.LeadOnly field) :=
  inferInstanceAs (Decidable (_ ∧ _))

instance (o : Operator) (field : String) : Decidable (o.LastOnly field) :=
  inferInstanceAs (Decidable (_ ∧ _))

end Operator

namespace Catalog

/-- A binary operator. -/
def binaryOperator (op : String × Int) : Operator :=
  ⟨"binary_expression", [(none, ["left"]), (some op.1, ["operator"]), (none, ["right"])],
    op.2, op.2 + 1, true, true⟩

/-- The operators that are not binary. -/
def otherOperators : List Operator :=
  [
    ⟨"assignment_expression", [(none, ["left"]), (none, ["operator"]), (none, ["right"])],
      Level.assignment, Level.assignment, true, true⟩,
    ⟨"conditional_expression",
      [(none, ["condition"]), (some "?", []), (none, ["consequence"]), (some ":", []),
        (none, ["alternative"])],
      Level.conditional, Level.conditional, true, true⟩,
    ⟨"cast_expression",
      [(some "(", []), (some "type_descriptor", ["type"]), (some ")", []), (none, ["value"])],
      Level.cast, Level.cast, false, true⟩,
    ⟨"unary_expression", [(none, ["operator"]), (none, ["argument"])],
      Level.unary, Level.unary, false, true⟩,
    ⟨"pointer_expression", [(none, ["operator"]), (none, ["argument"])],
      Level.unary, Level.unary, false, true⟩,
    ⟨"update_expression", [(none, ["operator"]), (none, ["argument"])],
      Level.unary, Level.unary, false, true⟩,
    ⟨"sizeof_expression", [(some "sizeof", []), (none, ["value"])],
      Level.unary, Level.unary, false, true⟩,
    ⟨"sizeof_expression",
      [(some "sizeof", []), (some "(", []), (some "type_descriptor", ["type"]), (some ")", [])],
      Level.unary, Level.unary, false, false⟩,
    ⟨"update_expression", [(none, ["argument"]), (none, ["operator"])],
      Level.postfixed, Level.postfixed + 1, true, false⟩,
    ⟨"call_expression", [(none, ["function"]), (some "argument_list", ["arguments"])],
      Level.postfixed, Level.postfixed + 1, true, false⟩,
    ⟨"subscript_expression",
      [(none, ["argument"]), (some "[", []), (none, ["index"]), (some "]", [])],
      Level.postfixed, Level.postfixed + 1, true, false⟩,
    ⟨"field_expression",
      [(none, ["argument"]), (none, ["operator"]), (some "field_identifier", ["field"])],
      Level.postfixed, Level.postfixed + 1, true, false⟩ ]

/-- The operators of the ready-made grammars. -/
def operators : List Operator := binaryOperators.map binaryOperator ++ otherOperators

/-- The kinds of the nodes that operators make. -/
def operatorKinds : List String := operators.map (·.kind)

/-! ## Certificates -/

set_option maxRecDepth 100000 in
/-- Expressions are made of operators and single operands, and operators belong to expressions. -/
theorem operators_declared : ∀ d ∈ declared,
    let a := Alternative.ofProduction d.1 0 false d.2
    (if d.1 = "_expression" then a.IsOperand operatorKinds ∨ ∃ o ∈ operators, a.Follows o
      else ∀ kind ∈ a.kind, kind ∉ operatorKinds) ∧
    d.1 ∉ operatorKinds ∧ ∀ e ∈ a.elements, ∀ kind ∈ e.body.kinds, kind ∉ operatorKinds := by
  decide +kernel

/-- What the alternatives of a rule make. -/
theorem Shipped.makes {t : ParseTable} (h : Shipped t) {rule : String} {a : Alternative}
    (ha : t.Offers rule a) :
    (if rule = "_expression" then a.IsOperand operatorKinds ∨ ∃ o ∈ operators, a.Follows o
      else ∀ kind ∈ a.kind, kind ∉ operatorKinds) ∧
    rule ∉ operatorKinds ∧ ∀ e ∈ a.elements, ∀ kind ∈ e.body.kinds, kind ∉ operatorKinds := by
  obtain ⟨body, index, layered, p, hb, hp, rfl⟩ := ha
  obtain ⟨hmakes, hrule, helements⟩ := operators_declared _ (h.mem_declared hb hp)
  refine ⟨?_, hrule, helements⟩
  split at hmakes
  · rename_i heq
    rw [if_pos heq]
    refine hmakes.imp id ?_
    rintro ⟨o, ho, hfollows⟩
    -- neither the position nor the layer of an alternative plays a part
    exact ⟨o, ho, ⟨hfollows.kind, hfollows.children, hfollows.rank, hfollows.rightMin,
      hfollows.grows, hfollows.closes⟩⟩
  · rename_i hne
    rw [if_neg hne]
    exact hmakes

/-- The operands on the left of operators. -/
def leadOperands : List (String × String) :=
  [("binary_expression", "left"), ("assignment_expression", "left"),
   ("conditional_expression", "condition")] ++ Node.postfixOperands

/-- The operands on the right of operators. -/
def lastOperands : List (String × String) :=
  [("binary_expression", "right"), ("conditional_expression", "alternative")] ++
    Node.prefixOperands

theorem leadOnly_operators : ∀ o ∈ operators, ∀ e ∈ leadOperands, o.kind = e.1 → o.LeadOnly e.2 := by
  decide

theorem lastOnly_operators : ∀ o ∈ operators, ∀ e ∈ lastOperands, o.kind = e.1 → o.LastOnly e.2 := by
  decide

/-- The precedences of the operators. -/
theorem ranks_operators : ∀ o ∈ operators,
    (o.kind = "binary_expression" → o.rightMin = o.rank + 1) ∧
    (o.kind = "assignment_expression" → o.rank = Level.assignment) ∧
    (o.kind = "conditional_expression" →
      o.rank = Level.conditional ∧ o.rightMin = Level.conditional) ∧
    (∀ e ∈ Node.prefixOperands, o.kind = e.1 → Level.cast ≤ o.rightMin) ∧
    ∀ e ∈ Node.postfixOperands, o.kind = e.1 → o.rank = Level.postfixed := by
  decide

end Catalog

/-! ## Other nodes -/

namespace Node

open Catalog

variable {n : Node}

theorem kind_ne_of_not_operator (h : n.kind ∉ operatorKinds) {kind : String}
    (hkind : operatorKinds.contains kind = true) : n.kind ≠ kind :=
  fun heq => h (heq ▸ List.contains_iff_mem.1 hkind)

/-- Nodes that no operator makes have no level, and end in no operand. -/
theorem level?_eq_none (h : n.kind ∉ operatorKinds) : n.level? = none := by
  unfold level?
  rw [if_neg (kind_ne_of_not_operator h (by decide)), if_neg (kind_ne_of_not_operator h (by decide)),
    if_neg (kind_ne_of_not_operator h (by decide))]

theorem openLevel?_eq_none (h : n.kind ∉ operatorKinds) : n.openLevel? = none := by
  unfold openLevel? openLevelOf
  rw [level?_eq_none h, if_neg (kind_ne_of_not_operator h (by decide)),
    if_neg (kind_ne_of_not_operator h (by decide)), if_neg]
  rintro (hkind | hkind) <;> exact kind_ne_of_not_operator h (by decide) hkind

theorem grouped_of_not_operator (h : n.kind ∉ operatorKinds) : n.Grouped := by
  have hfields : ∀ e ∈ prefixOperands ++ postfixOperands, operatorKinds.contains e.1 = true := by
    decide
  refine ⟨fun hkind => ?_, fun hkind => ?_, fun hkind => ?_, fun field hfield => ?_,
    fun field hfield => ?_⟩
  · exact absurd hkind (kind_ne_of_not_operator h (by decide))
  · exact absurd hkind (kind_ne_of_not_operator h (by decide))
  · exact absurd hkind (kind_ne_of_not_operator h (by decide))
  · have hkind := hfields _ (List.mem_append_left _ hfield)
    exact absurd rfl (kind_ne_of_not_operator h hkind)
  · have hkind := hfields _ (List.mem_append_right _ hfield)
    exact absurd rfl (kind_ne_of_not_operator h hkind)

theorem grouped_of_childless (h : n.children = []) (hfields : n.fields = []) : n.Grouped := by
  have hunder : ∀ field, n.under field = [] := by
    intro field
    unfold under fieldAll? fieldIndices
    rw [hfields]
    rfl
  refine ⟨fun _ hne => absurd h hne, fun _ => ?_, fun _ => ⟨?_, ?_⟩, fun field _ => ?_,
    fun field _ => ?_⟩ <;> (rw [hunder]; exact nofun)

end Node

/-! ## Nodes of operators -/

namespace Operator

open Catalog

/-- The level of the nodes that an operator makes. -/
def level? (o : Operator) : Option Int := if o.kind ∈ Node.infixKinds then some o.rank else none

variable {o : Operator} {items : List Item} {start stop : Nat}

/-- The nodes that operators make have the level of the operator. -/
theorem level?_ofItems (ho : o ∈ operators) (hitems : List.Forall₂ ItemOutline.Fits o.children items) :
    (Node.ofItems o.kind items start stop).level? = o.level? := by
  rcases List.mem_append.1 ho with ho | ho
  · obtain ⟨op, hop, rfl⟩ := List.mem_map.1 ho
    -- the three children are at hand
    obtain ⟨⟨left, _⟩, _, ⟨hleft, _⟩, hrest, rfl⟩ := List.forall₂_cons_left_iff.1 hitems
    obtain ⟨⟨operator, _⟩, _, ⟨hnames, hkind⟩, hrest', rfl⟩ := List.forall₂_cons_left_iff.1 hrest
    obtain ⟨⟨right, _⟩, _, ⟨hright, _⟩, hrest'', rfl⟩ := List.forall₂_cons_left_iff.1 hrest'
    obtain rfl := List.forall₂_nil_left_iff.1 hrest''
    have hlookup : ∀ op ∈ binaryOperators, binaryOperators.lookup op.1 = some op.2 := by decide
    have hunder : (Node.ofItems "binary_expression"
        [(left, ["left"]), (operator, ["operator"]), (right, ["right"])] start stop).under
          "operator" = [operator] := rfl
    cases hleft
    cases hnames
    cases hright
    show ((Node.ofItems "binary_expression" [(left, ["left"]), (operator, ["operator"]),
      (right, ["right"])] start stop).under "operator").head?.bind
        (fun o => binaryOperators.lookup o.kind) = some op.2
    rw [hunder, List.head?_cons, Option.bind_some, show operator.kind = op.1 from hkind _ rfl]
    exact hlookup op hop
  · have hall : ∀ o ∈ otherOperators, o.kind ≠ "binary_expression" ∧
        (if o.kind = "assignment_expression" then some Level.assignment
          else if o.kind = "conditional_expression" then some Level.conditional
          else none) = o.level? := by decide
    obtain ⟨hbinary, hlevel⟩ := hall o ho
    rw [← hlevel]
    unfold Node.level?
    rw [show (Node.ofItems o.kind items start stop).kind = o.kind from rfl, if_neg hbinary]

/-- Operators with a level start with an operand. -/
theorem grows_of_level? (ho : o ∈ operators) {l : Int} (h : o.level? = some l) :
    o.grows = true ∧ o.rank = l := by
  have hall : ∀ o ∈ operators, ∀ l ∈ o.level?, o.grows = true ∧ o.rank = l := by decide
  exact hall o ho l h

/-- The operand at the end of an operator's node was asked for by the operator. -/
theorem closes_of_openLevel? (ho : o ∈ operators)
    (hitems : List.Forall₂ ItemOutline.Fits o.children items) {b : Int}
    (h : (Node.ofItems o.kind items start stop).openLevel? = some b) :
    o.closes = true ∧ o.rightMin = b := by
  have hall : ∀ o ∈ operators, ∀ b ∈ Node.openLevelOf o.kind o.level?,
      o.closes = true ∧ o.rightMin = b := by decide
  unfold Node.openLevel? at h
  rw [level?_ofItems ho hitems] at h
  exact hall o ho b h

theorem leveled_ofItems (ho : o ∈ operators)
    (hitems : List.Forall₂ ItemOutline.Fits o.children items) :
    (Node.ofItems o.kind items start stop).Leveled := by
  intro hkind
  refine ⟨o.rank, ?_⟩
  rw [level?_ofItems ho hitems]
  unfold level?
  rw [show o.kind = "binary_expression" from hkind]
  rfl

theorem fits_of_mem {os : List ItemOutline} (hitems : List.Forall₂ ItemOutline.Fits os items)
    {x : Item} (hx : x ∈ items) : ∃ o ∈ os, o.Fits x := by
  induction hitems with
  | nil => cases hx
  | cons hfits _ ih =>
    rcases List.mem_cons.1 hx with rfl | hx
    · exact ⟨_, List.mem_cons_self, hfits⟩
    · obtain ⟨o, ho, hfits⟩ := ih hx
      exact ⟨o, List.mem_cons_of_mem _ ho, hfits⟩

/-- An item with a name that only the first one can have is the first one. -/
theorem head?_of_mem {os : List ItemOutline} {field : String} (h : ∀ o ∈ os.tail, field ∉ o.2)
    (hitems : List.Forall₂ ItemOutline.Fits os items) {x : Item} (hx : x ∈ items)
    (hfield : field ∈ x.2) : items.head? = some x := by
  cases hitems with
  | nil => cases hx
  | cons _ hitems =>
    rcases List.mem_cons.1 hx with rfl | hx
    · rfl
    · obtain ⟨o, ho, hfits⟩ := fits_of_mem hitems hx
      exact absurd (hfits.1 ▸ hfield) (h o ho)

/-- The operand on the left, by the name that it has in the operator, is closed as the operator asks. -/
theorem closedAbove_ofItems (ho : o ∈ operators)
    (hitems : List.Forall₂ ItemOutline.Fits o.children items)
    (hlead : o.grows = true → ∀ x ∈ items.head?, x.1.ClosedAbove o.rank) {e : String × String}
    (he : e ∈ leadOperands) (hkind : o.kind = e.1) {c : Node}
    (hc : c ∈ (Node.ofItems o.kind items start stop).under e.2) : c.ClosedAbove o.rank := by
  obtain ⟨names, hx, hname⟩ := Node.mem_under_ofItems hc
  obtain ⟨hgrows, htail⟩ := leadOnly_operators o ho e he hkind
  exact hlead hgrows _ (head?_of_mem htail hitems hx hname)

/-- The operand on the right has at least the precedence that the operator asks for. -/
theorem atLeast_ofItems (ho : o ∈ operators)
    (hitems : List.Forall₂ ItemOutline.Fits o.children items)
    (hlast : o.closes = true → ∀ x ∈ items.getLast?, x.1.AtLeast o.rightMin) {e : String × String}
    (he : e ∈ lastOperands) (hkind : o.kind = e.1) {c : Node}
    (hc : c ∈ (Node.ofItems o.kind items start stop).under e.2) : c.AtLeast o.rightMin := by
  obtain ⟨names, hx, hname⟩ := Node.mem_under_ofItems hc
  obtain ⟨htail, hcloses⟩ := lastOnly_operators o ho e he hkind
  have hcloses : o.closes = true := by
    refine hcloses.resolve_right fun hnone => ?_
    obtain ⟨child, hchild, hfits⟩ := fits_of_mem hitems hx
    exact hnone child hchild (hfits.1 ▸ hname)
  have hfirst := head?_of_mem htail (List.rel_reverse hitems) (List.mem_reverse.2 hx) hname
  rw [List.head?_reverse] at hfirst
  exact hlast hcloses _ hfirst

/-- **What an operator makes is grouped by precedence**, if its operands on both sides are as it asks
for them. -/
theorem grouped_ofItems (ho : o ∈ operators)
    (hitems : List.Forall₂ ItemOutline.Fits o.children items)
    (hlead : o.grows = true → ∀ x ∈ items.head?, x.1.ClosedAbove o.rank)
    (hlast : o.closes = true → ∀ x ∈ items.getLast?, x.1.AtLeast o.rightMin) :
    (Node.ofItems o.kind items start stop).Grouped := by
  have hleft : ∀ e ∈ leadOperands, o.kind = e.1 →
      ∀ c ∈ (Node.ofItems o.kind items start stop).under e.2, c.ClosedAbove o.rank :=
    fun _ he hkind _ hc => closedAbove_ofItems ho hitems hlead he hkind hc
  have hright : ∀ e ∈ lastOperands, o.kind = e.1 →
      ∀ c ∈ (Node.ofItems o.kind items start stop).under e.2, c.AtLeast o.rightMin :=
    fun _ he hkind _ hc => atLeast_ofItems ho hitems hlast he hkind hc
  obtain ⟨hbinary, hassignment, hconditional, hpre, hpost⟩ := ranks_operators o ho
  refine ⟨fun hkind _ => ⟨o.rank, ?_, ?_, ?_⟩, fun hkind c hc => ?_,
    fun hkind => ⟨fun c hc q hq => ?_, fun c hc => ?_⟩, fun field hfield c hc => ?_,
    fun field hfield c hc => ?_⟩
  · rw [level?_ofItems ho hitems]
    unfold level?
    rw [show o.kind = "binary_expression" from hkind]
    rfl
  · intro c hc q hq
    exact ((hleft ("binary_expression", "left") (by decide) hkind c hc).le_level hq).1
  · intro c hc q hq
    have hmin := (hright ("binary_expression", "right") (by decide) hkind c hc).2 q hq
    have := hbinary hkind
    omega
  · have hclosed := hleft ("assignment_expression", "left") (by decide) hkind c hc
    rw [hassignment hkind] at hclosed
    exact hclosed.kind_ne_assignment
  · have hclosed := hleft ("conditional_expression", "condition") (by decide) hkind c hc
    rw [(hconditional hkind).1] at hclosed
    by_cases hkind' : c.kind = "binary_expression"
    · have := (Node.level?_bounds hq).2.2 hkind'
      unfold Level.conditional
      omega
    · exact (hclosed.le_level hq).2 hkind'
  · have hmin := hright ("conditional_expression", "alternative") (by decide) hkind c hc
    rw [(hconditional hkind).2] at hmin
    exact hmin.kind_ne_assignment
  · have hmin := hright (o.kind, field) (List.mem_append_right _ hfield) rfl c hc
    have hle := hpre _ hfield rfl
    exact Node.AtLeast.kind_not_infix ⟨hmin.1, fun l hl => Int.le_trans hle (hmin.2 l hl)⟩
  · have hclosed := hleft (o.kind, field) (List.mem_append_right _ hfield) rfl c hc
    rw [hpost _ hfield rfl] at hclosed
    exact hclosed.kind_not_open

end Operator

end LayeredGrammar
