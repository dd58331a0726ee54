import LayeredGrammar.Proofs.Catalog.Shipped
import LayeredGrammar.Proofs.Engine.Ahead
import LayeredGrammar.Proofs.Engine.Plans
import LayeredGrammar.Proofs.Pattern.Printing

/-!
# Chains of operators

A chain is a name, then any number of links: an operator with two operands and one more name, all of
them a space apart. Its reference tree is split at the last of the weakest operators, `weakest?`, and
so are the chains on either side.

`Catalog.Expressions` lists what the engine reads of the C grammar where a chain stands. All of it is
decided by a look at the table (`Catalog.expressions_c`).
-/

namespace LayeredGrammar

namespace OperatorChain

open Catalog

/-- An identifier of the C grammar that is not reserved. -/
structure Name where
  text : String
  isName : Pattern.isName text = true
  free : text ∉ BaseC.reserved

/-- A two-operand operator of the C grammar and the name on its right. -/
structure Link where
  op : String
  level : Int
  declared : (op, level) ∈ BaseC.binaryOperators
  name : Name

/-- The characters of links, with a space before each operator and before each name. -/
def spell : List Link → List Char
  | [] => []
  | l :: ls => ' ' :: (l.op.toList ++ ' ' :: (l.name.text.toList ++ spell ls))

/-- The characters of a chain. -/
def chars (first : Name) (links : List Link) : List Char := first.text.toList ++ spell links

theorem spell_append (ks ls : List Link) : spell (ks ++ ls) = spell ks ++ spell ls := by
  induction ks with
  | nil => rfl
  | cons k ks ih => simp [spell, ih]

theorem length_le_spell (links : List Link) : links.length ≤ (spell links).length := by
  induction links with
  | nil => exact Nat.le_refl 0
  | cons l ls ih =>
    simp only [spell, List.length_cons, List.length_append]
    omega

/-! ## The weakest operator -/

/-- The last of the weakest links, and the links before and after it. -/
def weakest? : List Link → Option (List Link × Link × List Link)
  | [] => none
  | l :: ls =>
    match weakest? ls with
    | some (before, w, after) =>
      if w.level ≤ l.level then some (l :: before, w, after) else some ([], l, ls)
    | none => some ([], l, ls)

variable {links before after : List Link} {w : Link}

theorem weakest?_eq_none (h : weakest? links = none) : links = [] := by
  cases links with
  | nil => rfl
  | cons l ls =>
    simp only [weakest?] at h
    split at h
    · split at h <;> cases h
    · cases h

/-- No link before the chosen one is weaker, and all links after it are stronger. -/
theorem of_weakest? (h : weakest? links = some (before, w, after)) :
    links = before ++ w :: after ∧ (∀ b ∈ before, w.level ≤ b.level) ∧
      ∀ a ∈ after, w.level < a.level := by
  induction links generalizing before w after with
  | nil => cases h
  | cons l ls ih =>
    simp only [weakest?] at h
    split at h
    · rename_i before' w' after' hls
      obtain ⟨rfl, hbefore, hafter⟩ := ih hls
      split at h
      · rename_i hle
        cases h
        exact ⟨rfl, List.forall_mem_cons.2 ⟨hle, hbefore⟩, hafter⟩
      · rename_i hlt
        cases h
        refine ⟨rfl, by simp, fun a ha => ?_⟩
        have hw : w'.level ≤ a.level := by
          rcases List.mem_append.1 ha with ha | ha
          · exact hbefore a ha
          · rcases List.mem_cons.1 ha with rfl | ha
            · exact Int.le_refl _
            · exact Int.le_of_lt (hafter a ha)
        omega
    · rename_i hls
      cases h
      rw [weakest?_eq_none hls]
      exact ⟨rfl, by simp, by simp⟩

theorem length_lt_of_weakest? (h : weakest? links = some (before, w, after)) :
    before.length < links.length ∧ after.length < links.length := by
  rw [(of_weakest? h).1, List.length_append, List.length_cons]
  omega

/-- There is only one such link. -/
theorem weakest?_append (hbefore : ∀ b ∈ before, w.level ≤ b.level)
    (hafter : ∀ a ∈ after, w.level < a.level) :
    weakest? (before ++ w :: after) = some (before, w, after) := by
  induction before with
  | nil =>
    simp only [List.nil_append, weakest?]
    split
    · rename_i before' w' after' hls
      have hw' : w.level < w'.level := hafter w' (by simp [(of_weakest? hls).1])
      exact if_neg (by omega)
    · rfl
  | cons b before ih =>
    obtain ⟨hb, hbefore⟩ := List.forall_mem_cons.1 hbefore
    simp only [List.cons_append, weakest?, ih hbefore, if_pos hb]

/-! ## Reference trees -/

/-- An operator between two operands that lie a space away from it. -/
def joined (left : Node) (op : String) (right : Node) : Node :=
  .ofItems "binary_expression"
    [(left, ["left"]),
      (.leaf op (left.stop + 1) (left.stop + 1 + op.length) false, ["operator"]),
      (right, ["right"])]
    left.start right.stop

/-- The reference tree of a chain that starts at a position. -/
def tree (start : Nat) (first : Name) (links : List Link) : Node :=
  match _h : weakest? links with
  | none => .leaf "identifier" start (start + first.text.length) true
  | some (before, w, after) =>
    let left := tree start first before
    joined left w.op (tree (left.stop + 1 + w.op.length + 1) w.name after)
termination_by links.length
decreasing_by
  · exact (length_lt_of_weakest? _h).1
  · exact (length_lt_of_weakest? _h).2

theorem tree_nil (start : Nat) (first : Name) :
    tree start first [] = .leaf "identifier" start (start + first.text.length) true := by
  rw [tree]
  rfl

/-- A chain is split at its weakest operator. -/
theorem tree_append (start : Nat) (first : Name) (hbefore : ∀ b ∈ before, w.level ≤ b.level)
    (hafter : ∀ a ∈ after, w.level < a.level) :
    tree start first (before ++ w :: after) = joined (tree start first before) w.op
      (tree ((tree start first before).stop + 1 + w.op.length + 1) w.name after) := by
  have hweakest := weakest?_append hbefore hafter
  rw [tree]
  split
  · rename_i hnone
    rw [hweakest] at hnone
    cases hnone
  · rename_i hsome
    rw [hweakest] at hsome
    cases hsome
    rfl

/-- A chain whose first operator is the weakest. -/
theorem tree_cons (start : Nat) (first : Name) (hafter : ∀ a ∈ after, w.level < a.level) :
    tree start first (w :: after) = joined (tree start first []) w.op
      (tree ((tree start first []).stop + 1 + w.op.length + 1) w.name after) := by
  have hbefore : ∀ b ∈ ([] : List Link), w.level ≤ b.level := List.forall_mem_nil _
  exact tree_append start first hbefore hafter

/-- The reference tree of a chain covers the chain. -/
theorem tree_span (start : Nat) (first : Name) (links : List Link) :
    (tree start first links).start = start ∧
      (tree start first links).stop = start + (chars first links).length := by
  match h : weakest? links with
  | none =>
    rw [weakest?_eq_none h, tree_nil]
    exact ⟨rfl, by simp [Node.leaf, chars, spell, String.length_toList]⟩
  | some (before, w, after) =>
    obtain ⟨rfl, hbefore, hafter⟩ := of_weakest? h
    have hleft := tree_span start first before
    have hright := tree_span ((tree start first before).stop + 1 + w.op.length + 1) w.name after
    rw [tree_append start first hbefore hafter]
    refine ⟨hleft.1, hright.2.trans ?_⟩
    rw [hleft.2]
    simp only [chars, spell_append, spell, List.length_append, List.length_cons, String.length_toList]
    omega
termination_by links.length
decreasing_by
  · exact (length_lt_of_weakest? (by assumption)).1
  · exact (length_lt_of_weakest? (by assumption)).2

end OperatorChain

/-! ## Names in the C grammar -/

namespace Pattern

/-- The characters that can begin a name. -/
def nameStarts : List Char := ((List.range 128).map Char.ofNat).filter isNameStart

theorem mem_nameStarts {c : Char} (h : isNameStart c = true) : c ∈ nameStarts := by
  have hlt : c.toNat < 128 := by
    have hcases := toNat_of_isNameStart h
    omega
  exact List.mem_filter.2 ⟨List.mem_map.2 ⟨c.toNat, List.mem_range.2 hlt, Char.ofNat_toNat c⟩, h⟩

end Pattern

namespace Catalog

open Pattern (nameStarts)

/-- How the identifiers of the C grammar are written. -/
def identifier : Token := .declare "[A-Za-z_]\\w*"

/-- The first character of an identifier. -/
def identifierStart : Regex := .oneOf false [.range 'A' 'Z', .range 'a' 'z', .range '_' '_']

theorem identifier_eq :
    identifier = ⟨"[A-Za-z_]\\w*", false, some (.seq identifierStart (.loop .word none true))⟩ := by
  decide +kernel

/-! ## Alternatives of expressions -/

/-- The alternatives of an expression. -/
def expression : RuleAlternatives :=
  .ofBody "_expression" BaseC.expression BaseC.expression.alternatives.length

/-- The alternative of an operator with two operands, at a position among those of an expression. -/
def binary (index : Nat) (op : String × Int) : Alternative :=
  .ofProduction "_expression" index false (BaseC.binaryAlt op)

theorem binary_elements (index : Nat) (op : String × Int) : (binary index op).elements =
    [⟨.field "left" (.ref "_expression"), some ["left"]⟩, ⟨.field "operator" (.lit op.1), none⟩,
      ⟨.field "right" (.ref "_expression"), some ["right"]⟩] := rfl

theorem rightMin_binary (index : Nat) (op : String × Int) :
    (binary index op).rightMin = op.2 + 1 := rfl

theorem extended_binary (index : Nat) (op : String × Int) (left right : Match) :
    Session.extended (binary index op) left right =
      ((left.withFields ["left"]).join right).wrap "binary_expression" := rfl

/-- An expression that is a name. -/
def named : Alternative := .ofProduction "_expression" 0 false (.ref "identifier")

/-- The other tokens that an expression can be. -/
def otherTokens : List String := ["number_literal", "string_literal", "char_literal"]

/-- The rules that an expression can be. -/
def otherRules : List String :=
  ["concatenated_string", "true", "false", "null", "parenthesized_expression"]

/-- What can stand behind an operand of a chain: an operator or nothing. -/
def followers : List (Option String) := none :: BaseC.binaryOperators.map (some ·.1)

/-- A place where a name stands. -/
def atName : Outlook := ⟨none, otherTokens ++ otherRules⟩

/-- A place behind an operand of a chain. -/
def behindOperand (follower : Option String) : Outlook := ⟨follower, ["argument_list"]⟩

set_option maxRecDepth 100000 in
/-- Where a name stands, only one alternative can begin. -/
theorem expression_seeds : ∃ others, expression.plain = named :: others ∧
    others.all (·.isHopeless atName) = true ∧ expression.prefixed.all (·.isHopeless atName) = true := by
  have hplain : expression.plain = named :: expression.plain.tail := by decide +kernel
  exact ⟨_, hplain, by decide +kernel, by decide +kernel⟩

set_option maxRecDepth 100000 in
/-- Behind an operand, what follows is no postfix. -/
theorem expression_postfixed : followers.all (fun follower =>
    expression.postfixed.all (·.addsNothing (behindOperand follower))) = true := by decide +kernel

set_option maxRecDepth 100000 in
/-- Behind the last operand, no operator follows. -/
theorem expression_leftRec_end :
    expression.leftRec.all (·.addsNothing (behindOperand none)) = true := by decide +kernel

set_option maxRecDepth 100000 in
/-- Behind an operand, only the alternative of the operator that follows goes on. -/
theorem expression_leftRec : ∀ op ∈ BaseC.binaryOperators,
    ∃ i < BaseC.expression.alternatives.length, binary i op ∈ expression.leftRec ∧ ∀ a ∈ expression.leftRec,
      a = binary i op ∨ a.addsNothing (behindOperand (some op.1)) = true := by decide +kernel

theorem level_bounds : ∀ op ∈ BaseC.binaryOperators, 0 ≤ op.2 ∧ op.2 ≤ 12 := by decide

/-! ## The table of the C grammar -/

/-- A rule that matches nothing at a place. -/
def HopelessRule (t : ParseTable) (o : Outlook) (rule : String) : Prop :=
  t.grammar.tokens.get? rule = none ∧ ∀ alts ∈ t.rules.get? rule,
    (alts.prefixed ++ alts.plain).all (·.isHopeless o) = true

instance (t : ParseTable) (o : Outlook) (rule : String) : Decidable (HopelessRule t o rule) :=
  inferInstanceAs (Decidable (_ ∧ ∀ alts ∈ t.rules.get? rule, _ = true))

/-- What the engine reads of a table where a chain of operators stands. -/
structure Expressions (t : ParseTable) : Prop where
  reserved : ∀ w ∈ t.grammar.reserved, w ∈ BaseC.reserved
  identifier : t.grammar.tokens.get? "identifier" = some identifier
  rule : t.rules.get? "_expression" = some expression
  /-- No other token begins like a name. -/
  tokens : ∀ name ∈ otherTokens, (t.grammar.tokens.get? name).any fun token =>
    nameStarts.all token.refuses
  /-- No other rule begins with a name. -/
  rules : ∀ rule ∈ otherRules, HopelessRule t ⟨none, otherTokens⟩ rule
  /-- What follows an operand of a chain is no argument list. -/
  arguments : ∀ follower ∈ followers, HopelessRule t ⟨follower, []⟩ "argument_list"
  /-- A literal that begins like a name is a reserved word. -/
  words : ∀ l ∈ t.literals, l.chars.head?.all (!Pattern.isNameStart ·) = true ∨
    l.wordLike = true ∧ l.chars.all Text.isWordChar = true ∧ l.text ∈ BaseC.reserved
  unspaced : ∀ l ∈ t.literals, ' ' ∉ l.chars
  /-- The longest literal with which an operator begins is the operator. -/
  operators : ∀ op ∈ BaseC.binaryOperators,
    t.literals.find? (·.chars.isPrefixOf op.1.toList) = some (.ofText op.1)
  unworded : ∀ op ∈ BaseC.binaryOperators, ∀ l ∈ t.literals,
    l.chars.isPrefixOf op.1.toList = true → l.wordLike = false
  /-- Neither a name nor an operator with a space behind it begins with extras. -/
  extras : nameStarts.all (fun c => t.grammar.extras.regex.rests { acrossLines := true } [c]) = true ∧
    ∀ op ∈ BaseC.binaryOperators,
      t.grammar.extras.regex.rests { acrossLines := true } (op.1.toList ++ [' ']) = true

instance (t : ParseTable) : Decidable (Expressions t) :=
  decidable_of_iff
    ((∀ w ∈ t.grammar.reserved, w ∈ BaseC.reserved) ∧
      t.grammar.tokens.get? "identifier" = some identifier ∧
      t.rules.get? "_expression" = some expression ∧
      (∀ name ∈ otherTokens, (t.grammar.tokens.get? name).any fun token =>
        nameStarts.all token.refuses) ∧
      (∀ rule ∈ otherRules, HopelessRule t ⟨none, otherTokens⟩ rule) ∧
      (∀ follower ∈ followers, HopelessRule t ⟨follower, []⟩ "argument_list") ∧
      (∀ l ∈ t.literals, l.chars.head?.all (!Pattern.isNameStart ·) = true ∨
        l.wordLike = true ∧ l.chars.all Text.isWordChar = true ∧ l.text ∈ BaseC.reserved) ∧
      (∀ l ∈ t.literals, ' ' ∉ l.chars) ∧
      (∀ op ∈ BaseC.binaryOperators,
        t.literals.find? (·.chars.isPrefixOf op.1.toList) = some (.ofText op.1)) ∧
      (∀ op ∈ BaseC.binaryOperators, ∀ l ∈ t.literals,
        l.chars.isPrefixOf op.1.toList = true → l.wordLike = false) ∧
      nameStarts.all (fun c => t.grammar.extras.regex.rests { acrossLines := true } [c]) = true ∧
      ∀ op ∈ BaseC.binaryOperators,
        t.grammar.extras.regex.rests { acrossLines := true } (op.1.toList ++ [' ']) = true)
    ⟨fun ⟨h₁, h₂, h₃, h₄, h₅, h₆, h₇, h₈, h₉, h₁₀, h₁₁⟩ =>
        ⟨h₁, h₂, h₃, h₄, h₅, h₆, h₇, h₈, h₉, h₁₀, h₁₁⟩,
      fun ⟨h₁, h₂, h₃, h₄, h₅, h₆, h₇, h₈, h₉, h₁₀, h₁₁⟩ =>
        ⟨h₁, h₂, h₃, h₄, h₅, h₆, h₇, h₈, h₉, h₁₀, h₁₁⟩⟩

set_option maxRecDepth 100000 in
theorem expressions_c {t : ParseTable} (h : cTable.outcome = .ok t) : Expressions t := by
  cases h.symm.trans cTable_eq
  decide +kernel

end Catalog

end LayeredGrammar
