import LayeredGrammar.Grammar.Build

/-!
# Parse tables

Reference model of `_Tables`. The engine does not work on rule bodies but on their alternatives
(`_classify`), sorted by the way they can begin (`_rule_alts`): alternatives that start with the rule
itself grow a match to the right, all others start one. The table also lists the literals, longest
first, and what can start each recovering repetition.
-/

namespace LayeredGrammar

/-- A part of an alternative. If it refers to the rule itself, the field names around the reference
are kept, innermost first. -/
structure Element where
  body : Production
  selfFields : Option (List String)
  deriving DecidableEq, Repr

/-- An alternative of a rule. -/
structure Alternative where
  /-- The position among the alternatives of the rule. -/
  index : Nat
  label : Option String
  prec : Option Int
  assoc : Assoc
  unary : Option Fixity
  /-- The node kind the alternative makes, if any. -/
  kind : Option String
  elements : List Element
  /-- Whether a layer above the base added it. -/
  layered : Bool
  deriving DecidableEq, Repr

namespace Alternative

/-- The elements of a body that belongs to a rule. -/
def elementsOf (rule : String) (body : Production) : List Element :=
  let parts := match body with
    | .seq items => items
    | p => [p]
  parts.map fun p => ⟨p, p.selfFields? rule⟩

/-- The node kind around a body that is not just a reference, and what it encloses. -/
def openKind : Production → Option String × Production
  | .renamed (.ref n) kind => (none, .renamed (.ref n) kind)
  | .renamed p kind => (some kind, p)
  | p => (none, p)

/-- The alternative of a rule that a production gives. -/
def ofProduction (rule : String) (index : Nat) (layered : Bool) (p : Production) : Alternative :=
  let (prec, assoc, unary, body) := match p with
    | .prec value content assoc unary => (some value, assoc, unary, content)
    | q => (none, Assoc.left, none, q)
  let (kind, inner) := openKind body
  ⟨index, p.label?, prec, assoc, unary, kind, elementsOf rule inner, layered⟩

/-- The precedence, zero if none is given. -/
def rank (a : Alternative) : Int := a.prec.getD 0

/-- The positions of the references to the rule itself. -/
def selfRefs (a : Alternative) : List Nat :=
  (a.elements.zipIdx.filter (·.1.selfFields.isSome)).map (·.2)

/-- Whether the alternative starts with the rule itself. -/
def startsWithSelf (a : Alternative) : Bool := (a.elements.head?.bind (·.selfFields)).isSome

/-- The field names around the reference the alternative starts with. -/
def leadFields (a : Alternative) : List String := (a.elements.head?.bind (·.selfFields)).getD []

/-- The least precedence allowed in a reference to the rule at the end. Of two-sided operators the
left-associative ones ask for a higher precedence than their own. -/
def rightMin (a : Alternative) : Int :=
  if a.unary = some .prefixOp ∨ a.startsWithSelf = false then a.rank
  else if a.assoc = .left then a.rank + 1
  else a.rank

end Alternative

/-- The alternatives of a rule by the way they begin. -/
structure RuleAlternatives where
  plain : List Alternative
  prefixed : List Alternative
  postfixed : List Alternative
  /-- Alternatives with the rule itself on the left, highest precedence first. -/
  leftRec : List Alternative
  deriving DecidableEq, Repr

namespace RuleAlternatives

/-- Sort alternatives by the way they begin, keeping their order inside each group except that the
left-recursive ones go by precedence first. -/
def ofAlternatives (alts : List Alternative) : RuleAlternatives :=
  let (own, others) := alts.partition (·.startsWithSelf)
  let (postfixed, leftRec) := own.partition (·.unary == some .postfixOp)
  let (prefixed, plain) := others.partition (·.unary == some .prefixOp)
  ⟨plain, prefixed, postfixed, sortBy (fun a b => b.rank ≤ a.rank) leftRec⟩

/-- The alternatives of a rule body, of which the first `baseCount` belong to the base layer. -/
def ofBody (rule : String) (body : Production) (baseCount : Nat) : RuleAlternatives :=
  ofAlternatives <| body.alternatives.zipIdx.map fun (p, i) =>
    Alternative.ofProduction rule i (decide (baseCount ≤ i)) p

end RuleAlternatives

/-- A literal with its characters. -/
structure Literal where
  text : String
  chars : List Char
  /-- Whether it ends in a word character and so needs a word boundary after it. -/
  wordLike : Bool
  deriving DecidableEq, Repr

namespace Literal

/-- The literal of a text. -/
def ofText (text : String) : Literal :=
  ⟨text, text.toList, text.toList.getLast?.any Text.isWordChar⟩

/-- Longer literals come first, equally long ones in code point order. -/
def precedes (a b : Literal) : Bool :=
  b.chars.length < a.chars.length || (a.chars.length == b.chars.length && a.text ≤ b.text)

end Literal

/-- What the engine reads of a grammar. -/
structure ParseTable where
  grammar : Grammar
  rules : NameTable RuleAlternatives
  /-- All literals, longest first. -/
  literals : List Literal
  /-- What can start the content of each recovering repetition. -/
  expected : List (Production × List Terminal)
  /-- What can start the start rule. -/
  rootExpected : List Terminal

namespace ParseTable

/-- How many alternatives of a rule belong to the base layer: those it had before the first
override, none if the rule is not a base rule. -/
def baseCount (g : Grammar) (name : String) (body : Production) : Nat :=
  if g.baseRules.contains name then
    match g.overrides.find? (·.rule == name) with
    | some o => o.previous.alternatives.length
    | none => body.alternatives.length
  else 0

/-- The content of a recovering repetition. -/
def recoveringContent? : Production → Option Production
  | .rep p _ true => some p
  | _ => none

/-- The parse table of a grammar. -/
def ofGrammar (g : Grammar) : ParseTable where
  grammar := g
  rules := g.rules.map fun (name, body) =>
    (name, RuleAlternatives.ofBody name body (baseCount g name body))
  literals := sortBy Literal.precedes (g.literals.map Literal.ofText)
  expected := g.rules.flatMap fun (_, body) =>
    (body.walk.filterMap recoveringContent?).map fun p => (p, g.first.firstTerminals p)
  rootExpected := g.first.firstTerminals (.ref g.start)

/-- What can start a recovering repetition with the given content, if the grammar has one. -/
def expectedFor (t : ParseTable) (content : Production) : List Terminal :=
  (t.expected.lookup content).getD []

/-- The literals that start with a character, longest first. -/
def literalsAt (t : ParseTable) (c : Char) : List String :=
  (t.literals.filter (·.chars.head? == some c)).map (·.text)

/-- The parse table of a stack of layers, the base first. A grammar that uses the empty literal has
none. -/
def ofLayers (layers : List Layer) : Building ParseTable := do
  let g ← Grammar.ofLayers layers
  if g.literals.contains "" then .fail .emptyLiteral
  pure (ofGrammar g)

end ParseTable

end LayeredGrammar
