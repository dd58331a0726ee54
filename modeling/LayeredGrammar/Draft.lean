import LayeredGrammar.Pattern.Reading

/-!
# Drafting productions

Productions are drafted from operands: patterns, productions, or values that are neither and are
refused when they are needed. Drafting keeps the notes on bare words, also when it fails.
-/

namespace LayeredGrammar

/-- Why a draft is refused. -/
inductive DraftError where
  /-- A pattern cannot be read. -/
  | pattern (text : String) (fault : Pattern.Fault)
  /-- A value of the given type stands where a production is needed. -/
  | foreign (type : String)
  /-- An associativity that is neither `left` nor `right`. -/
  | badAssoc
  /-- A fixity that is neither absent, `prefix` nor `postfix`. -/
  | badUnary
  /-- A rule without alternatives. -/
  | emptyRule
  /-- An extension without alternatives. -/
  | emptyExtension
  deriving DecidableEq, Repr

/-- Why a draft is refused, in words. -/
def DraftError.message : DraftError → String
  | .pattern text fault => fault.message text
  | .foreign type => "expected a pattern string or Production, got " ++ type
  | .badAssoc => "assoc must be 'left' or 'right'"
  | .badUnary => "unary must be None|'prefix'|'postfix'"
  | .emptyRule => "rule() needs at least one alternative"
  | .emptyExtension => "extend() needs at least one alternative"

/-- A draft: notes on bare words, and a value unless it is refused. -/
abbrev Drafting := Traced Pattern.BareWord DraftError

/-- What can be given where a production is needed. -/
inductive Operand where
  | pattern (text : String)
  | production (p : Production)
  /-- A value of another type. -/
  | foreign (type : String)

/-- The production an operand stands for. -/
def Operand.toProduction : Operand → Drafting Production
  | .pattern text => (Pattern.read text).embed id (.pattern text)
  | .production p => pure p
  | .foreign type => .fail (.foreign type)

/-- An associativity by name. -/
def Assoc.ofName? : String → Option Assoc
  | "left" => some .left
  | "right" => some .right
  | _ => none

/-- A fixity by name. -/
def Fixity.ofName? : String → Option Fixity
  | "prefix" => some .prefixOp
  | "postfix" => some .postfixOp
  | _ => none

namespace Draft

/-- The productions several operands stand for, in order. -/
def all (operands : List Operand) : Drafting (List Production) := operands.mapM Operand.toProduction

/-- Operands one after another. -/
def sequence (items : List Operand) : Drafting Production := Production.seq <$> all items

/-- One of the operands. -/
def choice (members : List Operand) : Drafting Production := Production.choice <$> all members

/-- An operand or nothing. -/
def optional (content : Operand) : Drafting Production := Production.opt <$> content.toProduction

/-- At least `least` copies of an operand. -/
def repetition (content : Operand) (least : Int) (recover : Bool) : Drafting Production :=
  (Production.rep · least recover) <$> content.toProduction

/-- An operand under a field name. -/
def field (name : String) (content : Operand) : Drafting Production :=
  Production.field name <$> content.toProduction

/-- An operand as a node of another kind. -/
def renamed (content : Operand) (kind : String) : Drafting Production :=
  (Production.renamed · kind) <$> content.toProduction

/-- An alternative with a precedence and, unless the kind is absent or empty, a node kind. The
associativity and the fixity are looked at before the content. -/
def precedence (value : Int) (content : Operand) (assoc : String) (unary kind : Option String) :
    Drafting Production := do
  let some side := Assoc.ofName? assoc | .fail .badAssoc
  let fixity ← match unary with
    | none => pure none
    | some name => match Fixity.ofName? name with
      | some f => pure (some f)
      | none => .fail .badUnary
  let inner ← content.toProduction
  let body := match kind with
    | some k => if k.isEmpty then inner else .renamed inner k
    | none => inner
  pure (.prec value body side fixity)

/-- One or more of an operand, separated by commas. -/
def commaSeparated (item : Operand) : Drafting Production := do
  let p ← item.toProduction
  pure (.seq [p, .rep (.seq [.lit ",", p]) 0 false])

end Draft

end LayeredGrammar
