import LayeredGrammar.Conflict
import LayeredGrammar.Draft
import LayeredGrammar.Token

/-!
# Grammar layers

A grammar is declared in layers, the base first. A layer declares tokens, rules and changes to the
rules below it. A change is an override: a template for the new body with places for the inherited
one. The inherited body must have a place in it, so a template knows whether it keeps that body,
which is not the same as having an equal part. An extension is the override that puts new
alternatives after the inherited body.

Layers also carry settings: the start rule, the word token and the expression for skipped text are
those of the latest layer that gives them, while reserved words, contextual keywords and recovery
stops add up.
-/

namespace LayeredGrammar

/-- A new body with places for the inherited one. -/
inductive Template where
  /-- The inherited body itself. -/
  | inherited
  /-- A body equal to the inherited one that does not count as keeping it. -/
  | replica
  | fixed (p : Production)
  | seq (items : List Template)
  | choice (members : List Template)
  | rep (content : Template) (least : Int) (recover : Bool)
  | opt (content : Template)
  | field (name : String) (content : Template)
  | renamed (content : Template) (kind : String)
  | prec (value : Int) (content : Template) (assoc : Assoc) (unary : Option Fixity)

namespace Template

mutual

/-- The body a template makes of an inherited body. -/
def fill (body : Production) : Template → Production
  | .inherited => body
  | .replica => body
  | .fixed p => p
  | .seq items => .seq (fillAll body items)
  | .choice members => .choice (fillAll body members)
  | .rep t least recover => .rep (fill body t) least recover
  | .opt t => .opt (fill body t)
  | .field name t => .field name (fill body t)
  | .renamed t kind => .renamed (fill body t) kind
  | .prec value t assoc unary => .prec value (fill body t) assoc unary

/-- The bodies several templates make of an inherited body. -/
def fillAll (body : Production) : List Template → List Production
  | [] => []
  | t :: ts => fill body t :: fillAll body ts

end

mutual

/-- Whether the inherited body has a place in a template. -/
def keepsInherited : Template → Bool
  | .inherited => true
  | .replica => false
  | .fixed _ => false
  | .seq items => anyKeepsInherited items
  | .choice members => anyKeepsInherited members
  | .rep t _ _ | .opt t | .field _ t | .renamed t _ | .prec _ t _ _ => keepsInherited t

/-- Whether the inherited body has a place in one of several templates. -/
def anyKeepsInherited : List Template → Bool
  | [] => false
  | t :: ts => keepsInherited t || anyKeepsInherited ts

end

/-- Whether a template is the inherited body itself. -/
def isInherited : Template → Bool
  | .inherited => true
  | _ => false

/-- The members a choice has besides the inherited body; anything else adds none. -/
def added (body : Production) : Template → List Production
  | .inherited =>
    match body with
    | .choice members => members
    | _ => []
  | .choice members => fillAll body (members.filter (!·.isInherited))
  | _ => []

/-- The inherited body followed by new alternatives. -/
def extension (alternatives : List Production) : Template :=
  .choice (.inherited :: alternatives.map .fixed)

end Template

/-- A change of a rule: what it makes of the inherited body, drafted when it is applied. It may yield
nothing that could be a body. -/
abbrev Override := Drafting (Option Template)

/-- What a layer can declare, with the name it gives, if any. -/
inductive Declaration where
  | token (name : Option String) (t : Token)
  | rule (name : Option String) (body : Production)
  | extension (name : Option String) (alternatives : List Production)
  | override (name : Option String) (change : Override)

namespace Declaration

/-- A rule with the given alternatives, at least one. -/
def draftRule (name : Option String) (alternatives : List Operand) : Drafting Declaration := do
  if alternatives.isEmpty then .fail .emptyRule
  match ← Draft.all alternatives with
  | [p] => pure (.rule name p)
  | ps => pure (.rule name (.choice ps))

/-- An extension by the given alternatives, at least one. -/
def draftExtension (name : Option String) (alternatives : List Operand) : Drafting Declaration := do
  if alternatives.isEmpty then .fail .emptyExtension
  pure (.extension name (← Draft.all alternatives))

end Declaration

/-- A layer of a grammar. Settings that are absent are left as they are below. -/
structure Layer where
  name : String
  start : Option (Option String) := none
  word : Option (Option String) := none
  extras : Option String := none
  reserved : List String := []
  contextual : List String := []
  recoveryStops : List String := []
  extensionPoints : List String := []
  conflicts : List Conflict := []
  /-- Declarations by key; a later one of a key takes the place of an earlier one. -/
  members : NameTable Declaration := []

/-- What a layer says about a rule name: a body, or a change of the one below. -/
inductive RuleEntry where
  | body (p : Production)
  | change (c : Override)

namespace RuleEntry

/-- Whether an entry changes a rule. -/
def isChange : RuleEntry → Bool
  | .body _ => false
  | .change _ => true

end RuleEntry

namespace Layer

/-- A given name unless it is absent or empty, and then the key of the member. -/
def nameOr (key : String) : Option String → String
  | some name => if name.isEmpty then key else name
  | none => key

/-- The token a member declares. -/
def tokenOf? : String × Declaration → Option (String × Token)
  | (key, .token name t) => some (nameOr key name, t)
  | _ => none

/-- The entry for a rule a member declares. -/
def ruleOf? : String × Declaration → Option (String × RuleEntry)
  | (key, .rule name p) => some (nameOr key name, .body p)
  | (key, .extension name alternatives) =>
    some (nameOr key name, .change (pure (some (.extension alternatives))))
  | (key, .override name change) => some (name.getD key, .change change)
  | (_, .token _ _) => none

/-- The tokens of a layer in declared order. -/
def tokens (l : Layer) : List (String × Token) := l.members.filterMap tokenOf?

/-- The rule entries of a layer in declared order. -/
def rules (l : Layer) : List (String × RuleEntry) := l.members.filterMap ruleOf?

end Layer

/-- The settings of a stack of layers. -/
structure Settings where
  start : Option String := none
  word : Option String := some "identifier"
  /-- The text of the expression for what is skipped between tokens. -/
  extras : String := "(?:\\s+|//[^\\n]*|/\\*.*?\\*/)*"
  reserved : List String := []
  contextual : List String := []
  recoveryStops : List String := []
  deriving DecidableEq, Repr

namespace Settings

/-- Settings with those of one more layer on top. -/
def push (s : Settings) (l : Layer) : Settings :=
  { start := l.start.getD s.start
    word := l.word.getD s.word
    extras := l.extras.getD s.extras
    reserved := s.reserved ++ l.reserved
    contextual := s.contextual ++ l.contextual
    recoveryStops := s.recoveryStops ++ l.recoveryStops }

/-- The settings of layers, the base first. -/
def ofLayers (layers : List Layer) : Settings := layers.foldl push {}

end Settings

end LayeredGrammar
