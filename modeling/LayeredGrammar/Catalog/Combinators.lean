import LayeredGrammar.Grammar.Layer

/-!
# Combinators for writing layers

Short names for the productions that occur again and again in a layer.
-/

namespace LayeredGrammar.Catalog

open Production

/-- Any number of copies. -/
def many (p : Production) : Production := rep p 0 false

/-- At least one copy. -/
def many1 (p : Production) : Production := rep p 1 false

/-- Any number of copies; text that fits none becomes an error region. -/
def recovering (p : Production) : Production := rep p 0 true

/-- At least one copy; text that fits none becomes an error region. -/
def recovering1 (p : Production) : Production := rep p 1 true

/-- An alternative with a precedence and a node kind. -/
def plainAlt (level : Int) (kind : String) (p : Production) : Production :=
  prec level (renamed p kind) .left none

/-- An operator before its operand. -/
def prefixAlt (level : Int) (kind : String) (p : Production) : Production :=
  prec level (renamed p kind) .left (some .prefixOp)

/-- An operator after its operand. -/
def postfixAlt (level : Int) (kind : String) (p : Production) : Production :=
  prec level (renamed p kind) .left (some .postfixOp)

/-- An operator between operands that groups to the left. -/
def leftAlt (level : Int) (kind : String) (p : Production) : Production :=
  prec level (renamed p kind) .left none

/-- An operator between operands that groups to the right. -/
def rightAlt (level : Int) (kind : String) (p : Production) : Production :=
  prec level (renamed p kind) .right none

end LayeredGrammar.Catalog
