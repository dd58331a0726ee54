import LayeredGrammar.Catalog.ObjectiveC
import LayeredGrammar.Engine.Parser

/-!
# Ready-made grammars

The parse tables of the C layer alone and of the Objective-C layer on top of it.
-/

namespace LayeredGrammar.Catalog

/-- The layers of the C grammar. -/
def cLayers : List Layer := [BaseC.layer]

/-- The layers of the Objective-C grammar. -/
def objcLayers : List Layer := [BaseC.layer, ObjectiveC.layer]

/-- The parse table of the C grammar. -/
def cTable : Building ParseTable := ParseTable.ofLayers cLayers

/-- The parse table of the Objective-C grammar. -/
def objcTable : Building ParseTable := ParseTable.ofLayers objcLayers

end LayeredGrammar.Catalog
