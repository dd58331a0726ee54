import LayeredGrammar.Names
import LayeredGrammar.Node.Basic

/-!
# Field schema

The node kinds of the Objective-C layer and the fields each may carry, together with the base kinds
that gain fields from it. Readers of a tree can rely on these fields and no others.
-/

namespace LayeredGrammar.Catalog

/-- The node kinds of the Objective-C layer. -/
def nodeKinds : List String :=
  ["class_interface", "category_interface", "protocol_declaration", "protocol_declaration_list",
   "class_declaration_list", "instance_variables", "class_method_declaration",
   "instance_method_declaration", "class_implementation", "category_implementation",
   "class_method_definition", "instance_method_definition", "unary_selector", "keyword_selector",
   "keyword_declarator", "protocol_type_specifier", "protocol_qualifier", "message_expression",
   "receiver", "message_selector", "keyword_argument_list", "keyword_argument",
   "selector_expression", "keyword_name", "protocol_expression", "encode_expression", "self",
   "super", "private", "public", "protected"]

/-- The kinds that carry fields, with the fields in order. -/
def declaredFields : NameTable (List String) :=
  [
    ("class_interface", ["name", "superclass"]),
    ("category_interface", ["category", "name"]),
    ("protocol_declaration", ["name"]),
    ("class_implementation", ["name", "superclass"]),
    ("category_implementation", ["category", "name"]),
    ("class_method_declaration", ["return_type", "selector"]),
    ("instance_method_declaration", ["return_type", "selector"]),
    ("class_method_definition", ["body", "return_type", "selector"]),
    ("instance_method_definition", ["body", "return_type", "selector"]),
    ("keyword_declarator", ["keyword", "name", "type"]),
    ("keyword_argument", ["argument", "keyword"]),
    ("selector_expression", ["name"]),
    ("protocol_expression", ["name"]),
    ("encode_expression", ["name"]),
    ("struct_specifier", ["body", "class_name", "name"]),
    ("union_specifier", ["body", "class_name", "name"]),
    ("enum_specifier", ["body", "class_name", "name"]) ]

/-- The fields each kind of the schema may carry. -/
def fieldSchema : NameTable (List String) :=
  declaredFields.foldl (fun t e => t.set e.1 e.2) (nodeKinds.map (·, []))

/-- The nodes of a tree that carry a field the schema does not give their kind, each with that
field. -/
def fieldViolations (root : Node) : List (Node × String) :=
  root.walk.flatMap fun n =>
    match fieldSchema.get? n.kind with
    | none => []
    | some allowed => (n.fieldNames.filter (!allowed.contains ·)).map (n, ·)

end LayeredGrammar.Catalog
