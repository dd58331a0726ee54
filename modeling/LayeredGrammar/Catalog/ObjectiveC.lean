import LayeredGrammar.Catalog.BaseC

/-!
# The Objective-C layer

Stands on the C layer and touches its rules only by extending their extension points.
-/

namespace LayeredGrammar.Catalog.ObjectiveC

open Production

/-! ## Declared conflicts -/

/-- The ambiguities between the layer and the one below, and how they are meant to be read. -/
def conflicts : List Conflict :=
  [
    .between ["_expression", "protocol_type_specifier"] none
      "protocol types only where C has no reading; `a < b > c;` stays relational",
    .between ["keyword_selector"] (some "keyword_selector")
      "after a '+'/'-' marker a selector is read as keywords, never as a label",
    .between ["struct_specifier"] none "'@defs' body next to the member-list body",
    .between ["union_specifier"] none "'@defs' body next to the member-list body",
    .between ["enum_specifier"] none "'@defs' body next to the enumerator-list body",
    .between ["_expression", "message_expression"] (some "message_expression")
      "'[' also opens subscripts" ]

/-! ## Rules and extensions -/

/-- Classes, categories and protocols. -/
def declarations : List (String × Declaration) :=
  [
    ("_top_level_item", .extension none
      [ref "class_interface", ref "class_implementation", ref "category_interface",
        ref "category_implementation", ref "protocol_declaration",
        ref "protocol_declaration_list", ref "class_declaration_list"]),
    ("_name", .rule none (field "name" (ref "identifier"))),
    ("_superclass_reference", .rule none (seq [lit ":", field "superclass" (ref "identifier")])),
    ("class_interface", .rule none
      (seq [lit "@interface", ref "_name", opt (ref "_superclass_reference"),
        opt (ref "protocol_reference_list"), opt (ref "instance_variables"),
        opt (ref "interface_declaration_list"), lit "@end"])),
    ("category_interface", .rule none
      (seq [lit "@interface", ref "_name", lit "(", field "category" (ref "identifier"), lit ")",
        opt (ref "protocol_reference_list"), opt (ref "interface_declaration_list"), lit "@end"])),
    ("protocol_declaration", .rule none
      (seq [lit "@protocol", ref "_name", opt (ref "protocol_reference_list"),
        opt (ref "interface_declaration_list"), lit "@end"])),
    ("protocol_declaration_list", .rule none
      (choice [
        seq [lit "@protocol", ref "identifier", many (seq [lit ",", ref "identifier"]), lit ";"],
        seq [lit "@protocol", lit "<", ref "identifier", many (seq [lit ",", ref "identifier"]),
          lit ">", lit ";"]])),
    ("class_declaration_list", .rule none
      (seq [lit "@class", ref "identifier", many (seq [lit ",", ref "identifier"]), lit ";"])),
    ("protocol_reference_list", .rule none
      (seq [lit "<", ref "identifier", many (seq [lit ",", ref "identifier"]), lit ">"])),
    ("instance_variables", .rule none
      (seq [lit "\x7b", recovering (ref "instance_variable_declaration"), lit "\x7d"])),
    ("instance_variable_declaration", .rule none
      (choice [ref "_visibility_specification", ref "field_declaration"])),
    ("_visibility_specification", .rule none
      (choice [ref "private", ref "public", ref "protected"])),
    ("private", .rule none (lit "@private")),
    ("public", .rule none (lit "@public")),
    ("protected", .rule none (lit "@protected")),
    ("interface_declaration_list", .rule none (recovering1 (ref "_interface_declaration"))),
    ("_interface_declaration", .rule none
      (choice [ref "declaration", ref "_method_declaration"])),
    ("_method_declaration", .rule none
      (choice [ref "class_method_declaration", ref "instance_method_declaration"])),
    ("class_implementation", .rule none
      (seq [lit "@implementation", ref "_name", opt (ref "_superclass_reference"),
        opt (ref "instance_variables"), opt (ref "implementation_definition_list"), lit "@end"])),
    ("category_implementation", .rule none
      (seq [lit "@implementation", ref "_name", lit "(", field "category" (ref "identifier"),
        lit ")", opt (ref "implementation_definition_list"), lit "@end"])),
    ("implementation_definition_list", .rule none
      (recovering1 (ref "_implementation_definition"))),
    ("_implementation_definition", .rule none
      (choice [ref "function_definition", ref "declaration", ref "_method_definition"])) ]

/-- Methods and selectors. -/
def methods : List (String × Declaration) :=
  [
    ("class_method_declaration", .rule none
      (seq [lit "+", field "return_type" (opt (ref "_method_type")),
        field "selector" (ref "_method_selector"), lit ";"])),
    ("instance_method_declaration", .rule none
      (seq [lit "-", field "return_type" (opt (ref "_method_type")),
        field "selector" (ref "_method_selector"), lit ";"])),
    ("_method_definition", .rule none
      (choice [ref "class_method_definition", ref "instance_method_definition"])),
    ("class_method_definition", .rule none
      (seq [lit "+", field "return_type" (opt (ref "_method_type")),
        field "selector" (ref "_method_selector"), opt (ref "declaration_list"),
        field "body" (ref "compound_statement")])),
    ("instance_method_definition", .rule none
      (seq [lit "-", field "return_type" (opt (ref "_method_type")),
        field "selector" (ref "_method_selector"), opt (ref "declaration_list"),
        field "body" (ref "compound_statement")])),
    ("_method_selector", .rule none
      (choice [ref "unary_selector",
        seq [ref "keyword_selector", many (seq [lit ",", ref "parameter_declaration"]),
          opt (seq [lit ",", lit "..."])]])),
    ("unary_selector", .rule none (ref "identifier")),
    ("keyword_selector", .rule none (many1 (ref "keyword_declarator"))),
    ("keyword_declarator", .rule none
      (seq [field "keyword" (opt (ref "identifier")), lit ":",
        field "type" (opt (ref "_method_type")), ref "_name"])),
    ("_method_type", .rule none (seq [lit "(", ref "type_descriptor", lit ")"])) ]

/-- Messages and the other new expressions. -/
def expressions : List (String × Declaration) :=
  [
    ("_expression", .extension none
      [ref "self", ref "selector_expression", ref "message_expression",
        ref "protocol_expression", ref "encode_expression"]),
    ("self_", .rule (some "self") (lit "self")),
    ("super_", .rule (some "super") (lit "super")),
    ("message_expression", .rule none
      (seq [lit "[", ref "receiver", ref "message_selector", lit "]"])),
    ("receiver", .rule none (choice [ref "_expression", ref "super"])),
    ("message_selector", .rule none (choice [ref "identifier", ref "keyword_argument_list"])),
    ("keyword_argument_list", .rule none (many1 (ref "keyword_argument"))),
    ("keyword_argument", .rule none
      (seq [field "keyword" (opt (ref "identifier")), lit ":",
        field "argument" (ref "_expression")])),
    ("selector_expression", .rule none
      (seq [lit "@selector", lit "(", field "name" (ref "_selector_name"), lit ")"])),
    ("_selector_name", .rule none (choice [ref "identifier", many1 (ref "keyword_name")])),
    ("keyword_name", .rule none (choice [seq [ref "identifier", lit ":"], lit ":"])),
    ("protocol_expression", .rule none
      (seq [lit "@protocol", lit "(", field "name" (ref "identifier"), lit ")"])),
    ("encode_expression", .rule none
      (seq [lit "@encode", lit "(", field "name" (ref "identifier"), lit ")"])) ]

/-- Qualified types and type qualifiers. -/
def types : List (String × Declaration) :=
  [
    ("_type_identifier", .extension none [ref "protocol_type_specifier"]),
    ("protocol_type_specifier", .rule none
      (seq [ref "identifier", ref "protocol_reference_list"])),
    ("struct_specifier", .extension none
      [
        seq [lit "struct", field "name" (opt (ref "identifier")),
          field "body"
            (seq [lit "@defs", lit "(", field "class_name" (ref "identifier"), lit ")"])]]),
    ("union_specifier", .extension none
      [
        seq [lit "union", field "name" (opt (ref "identifier")),
          field "body"
            (seq [lit "@defs", lit "(", field "class_name" (ref "identifier"), lit ")"])]]),
    ("enum_specifier", .extension none
      [
        seq [lit "enum", field "name" (opt (ref "identifier")),
          field "body"
            (seq [lit "@defs", lit "(", field "class_name" (ref "identifier"), lit ")"])]]),
    ("type_qualifier", .extension none [ref "protocol_qualifier"]),
    ("protocol_qualifier", .rule none
      (choice [lit "in", lit "out", lit "inout", lit "bycopy", lit "byref", lit "oneway"])) ]

/-! ## The layer -/

/-- The Objective-C layer. -/
def layer : Layer where
  name := "ObjCGrammar"
  contextual := ["self", "super", "in", "out", "inout", "bycopy", "byref", "oneway"]
  recoveryStops := ["@end", "@interface", "@implementation"]
  conflicts := conflicts
  members := declarations ++ methods ++ expressions ++ types

end LayeredGrammar.Catalog.ObjectiveC
