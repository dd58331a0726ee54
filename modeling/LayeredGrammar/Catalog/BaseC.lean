import LayeredGrammar.Catalog.Combinators

/-!
# The C layer

A subset of C99, the base on which other layers stand. Its extension points are the rules it
promises to keep open: top-level items, block items, expressions and the type specifiers.
-/

namespace LayeredGrammar.Catalog.BaseC

open Production

/-! ## Tokens -/

/-- The names of the built-in types. -/
def primitiveTypes : List String :=
  ["bool", "char", "int", "float", "double", "void", "size_t", "ssize_t", "ptrdiff_t",
   "intptr_t", "uintptr_t", "int8_t", "int16_t", "int32_t", "int64_t", "uint8_t", "uint16_t",
   "uint32_t", "uint64_t"]

/-- The tokens of the language. -/
def tokens : List (String × Token) :=
  [
    ("identifier", .declare "[A-Za-z_]\\w*"),
    ("number_literal", .declare
      "(?:0[xX][0-9a-fA-F]+|(?:\\d+\\.?\\d*|\\.\\d+)(?:[eE][+-]?\\d+)?)[uUlLfF]*"),
    ("string_literal", .declare "\"(?:[^\"\\\\\\n]|\\\\.)*\""),
    ("char_literal", .declare "'(?:[^'\\\\\\n]|\\\\.)+'"),
    ("system_lib_string", .declare "<[^>\\n]*>"),
    ("primitive_type", .declare ("(?:" ++ "|".intercalate primitiveTypes ++ ")") (some true)) ]

/-- The words that are not identifiers. -/
def reserved : List String :=
  ["auto", "break", "case", "char", "const", "continue", "default", "do", "double", "else",
   "enum", "extern", "float", "for", "goto", "if", "inline", "int", "long", "register",
   "restrict", "return", "short", "signed", "sizeof", "static", "struct", "switch", "typedef",
   "union", "unsigned", "void", "volatile", "while", "true", "false", "NULL"]

/-! ## Precedences -/

namespace Level

/-- Assignment. -/
def assignment : Int := 1
/-- The conditional operator. -/
def conditional : Int := 2
/-- Logical or. -/
def logicalOr : Int := 3
/-- Logical and. -/
def logicalAnd : Int := 4
/-- Bitwise or. -/
def inclusiveOr : Int := 5
/-- Bitwise exclusive or. -/
def exclusiveOr : Int := 6
/-- Bitwise and. -/
def bitwiseAnd : Int := 7
/-- Equality. -/
def equality : Int := 8
/-- Comparison. -/
def relational : Int := 9
/-- Shifts. -/
def shift : Int := 10
/-- Addition and subtraction. -/
def additive : Int := 11
/-- Multiplication, division and remainder. -/
def multiplicative : Int := 12
/-- Casts. -/
def cast : Int := 13
/-- Operators before their operand. -/
def unary : Int := 14
/-- Operators after their operand. -/
def postfixed : Int := 15

end Level

/-- The operators with two operands that group to the left. -/
def binaryOperators : List (String × Int) :=
  [("||", Level.logicalOr), ("&&", Level.logicalAnd), ("|", Level.inclusiveOr),
   ("^", Level.exclusiveOr), ("&", Level.bitwiseAnd), ("==", Level.equality),
   ("!=", Level.equality), ("<", Level.relational), ("<=", Level.relational),
   (">", Level.relational), (">=", Level.relational), ("<<", Level.shift), (">>", Level.shift),
   ("+", Level.additive), ("-", Level.additive), ("*", Level.multiplicative),
   ("/", Level.multiplicative), ("%", Level.multiplicative)]

/-- The assignment operators. -/
def assignmentOperators : List String :=
  ["=", "*=", "/=", "%=", "+=", "-=", "<<=", ">>=", "&=", "^=", "|="]

/-! ## Rules -/

/-- Whole programs and declarations. -/
def topLevel : List (String × Production) :=
  [
    ("translation_unit", recovering (ref "_top_level_item")),
    ("_top_level_item",
      choice [ref "function_definition", ref "declaration", ref "type_definition",
        ref "preproc_include", ref "_statement", ref "_empty_declaration"]),
    ("_empty_declaration", seq [many (ref "type_qualifier"), ref "_type_specifier", lit ";"]),
    ("preproc_include",
      seq [lit "#include", field "path" (choice [ref "string_literal", ref "system_lib_string"])]),
    ("function_definition",
      seq [ref "_declaration_specifiers", field "declarator" (ref "_declarator"),
        opt (ref "declaration_list"), field "body" (ref "compound_statement")]),
    ("declaration_list", many1 (ref "declaration")),
    ("declaration",
      seq [ref "_declaration_specifiers", field "declarator" (ref "_declaration_declarator"),
        many (seq [lit ",", field "declarator" (ref "_declaration_declarator")]), lit ";"]),
    ("_declaration_declarator", choice [ref "init_declarator", ref "_declarator"]),
    ("init_declarator",
      seq [field "declarator" (ref "_declarator"), lit "=",
        field "value" (choice [ref "initializer_list", ref "_expression"])]),
    ("type_definition",
      seq [lit "typedef", many (ref "type_qualifier"), field "type" (ref "_type_specifier"),
        field "declarator" (ref "_type_declarator"),
        many (seq [lit ",", field "declarator" (ref "_type_declarator")]), lit ";"]),
    ("_declaration_specifiers",
      seq [many (ref "_declaration_modifiers"), field "type" (ref "_type_specifier"),
        many (ref "_declaration_modifiers")]),
    ("_declaration_modifiers", choice [ref "storage_class_specifier", ref "type_qualifier"]),
    ("storage_class_specifier",
      choice [lit "extern", lit "static", lit "auto", lit "register", lit "inline"]),
    ("type_qualifier", choice [lit "const", lit "volatile", lit "restrict"]) ]

/-- Declarators around a name that becomes a node of the given kind. Only a pointer form may stand
in parentheses, so that a call is not a declaration. -/
def declaratorFamily (rule leafKind : String) : Production :=
  let pointer := seq [lit "*", many (ref "type_qualifier"), field "declarator" (ref rule)]
  choice [
    prefixAlt 0 "pointer_declarator" pointer,
    postfixAlt 1 "function_declarator"
      (seq [field "declarator" (ref rule), field "parameters" (ref "parameter_list")]),
    postfixAlt 1 "array_declarator"
      (seq [field "declarator" (ref rule), lit "[", many (ref "type_qualifier"),
        field "size" (opt (ref "_expression")), lit "]"]),
    renamed (seq [lit "(", renamed pointer "pointer_declarator", lit ")"])
      "parenthesized_declarator",
    renamed (ref "identifier") leafKind]

/-- Declarators, parameters and type names. -/
def declarators : List (String × Production) :=
  [
    ("_declarator", declaratorFamily "_declarator" "identifier"),
    ("_field_declarator", declaratorFamily "_field_declarator" "field_identifier"),
    ("_type_declarator", declaratorFamily "_type_declarator" "type_identifier"),
    ("_abstract_declarator",
      choice [ref "abstract_pointer_declarator", ref "abstract_array_declarator"]),
    ("abstract_pointer_declarator",
      seq [lit "*", many (ref "type_qualifier"),
        field "declarator" (opt (ref "_abstract_declarator"))]),
    ("abstract_array_declarator", seq [lit "[", field "size" (opt (ref "_expression")), lit "]"]),
    ("parameter_list",
      seq [lit "(",
        opt (seq [choice [ref "parameter_declaration", ref "variadic_parameter"],
          many (seq [lit ",", choice [ref "parameter_declaration", ref "variadic_parameter"]])]),
        lit ")"]),
    ("parameter_declaration",
      seq [ref "_declaration_specifiers",
        opt (choice [field "declarator" (ref "_declarator"),
          field "declarator" (ref "_abstract_declarator")])]),
    ("variadic_parameter", lit "..."),
    ("type_descriptor",
      seq [many (ref "type_qualifier"), field "type" (ref "_type_specifier"),
        many (ref "type_qualifier"), field "declarator" (opt (ref "_abstract_declarator"))]) ]

/-- Type specifiers with their members. -/
def typeSpecifiers : List (String × Production) :=
  [
    ("_type_specifier",
      choice [ref "struct_specifier", ref "union_specifier", ref "enum_specifier",
        ref "sized_type_specifier", ref "primitive_type", ref "_type_identifier"]),
    ("_type_identifier", renamed (ref "identifier") "type_identifier"),
    ("sized_type_specifier",
      seq [many1 (choice [lit "signed", lit "unsigned", lit "long", lit "short"]),
        field "type" (opt (ref "primitive_type"))]),
    ("struct_specifier",
      choice [
        seq [lit "struct", field "name" (renamed (ref "identifier") "type_identifier"),
          field "body" (opt (ref "field_declaration_list"))],
        seq [lit "struct", field "body" (ref "field_declaration_list")]]),
    ("union_specifier",
      choice [
        seq [lit "union", field "name" (renamed (ref "identifier") "type_identifier"),
          field "body" (opt (ref "field_declaration_list"))],
        seq [lit "union", field "body" (ref "field_declaration_list")]]),
    ("enum_specifier",
      choice [
        seq [lit "enum", field "name" (renamed (ref "identifier") "type_identifier"),
          field "body" (opt (ref "enumerator_list"))],
        seq [lit "enum", field "body" (ref "enumerator_list")]]),
    ("field_declaration_list", seq [lit "\x7b", many (ref "field_declaration"), lit "\x7d"]),
    ("field_declaration",
      seq [ref "_declaration_specifiers",
        opt (seq [field "declarator" (ref "_field_declarator"),
          many (seq [lit ",", field "declarator" (ref "_field_declarator")])]),
        opt (ref "bitfield_clause"), lit ";"]),
    ("bitfield_clause", seq [lit ":", ref "_expression"]),
    ("enumerator_list",
      seq [lit "\x7b",
        opt (seq [ref "enumerator", many (seq [lit ",", ref "enumerator"]), opt (lit ",")]),
        lit "\x7d"]),
    ("enumerator",
      seq [field "name" (ref "identifier"),
        opt (seq [lit "=", field "value" (ref "_expression")])]) ]

/-- Statements. -/
def statements : List (String × Production) :=
  [
    ("compound_statement", seq [lit "\x7b", recovering (ref "_block_item"), lit "\x7d"]),
    ("_block_item",
      choice [ref "declaration", ref "type_definition", ref "_statement",
        ref "_empty_declaration"]),
    ("_statement", choice [ref "case_statement", ref "_non_case_statement"]),
    ("_non_case_statement",
      choice [ref "labeled_statement", ref "compound_statement", ref "expression_statement",
        ref "if_statement", ref "switch_statement", ref "do_statement", ref "while_statement",
        ref "for_statement", ref "return_statement", ref "break_statement",
        ref "continue_statement", ref "goto_statement"]),
    ("labeled_statement",
      seq [field "label" (renamed (ref "identifier") "statement_identifier"), lit ":",
        ref "_statement"]),
    ("expression_statement", seq [opt (ref "_expression"), lit ";"]),
    ("if_statement",
      seq [lit "if", field "condition" (ref "parenthesized_expression"),
        field "consequence" (ref "_statement"),
        opt (seq [lit "else", field "alternative" (ref "_statement")])]),
    ("switch_statement",
      seq [lit "switch", field "condition" (ref "parenthesized_expression"),
        field "body" (ref "compound_statement")]),
    ("case_statement",
      seq [choice [seq [lit "case", field "value" (ref "_expression")], lit "default"], lit ":",
        many (ref "_case_item")]),
    ("_case_item", choice [ref "declaration", ref "type_definition", ref "_non_case_statement"]),
    ("while_statement",
      seq [lit "while", field "condition" (ref "parenthesized_expression"),
        field "body" (ref "_statement")]),
    ("do_statement",
      seq [lit "do", field "body" (ref "_statement"), lit "while",
        field "condition" (ref "parenthesized_expression"), lit ";"]),
    ("for_statement",
      seq [lit "for", lit "(",
        choice [field "initializer" (ref "declaration"),
          seq [field "initializer" (opt (ref "_expression")), lit ";"]],
        field "condition" (opt (ref "_expression")), lit ";",
        field "update" (opt (ref "_expression")), lit ")", field "body" (ref "_statement")]),
    ("return_statement", seq [lit "return", opt (ref "_expression"), lit ";"]),
    ("break_statement", seq [lit "break", lit ";"]),
    ("continue_statement", seq [lit "continue", lit ";"]),
    ("goto_statement",
      seq [lit "goto", field "label" (renamed (ref "identifier") "statement_identifier"),
        lit ";"]) ]

/-- An operator with two operands. -/
def binaryAlt (op : String × Int) : Production :=
  leftAlt op.2 "binary_expression"
    (seq [field "left" (ref "_expression"), field "operator" (lit op.1),
      field "right" (ref "_expression")])

/-- Assignment. -/
def assignmentAlt : Production :=
  rightAlt Level.assignment "assignment_expression"
    (seq [field "left" (ref "_expression"), field "operator" (choice (assignmentOperators.map lit)),
      field "right" (ref "_expression")])

/-- The conditional operator. -/
def conditionalAlt : Production :=
  rightAlt Level.conditional "conditional_expression"
    (seq [field "condition" (ref "_expression"), lit "?", field "consequence" (ref "_expression"),
      lit ":", field "alternative" (ref "_expression")])

/-- Expressions: operands, operators with one operand, and operators with two or three. -/
def expression : Production :=
  choice ([
      ref "identifier",
      ref "number_literal",
      ref "string_literal",
      ref "concatenated_string",
      ref "char_literal",
      ref "true",
      ref "false",
      ref "null",
      ref "parenthesized_expression",
      prefixAlt Level.cast "cast_expression"
        (seq [lit "(", field "type" (ref "type_descriptor"), lit ")",
          field "value" (ref "_expression")]),
      prefixAlt Level.unary "unary_expression"
        (seq [field "operator" (choice [lit "!", lit "~", lit "-", lit "+"]),
          field "argument" (ref "_expression")]),
      prefixAlt Level.unary "pointer_expression"
        (seq [field "operator" (choice [lit "*", lit "&"]), field "argument" (ref "_expression")]),
      prefixAlt Level.unary "update_expression"
        (seq [field "operator" (choice [lit "++", lit "--"]),
          field "argument" (ref "_expression")]),
      prefixAlt Level.unary "sizeof_expression"
        (seq [lit "sizeof", field "value" (ref "_expression")]),
      plainAlt Level.unary "sizeof_expression"
        (seq [lit "sizeof", lit "(", field "type" (ref "type_descriptor"), lit ")"]),
      postfixAlt Level.postfixed "update_expression"
        (seq [field "argument" (ref "_expression"),
          field "operator" (choice [lit "++", lit "--"])]),
      postfixAlt Level.postfixed "call_expression"
        (seq [field "function" (ref "_expression"), field "arguments" (ref "argument_list")]),
      postfixAlt Level.postfixed "subscript_expression"
        (seq [field "argument" (ref "_expression"), lit "[", field "index" (ref "_expression"),
          lit "]"]),
      postfixAlt Level.postfixed "field_expression"
        (seq [field "argument" (ref "_expression"),
          field "operator" (choice [lit ".", lit "->"]),
          field "field" (renamed (ref "identifier") "field_identifier")]) ]
    ++ binaryOperators.map binaryAlt
    ++ [assignmentAlt, conditionalAlt])

/-- Expressions and initializers. -/
def expressions : List (String × Production) :=
  [
    ("_expression", expression),
    ("parenthesized_expression", seq [lit "(", ref "_expression", lit ")"]),
    ("argument_list",
      seq [lit "(", opt (seq [ref "_expression", many (seq [lit ",", ref "_expression"])]),
        lit ")"]),
    ("concatenated_string", seq [ref "string_literal", many1 (ref "string_literal")]),
    ("initializer_list",
      seq [lit "\x7b",
        opt (seq [ref "_initializer_item", many (seq [lit ",", ref "_initializer_item"]),
          opt (lit ",")]),
        lit "\x7d"]),
    ("_initializer_item",
      choice [ref "initializer_pair", ref "_expression", ref "initializer_list"]),
    ("initializer_pair",
      seq [
        field "designator" (many1 (choice [ref "subscript_designator", ref "field_designator"])),
        lit "=", field "value" (choice [ref "_expression", ref "initializer_list"])]),
    ("subscript_designator", seq [lit "[", ref "_expression", lit "]"]),
    ("field_designator", seq [lit ".", renamed (ref "identifier") "field_identifier"]),
    ("true", lit "true"),
    ("false", lit "false"),
    ("null", lit "NULL") ]

/-! ## The layer -/

/-- The C layer. -/
def layer : Layer where
  name := "CGrammar"
  start := some (some "translation_unit")
  word := some (some "identifier")
  reserved := reserved
  extensionPoints :=
    ["_top_level_item", "_block_item", "_expression", "_type_identifier", "_type_specifier",
     "struct_specifier", "union_specifier", "enum_specifier", "type_qualifier"]
  members :=
    tokens.map (fun t => (t.1, .token none t.2)) ++
      (topLevel ++ declarators ++ typeSpecifiers ++ statements ++ expressions).map
        fun r => (r.1, .rule none r.2)

end LayeredGrammar.Catalog.BaseC
