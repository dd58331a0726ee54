import LayeredGrammar.Text.Blank
import LayeredGrammar.Text.WordChar

/-!
# Lexemes of the pattern notation

Patterns are a short way to write productions:

* `'text'` or `"text"` is a literal, and so is any run of other characters (a bare word);
* `<name>` refers to a rule or a token, `<name?>`, `<name*>`, `<name+>` quantify it and
  `<name:field>` gives it a field name;
* `( … )` groups and may be followed by `?`, `*` or `+`; `[ … ]` repeats any number of times and
  `{ … }` at least once; `|` separates alternatives;
* a colon and a name directly after a group or a quoted literal give it a field name.

`lex` cuts a pattern into lexemes, each quantifier and field name being a lexeme of its own. A part
that cannot be read is a `fault`, always the last lexeme.
-/

namespace LayeredGrammar.Pattern

/-- The three kinds of group. -/
inductive Bracket where
  | round
  | square
  | curly
  deriving DecidableEq, Repr

/-- The character that opens a group. -/
def Bracket.opener : Bracket → Char
  | .round => '('
  | .square => '['
  | .curly => '{'

/-- The character that closes a group. -/
def Bracket.closer : Bracket → Char
  | .round => ')'
  | .square => ']'
  | .curly => '}'

/-- The three quantifiers. -/
inductive Quantifier where
  | optional
  | star
  | plus
  deriving DecidableEq, Repr

/-- What can be wrong with a pattern. -/
inductive Fault where
  | unclosedReference
  | invalidReference (content : String)
  | unclosedLiteral
  | missingFieldName
  | unexpected (c : Char)
  | unbalanced (b : Bracket)
  | unclosedGroup (b : Bracket)
  deriving DecidableEq, Repr

/-- A piece of a pattern. -/
inductive Lexeme where
  | bar
  | opening (b : Bracket)
  | closing (b : Bracket)
  | reference (name : String)
  | literal (value : String)
  | bare (word : String)
  | quantifier (q : Quantifier)
  | fieldName (name : String)
  | fault (f : Fault)
  deriving DecidableEq, Repr

/-! ## Names and suffixes -/

/-- The characters that can begin a name. -/
def isNameStart (c : Char) : Bool := c.isAlpha || c == '_'

/-- A name at the front of a text, and what follows it. -/
def readName : List Char → Option (String × List Char)
  | [] => none
  | c :: rest =>
    if isNameStart c then
      some (String.ofList (c :: rest.takeWhile Text.isWordChar), rest.dropWhile Text.isWordChar)
    else none

/-- The quantifier a character stands for. -/
def quantifier? : Char → Option Quantifier
  | '?' => some .optional
  | '*' => some .star
  | '+' => some .plus
  | _ => none

/-- A quantifier at the front of a text, if any, and what follows it. -/
def readQuantifier : List Char → List Lexeme × List Char
  | [] => ([], [])
  | c :: rest =>
    match quantifier? c with
    | some q => ([.quantifier q], rest)
    | none => ([], c :: rest)

/-- A colon and a field name at the front of a text, if any, and what follows. -/
def readField : List Char → List Lexeme × List Char
  | ':' :: rest =>
    match readName rest with
    | some (name, more) => ([.fieldName name], more)
    | none => ([.fault .missingFieldName], [])
  | cs => ([], cs)

/-- A quantifier and a field name, both optional, and what follows. -/
def readSuffix (cs : List Char) : List Lexeme × List Char :=
  let (quantifier, rest) := readQuantifier cs
  let (field, more) := readField rest
  (quantifier ++ field, more)

/-! ## References and quoted literals -/

/-- What may follow the name and quantifier of a reference: nothing, or a colon and a field name
with blanks around the colon. -/
def referenceField? (cs : List Char) : Option (List Lexeme) :=
  match cs.dropWhile Text.isBlank with
  | [] => some []
  | ':' :: rest =>
    match readName (rest.dropWhile Text.isBlank) with
    | some (field, []) => some [.fieldName field]
    | _ => none
  | _ => none

/-- The lexemes of a reference, given the text between its angle brackets without outer blanks. -/
def referenceLexemes (content : List Char) : List Lexeme :=
  let read : Option (List Lexeme) := do
    let (name, rest) ← readName content
    let (quantifier, more) := readQuantifier rest
    let field ← referenceField? more
    some (.reference name :: quantifier ++ field)
  read.getD [.fault (.invalidReference (String.ofList content))]

/-- The text of a quoted literal after its opening quote, and what follows the closing one. A
backslash takes the next character as it is, and in single quotes a doubled quote stands for
one. -/
def readQuoted (quote : Char) : List Char → Option (List Char × List Char)
  | [] => none
  | [c] => if c = quote then some ([], []) else none
  | c :: d :: rest =>
    if c = '\\' then (readQuoted quote rest).map fun r => (d :: r.1, r.2)
    else if c = quote then
      if quote = '\'' ∧ d = '\'' then (readQuoted quote rest).map fun r => ('\'' :: r.1, r.2)
      else some ([], d :: rest)
    else (readQuoted quote (d :: rest)).map fun r => (c :: r.1, r.2)

/-! ## The lexer -/

/-- Characters that end a bare word: blanks, brackets, angles, the bar and the quotes. -/
def isBareChar (c : Char) : Bool :=
  !(Text.isBlank c || "<>[]\x7b\x7d()|'\"".toList.contains c)

/-- The lexemes at the front of a text, given its first character and the rest, and what follows.
After a fault nothing is read. -/
def firstLexemes (c : Char) (rest : List Char) : List Lexeme × List Char :=
  match c with
  | '|' => ([.bar], rest)
  | '(' => ([.opening .round], rest)
  | '[' => ([.opening .square], rest)
  | '{' => ([.opening .curly], rest)
  | ')' => (.closing .round :: (readSuffix rest).1, (readSuffix rest).2)
  | ']' => (.closing .square :: (readField rest).1, (readField rest).2)
  | '}' => (.closing .curly :: (readField rest).1, (readField rest).2)
  | '<' =>
    match rest.dropWhile (· != '>') with
    | [] => ([.fault .unclosedReference], [])
    | _ :: more => (referenceLexemes (Text.trimBlank (rest.takeWhile (· != '>'))), more)
  | '>' => ([.fault (.unexpected '>')], [])
  | _ =>
    if c = '\'' ∨ c = '"' then
      match readQuoted c rest with
      | some (value, more) =>
        (.literal (String.ofList value) :: (readSuffix more).1, (readSuffix more).2)
      | none => ([.fault .unclosedLiteral], [])
    else if Text.isBlank c then ([], rest)
    else ([.bare (String.ofList (c :: rest.takeWhile isBareChar))], rest.dropWhile isBareChar)

theorem readName_length_le {cs more : List Char} {name : String}
    (h : readName cs = some (name, more)) : more.length ≤ cs.length := by
  unfold readName at h
  split at h
  · cases h
  · split at h
    · cases h
      exact Nat.le_succ_of_le (List.dropWhile_sublist _).length_le
    · cases h

theorem readQuantifier_length_le (cs : List Char) : (readQuantifier cs).2.length ≤ cs.length := by
  unfold readQuantifier
  split
  · exact Nat.le_refl _
  · split <;> simp

theorem readField_length_le (cs : List Char) : (readField cs).2.length ≤ cs.length := by
  unfold readField
  split
  · split
    next h => exact Nat.le_succ_of_le (readName_length_le h)
    next => exact Nat.zero_le _
  · exact Nat.le_refl _

theorem readSuffix_length_le (cs : List Char) : (readSuffix cs).2.length ≤ cs.length :=
  Nat.le_trans (readField_length_le _) (readQuantifier_length_le cs)

theorem readQuoted_length_le {quote : Char} {cs : List Char} {r : List Char × List Char}
    (h : readQuoted quote cs = some r) : r.2.length ≤ cs.length := by
  fun_induction readQuoted quote cs generalizing r with
  | case1 => cases h
  | case2 => cases h; exact Nat.zero_le _
  | case3 => cases h
  | case4 d rest ih =>
    obtain ⟨q, hq, rfl⟩ := Option.map_eq_some_iff.1 h
    have := ih hq
    simp only [List.length_cons]
    omega
  | case5 d rest _ _ ih =>
    obtain ⟨q, hq, rfl⟩ := Option.map_eq_some_iff.1 h
    have := ih hq
    simp only [List.length_cons]
    omega
  | case6 => cases h; exact Nat.le_succ _
  | case7 c d rest _ _ ih =>
    obtain ⟨q, hq, rfl⟩ := Option.map_eq_some_iff.1 h
    have := ih hq
    simp only [List.length_cons] at this ⊢
    omega

theorem firstLexemes_length_le (c : Char) (rest : List Char) :
    (firstLexemes c rest).2.length ≤ rest.length := by
  unfold firstLexemes
  split
  case h_5 => exact readSuffix_length_le rest
  case h_6 => exact readField_length_le rest
  case h_7 => exact readField_length_le rest
  case h_8 =>
    split
    next => exact Nat.zero_le _
    next more h =>
      have := (List.dropWhile_sublist (l := rest) (· != '>')).length_le
      rw [h, List.length_cons] at this
      exact Nat.le_of_succ_le this
  case h_9 => exact Nat.zero_le _
  case h_10 =>
    split
    · split
      next h => exact Nat.le_trans (readSuffix_length_le _) (readQuoted_length_le h)
      next => exact Nat.zero_le _
    · split
      · exact Nat.le_refl _
      · exact (List.dropWhile_sublist _).length_le
  all_goals exact Nat.le_refl _

/-- The lexemes of a pattern. -/
def lex : List Char → List Lexeme
  | [] => []
  | c :: rest => (firstLexemes c rest).1 ++ lex (firstLexemes c rest).2
termination_by cs => cs.length
decreasing_by
  have := firstLexemes_length_le c rest
  simp only [List.length_cons]
  omega

end LayeredGrammar.Pattern
