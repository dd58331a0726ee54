import LayeredGrammar.Pattern.Reading

/-!
# Reading patterns by descent

Reference model of `parse_pattern`: an alternation reads sequences, a sequence reads elements, and the
element that a bracket opens reads an alternation again, up to the character that closes the bracket.
Every function returns what it read and the text behind that, which is no longer than the text it was
given, so that the recursion ends.

The descent has two errors more than `Pattern.read`: a group may turn out not to be closed where its
alternation ends, and text may be left over behind the outermost alternation.
-/

namespace LayeredGrammar.Pattern

/-- What can end the descent. -/
inductive Trouble where
  | fault (f : Fault)
  /-- A group is not closed where its alternation ends. -/
  | unclosed (b : Bracket)
  /-- There is text behind the outermost alternation. -/
  | leftOver (c : Char)
  deriving DecidableEq, Repr

/-- What ended the descent, in words. -/
def Trouble.message (pattern : String) : Trouble → String
  | .fault f => f.message pattern
  | .unclosed b => "Unclosed " ++ b.opener.toString ++ " in pattern: " ++ pattern
  | .leftOver c => "Unexpected '" ++ c.toString ++ "' in pattern: " ++ pattern

/-- A step of the descent: it notes bare words that look like names. -/
abbrev Descent := Traced String Trouble

/-- What is left of a text. -/
abbrev Rest (cs : List Char) := { rest : List Char // rest.length ≤ cs.length }

/-- What is left of a text is left of a longer one. -/
def widen {α : Type} {cs ds : List Char} (h : ds.length ≤ cs.length) (r : α × Rest ds) :
    α × Rest cs :=
  (r.1, ⟨r.2.1, Nat.le_trans r.2.2 h⟩)

theorem widen_rest {α : Type} {cs ds : List Char} (h : ds.length ≤ cs.length) (r : α × Rest ds) :
    (widen h r).2.1 = r.2.1 := rfl

/-! ## Suffixes -/

/-- A production under the quantifier at the front of a text, if there is one. -/
def quantified (p : Production) : (cs : List Char) → Production × Rest cs
  | [] => (p, ⟨[], Nat.le_refl _⟩)
  | c :: cs =>
    match quantifier? c with
    | some q => (q.apply p, ⟨cs, Nat.le_succ _⟩)
    | none => (p, ⟨c :: cs, Nat.le_refl _⟩)

/-- A production under the field name at the front of a text, if there is one. -/
def fielded (p : Production) : (cs : List Char) → Descent (Production × Rest cs)
  | ':' :: cs =>
    match h : readName cs with
    | some (name, more) => pure (.field name p, ⟨more, Nat.le_succ_of_le (readName_length_le h)⟩)
    | none => .fail (.fault .missingFieldName)
  | cs => pure (p, ⟨cs, Nat.le_refl _⟩)

/-- A production under a quantifier and a field name, both optional. -/
def suffixed (p : Production) (cs : List Char) : Descent (Production × Rest cs) :=
  let (q, rest) := quantified p cs
  widen rest.2 <$> fielded q rest.1

/-- A group with what follows its closing bracket: only round brackets take a quantifier. -/
def grouped (b : Bracket) (inner : Production) (cs : List Char) : Descent (Production × Rest cs) :=
  match b with
  | .round => suffixed (b.enclose inner) cs
  | .square | .curly => fielded (b.enclose inner) cs

/-! ## Elements without brackets -/

/-- A production under what may follow the name and quantifier of a reference: nothing, or a colon and
a field name with blanks around the colon. -/
def targeted? (p : Production) (cs : List Char) : Option Production :=
  match cs.dropWhile Text.isBlank with
  | [] => some p
  | ':' :: rest =>
    match readName (rest.dropWhile Text.isBlank) with
    | some (name, []) => some (.field name p)
    | _ => none
  | _ => none

/-- The production for what stands between angle brackets: a name, a quantifier directly after it, and
a field name. -/
def reference? (content : List Char) : Option Production := do
  let (name, more) ← readName content
  let (p, rest) := quantified (.ref name) more
  targeted? p rest.1

theorem length_le_of_dropWhile {cs more : List Char} {test : Char → Bool} {c : Char}
    (h : cs.dropWhile test = c :: more) : more.length ≤ cs.length := by
  have hle := (List.dropWhile_sublist (l := cs) test).length_le
  rw [h, List.length_cons] at hle
  exact Nat.le_of_succ_le hle

/-- The group that a character opens. -/
def opened? : Char → Option Bracket
  | '(' => some .round
  | '[' => some .square
  | '{' => some .curly
  | _ => none

/-- The group that a character closes. -/
def closed? : Char → Option Bracket
  | ')' => some .round
  | ']' => some .square
  | '}' => some .curly
  | _ => none

/-- An element that does not begin with an opening bracket, given its first character and the text
behind that. -/
def atom (c : Char) (cs : List Char) : Descent (Production × Rest cs) :=
  if c = '<' then
    match h : cs.dropWhile (· != '>') with
    | [] => .fail (.fault .unclosedReference)
    | _ :: more =>
      let content := Text.trimBlank (cs.takeWhile (· != '>'))
      match reference? content with
      | some p => pure (p, ⟨more, length_le_of_dropWhile h⟩)
      | none => .fail (.fault (.invalidReference (String.ofList content)))
  else if c = '\'' ∨ c = '"' then
    match h : readQuoted c cs with
    | some (value, more) =>
      widen (readQuoted_length_le h) <$> suffixed (.lit (String.ofList value)) more
    | none => .fail (.fault .unclosedLiteral)
  else
    match closed? c with
    | some b => .fail (.fault (.unbalanced b))
    | none =>
      if isBareChar c then do
        let word := String.ofList (c :: cs.takeWhile isBareChar)
        if looksLikeName word then Traced.note word
        pure (.lit word, ⟨cs.dropWhile isBareChar, (List.dropWhile_sublist _).length_le⟩)
      else .fail (.fault (.unexpected c))

/-! ## The descent -/

mutual

/-- Branches separated by bars, up to the character that closes the group. -/
def alternation (stop : Option Bracket) (cs : List Char) : Descent (Production × Rest cs) := do
  let (items, rest) ← sequence stop [] cs
  widen rest.2 <$> branches stop ⟨[], items⟩ rest.1
termination_by 3 * cs.length + 1
decreasing_by
  · omega
  · have := rest.2
    omega

/-- The branches that follow those read so far. -/
def branches (stop : Option Bracket) (frame : Frame) : (cs : List Char) →
    Descent (Production × Rest cs)
  | '|' :: cs => do
    let (items, rest) ← sequence stop [] cs
    widen (Nat.le_succ_of_le rest.2) <$> branches stop { frame.split with items := items } rest.1
  | cs => pure (frame.close, ⟨cs, Nat.le_refl _⟩)
termination_by cs => 3 * cs.length
decreasing_by
  · simp only [List.length_cons]
    omega
  · have := rest.2
    simp only [List.length_cons]
    omega

/-- The items of a branch, latest first, behind those read so far. -/
def sequence (stop : Option Bracket) (items : List Production) : (cs : List Char) →
    Descent (List Production × Rest cs)
  | [] =>
    match stop with
    | some b => .fail (.fault (.unclosedGroup b))
    | none => pure (items, ⟨[], Nat.le_refl _⟩)
  | c :: cs =>
    if Text.isBlank c then widen (Nat.le_succ _) <$> sequence stop items cs
    else if c = '|' ∨ stop.map Bracket.closer = some c then
      pure (items, ⟨c :: cs, Nat.le_refl _⟩)
    else do
      let (p, rest) ← element c cs
      widen (Nat.le_succ_of_le rest.2) <$> sequence stop (p :: items) rest.1
termination_by cs => 3 * cs.length
decreasing_by
  · simp only [List.length_cons]
    omega
  · simp only [List.length_cons]
    omega
  · have := rest.2
    simp only [List.length_cons]
    omega

/-- One item, given its first character and the text behind that. -/
def element (c : Char) (cs : List Char) : Descent (Production × Rest cs) :=
  match opened? c with
  | some b => do
    let (inner, rest) ← alternation (some b) cs
    match rest with
    | ⟨[], _⟩ => .fail (.unclosed b)
    | ⟨d :: more, h⟩ =>
      if d = b.closer then widen (Nat.le_of_succ_le h) <$> grouped b inner more
      else .fail (.unclosed b)
  | none => atom c cs
termination_by 3 * cs.length + 2

end

/-- The production a pattern denotes, read by descent. -/
def descend (pattern : String) : Traced BareWord Trouble Production :=
  let read : Descent Production := do
    let (p, rest) ← alternation none pattern.toList
    match rest.1 with
    | [] => pure p
    | c :: _ => .fail (.leftOver c)
  read.embed (⟨pattern, ·⟩) id

end LayeredGrammar.Pattern
