import LayeredGrammar.Engine.Match
import LayeredGrammar.Grammar.ParseTable

/-!
# Scanning a text

Reference model of the methods of `_Session` that scan. A session is a parse table, a text and the
decision whether to recover from errors:

* `Session.skip` — `skip`: between tokens the extras are skipped.
* `Session.literalAt` — `literal_at`: at a position stands at most one literal, the longest that fits.
* `Session.rawToken?` — `raw_token`: where nothing else is known, the longest literal or token, or else
  a single character.
* `Session.matchLiteral`, `Session.matchToken` — `_lit` and `_token`, which leave one leaf.
* `Session.errorSpan` — `_error_span`: an error region runs over balanced brackets up to a semicolon or
  a closing brace outside all brackets, and stops before a closing bracket or a recovery stop there
  (`regionPass`, `regionEnd`).
-/

namespace LayeredGrammar

/-- A text being parsed. -/
structure Session where
  table : ParseTable
  recover : Bool
  text : Array Char

namespace Session

variable (s : Session)

/-- The length of the text. -/
def size : Nat := s.text.size

/-- The grammar of the session. -/
def grammar : Grammar := s.table.grammar

/-- The characters from one position up to another. -/
def slice (start stop : Nat) : String := String.ofList (s.text.extract start stop).toList

/-- The position after the extras at a position. -/
def skip (pos : Nat) : Nat := s.grammar.extras.skip s.text pos

/-- Whether the text has the given characters at a position. -/
def hasAt (text : Array Char) : Nat → List Char → Bool
  | _, [] => true
  | pos, c :: cs => text[pos]? == some c && hasAt text (pos + 1) cs

/-- Whether a literal stands at a position; one that ends in a word character must end a word. -/
def fits (pos : Nat) (l : Literal) : Bool :=
  hasAt s.text pos l.chars && !(l.wordLike && Regex.wordAt s.text (pos + l.chars.length))

/-- The longest literal at a position. -/
def literalAt (pos : Nat) : Option Literal :=
  if s.size ≤ pos then none else s.table.literals.find? (s.fits pos)

/-- Where the raw token at a position ends. -/
def rawTokenEnd (pos : Nat) : Nat :=
  let literalEnd := match s.literalAt pos with
    | some l => pos + l.chars.length
    | none => pos
  let longest := s.grammar.tokens.foldl
    (fun stop (_, t) => max stop ((t.matchAt s.text pos).getD pos)) literalEnd
  max longest (pos + 1)

/-- The raw token at a position before the end of the text. -/
def rawToken? (pos : Nat) : Option String :=
  if pos < s.size then some (s.slice pos (s.rawTokenEnd pos)) else none

/-- The match of a literal after extras. -/
def matchLiteral (value : String) (pos : Nat) : Option Match :=
  let start := s.skip pos
  match s.literalAt start with
  | some l =>
    if l.text = value then
      let stop := start + l.chars.length
      some { start := start, stop := stop,
             items := [(Node.leaf value start stop false, [])], lead := true }
    else none
  | none => none

/-- The match of a token after extras. A token is not empty, and the word token is not a reserved
word. -/
def matchToken (name : String) (t : Token) (pos : Nat) : Option Match :=
  let start := s.skip pos
  match t.matchAt s.text start with
  | none => none
  | some stop =>
    if stop ≤ start then none
    else if s.grammar.word == some name && s.grammar.reserved.contains (s.slice start stop) then
      none
    else some { start := start, stop := stop, items := [(Node.leaf name start stop true, [])] }

/-! ## Error regions -/

/-- Opening brackets. -/
def isOpener (token : String) : Bool := token == "(" || token == "[" || token == "\x7b"

/-- Closing brackets. -/
def isCloser (token : String) : Bool := token == ")" || token == "]" || token == "\x7d"

/-- Tokens before which an error region stops outside all brackets. -/
def isStop (token : String) : Bool := isCloser token || s.grammar.recoveryStops.contains token

/-- The next token of an error region that has reached a position inside `depth` brackets: where
the token ends, and the depth after it unless it is the last one. -/
def regionPass (depth cursor : Nat) : Option (Nat × Option Nat) :=
  let start := s.skip cursor
  match s.rawToken? start with
  | none => none
  | some token =>
    let stop := s.rawTokenEnd start
    if depth = 0 ∧ s.isStop token then none
    else if isOpener token then some (stop, some (depth + 1))
    else if isCloser token then
      some (stop, if depth = 1 ∧ token = "\x7d" then none else some (depth - 1))
    else some (stop, if token = ";" ∧ depth = 0 then none else some depth)

/-- Where an error region ends that has reached a position inside `depth` brackets, at most `n`
tokens further on. -/
def regionEnd : Nat → Nat → Nat → Nat
  | 0, _, cursor => cursor
  | n + 1, depth, cursor =>
    match s.regionPass depth cursor with
    | none => cursor
    | some (stop, none) => stop
    | some (stop, some depth') => regionEnd n depth' stop

/-- The error region at a position, if one can start there. -/
def errorSpan (pos : Nat) : Option (Nat × Nat) :=
  let start := s.skip pos
  match s.rawToken? start with
  | none => none
  | some first => if s.isStop first then none else some (start, s.regionEnd (s.size + 1) 0 start)

end Session

end LayeredGrammar
