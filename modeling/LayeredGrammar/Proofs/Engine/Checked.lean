import LayeredGrammar.Engine.Parser

/-!
# The engine with checked lookups

The engine looks up rules and tokens by name, characters by position, the last character of a
literal, the best of a list of candidates and the first of a list of diagnostics. Where such a lookup
has no answer, the engine goes on with a value of its own. The checked engine is the same engine with
every lookup made where it is needed and reported as a `Fault` when it has no answer; a checked run
stops for a fault or for the limit on nested rules.

`ParseTable.parseChecked` reads a whole text that way.
-/

namespace LayeredGrammar

/-- A lookup without an answer. -/
inductive Fault where
  | missingRule (name : String)
  | missingToken (name : String)
  /-- The text has no character at a position. -/
  | pastEnd (pos : Nat)
  /-- A literal has no last character. -/
  | emptyLiteral
  /-- None of the alternatives that match is left in a choice inside `owner`. -/
  | noCandidate (owner : String)
  /-- A tree with errors has no diagnostic. -/
  | noDiagnostic
  deriving DecidableEq, Repr

/-- Why a checked run stops. -/
inductive Stop where
  | limit
  | fault (f : Fault)
  deriving DecidableEq, Repr

/-- A step of the checked engine. -/
abbrev CheckedEngine := EStateM Stop Memo

/-- How the checked engine asks for a rule. -/
abbrev CheckedMatcher := String → Nat → Int → CheckedEngine (Option Match)

namespace CheckedEngine

/-- Stop for a fault. -/
def fault {α : Type} (f : Fault) : CheckedEngine α := throw (.fault f)

/-- A lookup as a step of the engine. -/
def lookup {α : Type} : Except Fault α → CheckedEngine α
  | .ok a => pure a
  | .error f => fault f

/-- The remembered answer, or that of `compute`. A rule that is being matched does not match. -/
def remembered (key : MemoKey) (compute : CheckedEngine (Option Match)) :
    CheckedEngine (Option Match) := do
  match (← get)[key]? with
  | some .active => pure none
  | some (.known m) => pure m
  | none => compute

/-- Note what is known under a key. -/
def record (key : MemoKey) (entry : MemoEntry) : CheckedEngine Unit := modify (·.insert key entry)

end CheckedEngine

/-- The match that wins a choice inside `owner`, unless no alternative matches. -/
def Candidate.bestChecked (registry : ConflictRegistry) (owner : String) :
    List Candidate → Except Fault (Option Match)
  | [] => .ok none
  | c :: cs =>
    match best registry owner (c :: cs) with
    | some m => .ok (some m)
    | none => .error (.noCandidate owner)

namespace Session.Checked

open CheckedEngine (fault lookup)

variable (s : Session)

/-! ## Scanning -/

/-- The first of several literals that stands at a position; one that ends in a word character must
end a word. -/
def firstFitting (pos : Nat) : List Literal → Except Fault (Option Literal)
  | [] => .ok none
  | l :: ls =>
    if hasAt s.text pos l.chars then
      let stop := pos + l.chars.length
      match l.chars.getLast? with
      | none => .error .emptyLiteral
      | some last =>
        if Text.isWordChar last && decide (stop < s.size) then
          match s.text[stop]? with
          | none => .error (.pastEnd stop)
          | some c => if Text.isWordChar c then firstFitting pos ls else .ok (some l)
        else .ok (some l)
    else firstFitting pos ls

/-- The longest literal at a position, looked for among those that start with its character. -/
def literalAt (pos : Nat) : Except Fault (Option Literal) :=
  if s.size ≤ pos then .ok none
  else match s.text[pos]? with
    | none => .error (.pastEnd pos)
    | some c => firstFitting s pos (s.table.literals.filter (·.chars.head? == some c))

/-- Where the raw token at a position ends: the longest literal or token, or else a character. -/
def rawTokenEnd (pos : Nat) : Except Fault Nat := do
  let literalEnd := match ← literalAt s pos with
    | some l => pos + l.chars.length
    | none => pos
  let longest := s.grammar.tokens.foldl
    (fun stop (_, t) => max stop ((t.matchAt s.text pos).getD pos)) literalEnd
  if pos < longest then .ok longest
  else match s.text[pos]? with
    | none => .error (.pastEnd pos)
    | some _ => .ok (pos + 1)

/-- The match of a literal after extras. -/
def matchLiteral (value : String) (pos : Nat) : Except Fault (Option Match) := do
  let start := s.skip pos
  match ← literalAt s start with
  | some l =>
    if l.text = value then
      let stop := start + l.chars.length
      .ok (some { start := start, stop := stop,
                  items := [(Node.leaf value start stop false, [])], lead := true })
    else .ok none
  | none => .ok none

/-- The match of a token after extras. -/
def matchToken (name : String) (pos : Nat) : Except Fault (Option Match) :=
  match s.grammar.tokens.get? name with
  | some t => .ok (s.matchToken name t pos)
  | none => .error (.missingToken name)

/-- The next token of an error region that has reached a position inside `depth` brackets. -/
def regionPass (depth cursor : Nat) : Except Fault (Option (Nat × Option Nat)) := do
  let start := s.skip cursor
  if s.size ≤ start then .ok none
  else
    let stop ← rawTokenEnd s start
    let token := s.slice start stop
    if depth = 0 ∧ s.isStop token then .ok none
    else if isOpener token then .ok (some (stop, some (depth + 1)))
    else if isCloser token then
      .ok (some (stop, if depth = 1 ∧ token = "\x7d" then none else some (depth - 1)))
    else .ok (some (stop, if token = ";" ∧ depth = 0 then none else some depth))

/-- Where an error region ends that has reached a position inside `depth` brackets, at most `n`
tokens further on. -/
def regionEnd : Nat → Nat → Nat → Except Fault Nat
  | 0, _, cursor => .ok cursor
  | n + 1, depth, cursor => do
    match ← regionPass s depth cursor with
    | none => .ok cursor
    | some (stop, none) => .ok stop
    | some (stop, some depth') => regionEnd n depth' stop

/-- The error region at a position, if one can start there. -/
def errorSpan (pos : Nat) : Except Fault (Option (Nat × Nat)) := do
  let start := s.skip pos
  if s.size ≤ start then .ok none
  else
    let stop ← rawTokenEnd s start
    if s.isStop (s.slice start stop) then .ok none
    else do
      let regionStop ← regionEnd s (s.size + 1) 0 start
      .ok (some (start, regionStop))

/-! ## Productions -/

/-- One more round of a repetition. -/
def repeatPass (recovering : Bool) (expected : List Terminal)
    (content : Nat → CheckedEngine (Option Match)) (run : Run) : CheckedEngine (Option Run) := do
  let found ← content run.cursor
  match found.filter (run.cursor < ·.stop) with
  | some m => pure (some (run.take m))
  | none =>
    let span ← lookup (if recovering then errorSpan s run.cursor else .ok none)
    pure (span.map fun (start, stop) => run.pushError start stop expected)

/-- Go on with a repetition as long as there are rounds, at most `n` of them. -/
def repeatFrom (recovering : Bool) (expected : List Terminal)
    (content : Nat → CheckedEngine (Option Match)) : Nat → Nat → Run → CheckedEngine (Run × Nat)
  | 0, count, run => pure (run, count)
  | n + 1, count, run => do
    match ← repeatPass s recovering expected content run with
    | some next => repeatFrom recovering expected content n (count + 1) next
    | none => pure (run, count)

mutual

/-- Match a production at a position inside the rule `owner`. -/
def matchProduction (call : CheckedMatcher) (owner : String) :
    Production → Nat → CheckedEngine (Option Match)
  | .lit value, pos => lookup (matchLiteral s value pos)
  | .ref name, pos =>
    if s.grammar.tokens.has name then lookup (matchToken s name pos) else call name pos 0
  | .seq items, pos => matchItems call owner items (.begin pos)
  | .choice members, pos => do
    let found ← matchMembers call owner members 0 pos
    lookup (Candidate.bestChecked s.grammar.conflicts owner found)
  | .rep content least recover, pos => do
    let (run, count) ← repeatFrom s (recover && s.recover) (s.table.expectedFor content)
      (matchProduction call owner content) (s.size + 1) 0 (.begin pos)
    pure (if (count : Int) < least then none else some run.toMatch)
  | .opt content, pos => do
    let found ← matchProduction call owner content pos
    pure (some (found.getD (.empty pos)))
  | .blank, pos => pure (some (.empty pos))
  | .field name content, pos => do
    let found ← matchProduction call owner content pos
    pure (found.map (·.withFields [name]))
  | .renamed content kind, pos => do
    let found ← matchProduction call owner content pos
    pure (found.map (·.rename content kind))
  | .prec _ content _ _, pos => matchProduction call owner content pos

/-- Match items in a row. -/
def matchItems (call : CheckedMatcher) (owner : String) :
    List Production → Run → CheckedEngine (Option Match)
  | [], run => pure (some run.toMatch)
  | p :: ps, run => do
    match ← matchProduction call owner p run.cursor with
    | some m => matchItems call owner ps (run.push m)
    | none => pure none

/-- Match each member of a choice; `index` is the position of the first one. -/
def matchMembers (call : CheckedMatcher) (owner : String) :
    List Production → Nat → Nat → CheckedEngine (List Candidate)
  | [], _, _ => pure []
  | p :: ps, index, pos => do
    let found ← matchProduction call owner p pos
    let others ← matchMembers call owner ps (index + 1) pos
    pure (match found with
      | some m => ⟨index, p.label?, m⟩ :: others
      | none => others)

end

/-! ## Rules -/

/-- Match one element of an alternative. -/
def matchElement (call : CheckedMatcher) (rule : String) (minPrec : Int) (e : Element) (pos : Nat) :
    CheckedEngine (Option Match) :=
  match e.selfFields with
  | some names => do
    let found ← call rule pos minPrec
    pure (found.map (·.withFields names))
  | none => matchProduction s call rule e.body pos

/-- Match the elements of an alternative in a row. -/
def matchElements (call : CheckedMatcher) (rule : String) (rightMin : Int) :
    List Element → Run → CheckedEngine (Option Match)
  | [], run => pure (some run.toMatch)
  | e :: es, run => do
    match ← matchElement s call rule (if es.isEmpty then rightMin else 0) e run.cursor with
    | some m => matchElements call rule rightMin es (run.push m)
    | none => pure none

/-- The matches with which a rule can start. -/
def seeds (call : CheckedMatcher) (rule : String) (pos : Nat) :
    List Alternative → CheckedEngine (List Candidate)
  | [] => pure []
  | a :: as => do
    let found ← matchElements s call rule a.rightMin a.elements (.begin pos)
    let others ← seeds call rule pos as
    pure (match found with
      | some m => ⟨a.index, a.label, dress a m⟩ :: others
      | none => others)

/-- Grow a match by the first alternative that has the precedence and adds text. -/
def growOnce (call : CheckedMatcher) (rule : String) (minPrec : Int) (left : Match) :
    List Alternative → CheckedEngine (Option Match)
  | [] => pure none
  | a :: as => do
    if a.rank < minPrec then growOnce call rule minPrec left as
    else
      match ← matchElements s call rule a.rightMin (a.elements.drop 1) (.begin left.stop) with
      | some m =>
        if left.stop < m.stop then pure (some (extended a left m))
        else growOnce call rule minPrec left as
      | none => growOnce call rule minPrec left as

/-- Grow a match by a postfix alternative if one fits, else by a left-recursive one. -/
def growPass (call : CheckedMatcher) (rule : String) (minPrec : Int) (alts : RuleAlternatives)
    (left : Match) : CheckedEngine (Option Match) := do
  match ← growOnce s call rule minPrec left alts.postfixed with
  | some m => pure (some m)
  | none => growOnce s call rule minPrec left alts.leftRec

/-- Grow a match as far as it goes, at most `n` times. -/
def grow (call : CheckedMatcher) (rule : String) (minPrec : Int) (alts : RuleAlternatives) :
    Nat → Match → CheckedEngine Match
  | 0, left => pure left
  | n + 1, left => do
    match ← growPass s call rule minPrec alts left with
    | some m => grow call rule minPrec alts n m
    | none => pure left

/-- Match the alternatives of a rule. -/
def matchAlternatives (call : CheckedMatcher) (rule : String) (alts : RuleAlternatives) (pos : Nat)
    (minPrec : Int) : CheckedEngine (Option Match) := do
  let found ← seeds s call rule pos (alts.prefixed ++ alts.plain)
  match ← lookup (Candidate.bestChecked s.grammar.conflicts rule found) with
  | none => pure none
  | some left => do
    let grown ← grow s call rule minPrec alts (s.size + 1) left
    pure (some grown)

/-- What a rule makes of its text. -/
def answer (call : CheckedMatcher) (key : MemoKey) : CheckedEngine (Option Match) :=
  match s.table.rules.get? key.rule with
  | some alts => do
    let found ← matchAlternatives s call key.rule alts key.pos key.minPrec
    pure (found.map (·.finish key.rule))
  | none => fault (.missingRule key.rule)

/-- Match a rule and remember the answer; the rule is marked meanwhile. -/
def matchFresh (call : CheckedMatcher) (key : MemoKey) : CheckedEngine (Option Match) := do
  CheckedEngine.record key .active
  let found ← answer s call key
  CheckedEngine.record key (.known found)
  pure found

/-- Match a rule at a position, with at most `limit` rules inside each other. -/
def matchRule : Nat → CheckedMatcher
  | 0, rule, pos, minPrec => CheckedEngine.remembered ⟨rule, pos, minPrec⟩ (throw .limit)
  | limit + 1, rule, pos, minPrec =>
    CheckedEngine.remembered ⟨rule, pos, minPrec⟩
      (matchFresh s (matchRule limit) ⟨rule, pos, minPrec⟩)

/-! ## Whole texts -/

/-- Try the start rule at a position and skip what it leaves over. -/
def parsePass (call : CheckedMatcher) (pos : Nat) (items : List Item) :
    CheckedEngine (List Item × Option Nat) := do
  let found ← call s.grammar.start pos 0
  let (read, reached) := readOn s.grammar.start items pos found
  let start := s.skip reached
  if s.size ≤ start then pure (read, none)
  else if s.recover then
    let stop ← lookup (rawTokenEnd s start)
    pure ((Node.error start stop s.table.rootExpected, []) :: read, some stop)
  else pure ((Node.error start s.size s.table.rootExpected, []) :: read, none)

/-- Read the text from a position on, at most `n` times trying the start rule. -/
def parseFrom (call : CheckedMatcher) : Nat → Nat → List Item → CheckedEngine (List Item)
  | 0, _, items => pure items
  | n + 1, pos, items => do
    match ← parsePass s call pos items with
    | (read, some next) => parseFrom call n next read
    | (read, none) => pure read

/-- The tree of the whole text. -/
def parse (limit : Nat) : CheckedEngine Node := do
  let items ← parseFrom s (matchRule s limit) (s.size + 1) 0 []
  pure (Node.ofItems s.grammar.start items.reverse 0 s.size)

end Session.Checked

/-- What a parse with checked lookups ends in: a tree, or the reason why there is none, or a fault. -/
def ParseTable.parseChecked (table : ParseTable) (recover strict : Bool) (text : List Char)
    (limit : Nat := nestingLimit) : Except (ParseError ⊕ Fault) Tree :=
  match Session.Checked.parse ⟨table, recover, text.toArray⟩ limit {} with
  | .error .limit _ => .error (.inl .tooDeep)
  | .error (.fault f) _ => .error (.inr f)
  | .ok root _ =>
    let tree : Tree := ⟨root, text⟩
    if strict && tree.hasError then
      match tree.diagnostics with
      | first :: others => .error (.inl (.rejected first others))
      | [] => .error (.inr .noDiagnostic)
    else .ok tree

end LayeredGrammar
