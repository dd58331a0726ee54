import LayeredGrammar.Engine.Memo
import LayeredGrammar.Engine.Session
import LayeredGrammar.Node.Diagnostic

/-!
# The parsing engine

Reference model of the methods of `_Session` that match, and of `Grammar.parse`:

* `Session.matchProduction` — `match`, which follows the structure of a production: a sequence
  (`_seq`) by `matchItems`, a repetition (`_repeat`) by `repeatPass` and `repeatFrom`, a choice by
  `matchMembers` and `Candidate.best`, a renamed production (`_alias`) by `Match.rename`. Rules are
  asked for through a given function.
* `Session.matchElements` — `_match_alt`, the elements of an alternative in a row; `Session.dress` is
  `_wrap`.
* `Session.answer` — `_match_rule`. A rule starts with the best of its alternatives that do not begin
  with the rule itself (`seeds`), and the match then grows to the right by the others as long as it
  can (`_grow`; `growOnce`, `growPass`, `grow`): first by postfix alternatives, then by left-recursive
  ones, highest precedence first. `Match.finish` is `_finish`.
* `Session.matchRule` — `match_rule`, with the memo; it closes the circle, one rule deeper each time.
* `Session.parse` — `parse`. What the start rule leaves over is skipped token by token, each as an
  error region, and the start rule is tried again (`parsePass`, `parseFrom`).
* `ParseTable.parse` — `Grammar.parse`, which also decides what happens to errors.

Loops that consume text run at most once for each position of the text. The limit on nested rules is a
number of rules inside each other, where the program has the depth of its call stack.
-/

namespace LayeredGrammar

/-- How a rule is asked for: its name, a position and a least precedence. -/
abbrev RuleMatcher := String → Nat → Int → Engine (Option Match)

namespace Session

variable (s : Session)

/-! ## Repetition -/

/-- One more round of a repetition: take in another match of the content if there is one, else with
`recovering` an error region. -/
def repeatPass (recovering : Bool) (expected : List Terminal)
    (content : Nat → Engine (Option Match)) (run : Run) : Engine (Option Run) := do
  let found ← content run.cursor
  match found.filter (run.cursor < ·.stop) with
  | some m => pure (some (run.take m))
  | none =>
    match if recovering then s.errorSpan run.cursor else none with
    | some (start, stop) => pure (some (run.pushError start stop expected))
    | none => pure none

/-- Go on with a repetition as long as there are rounds, at most `n` of them. -/
def repeatFrom (recovering : Bool) (expected : List Terminal)
    (content : Nat → Engine (Option Match)) : Nat → Nat → Run → Engine (Run × Nat)
  | 0, count, run => pure (run, count)
  | n + 1, count, run => do
    match ← s.repeatPass recovering expected content run with
    | some next => repeatFrom recovering expected content n (count + 1) next
    | none => pure (run, count)

/-! ## Productions -/

mutual

/-- Match a production at a position inside the rule `owner`. -/
def matchProduction (call : RuleMatcher) (owner : String) :
    Production → Nat → Engine (Option Match)
  | .lit value, pos => pure (s.matchLiteral value pos)
  | .ref name, pos =>
    match s.grammar.tokens.get? name with
    | some t => pure (s.matchToken name t pos)
    | none => call name pos 0
  | .seq items, pos => matchItems call owner items (.begin pos)
  | .choice members, pos => do
    let found ← matchMembers call owner members 0 pos
    pure (Candidate.best s.grammar.conflicts owner found)
  | .rep content least recover, pos => do
    let (run, count) ← s.repeatFrom (recover && s.recover) (s.table.expectedFor content)
      (matchProduction call owner content) (s.size + 1) 0 (.begin pos)
    pure (if (count : Int) < least then none else some run.toMatch)
  | .opt content, pos => do
    let found ← matchProduction call owner content pos
    pure (some (found.getD (.empty pos)))
  | .blank, pos => pure (some (.empty pos))
  | .field name content, pos => do
    let found ← matchProduction call owner content pos
    pure (found.map (·.withFields [name]))
  | .renamed content kind, pos => do
    let found ← matchProduction call owner content pos
    pure (found.map (·.rename content kind))
  | .prec _ content _ _, pos => matchProduction call owner content pos

/-- Match items in a row. -/
def matchItems (call : RuleMatcher) (owner : String) : List Production → Run → Engine (Option Match)
  | [], run => pure (some run.toMatch)
  | p :: ps, run => do
    match ← matchProduction call owner p run.cursor with
    | some m => matchItems call owner ps (run.push m)
    | none => pure none

/-- Match each member of a choice; `index` is the position of the first one. -/
def matchMembers (call : RuleMatcher) (owner : String) :
    List Production → Nat → Nat → Engine (List Candidate)
  | [], _, _ => pure []
  | p :: ps, index, pos => do
    let found ← matchProduction call owner p pos
    let others ← matchMembers call owner ps (index + 1) pos
    pure (match found with
      | some m => ⟨index, p.label?, m⟩ :: others
      | none => others)

end

/-! ## Rules -/

/-- Match one element of an alternative. A reference to the rule itself asks for at least
`minPrec`. -/
def matchElement (call : RuleMatcher) (rule : String) (minPrec : Int) (e : Element) (pos : Nat) :
    Engine (Option Match) :=
  match e.selfFields with
  | some names => do
    let found ← call rule pos minPrec
    pure (found.map (·.withFields names))
  | none => s.matchProduction call rule e.body pos

/-- Match the elements of an alternative in a row. A reference to the rule itself at the end asks
for at least `rightMin`. -/
def matchElements (call : RuleMatcher) (rule : String) (rightMin : Int) :
    List Element → Run → Engine (Option Match)
  | [], run => pure (some run.toMatch)
  | e :: es, run => do
    match ← s.matchElement call rule (if es.isEmpty then rightMin else 0) e run.cursor with
    | some m => matchElements call rule rightMin es (run.push m)
    | none => pure none

/-- What an alternative makes of its match. -/
def dress (a : Alternative) (m : Match) : Match :=
  let marked := if a.layered then { m with layered := true } else m
  match a.kind with
  | some kind => marked.wrap kind
  | none => marked

/-- An alternative may mark its match as layered, and puts it under its node if it has one. -/
theorem dress_cases (a : Alternative) (m : Match) : ∃ layered,
    (a.kind = none ∧ dress a m = { m with layered := layered }) ∨
    ∃ kind, a.kind = some kind ∧ dress a m = { m with layered := layered }.wrap kind := by
  unfold dress
  refine ⟨a.layered || m.layered, ?_⟩
  cases a.kind with
  | none => cases a.layered <;> exact Or.inl ⟨rfl, rfl⟩
  | some kind => cases a.layered <;> exact Or.inr ⟨kind, rfl, rfl⟩

/-- The matches with which a rule can start. -/
def seeds (call : RuleMatcher) (rule : String) (pos : Nat) :
    List Alternative → Engine (List Candidate)
  | [] => pure []
  | a :: as => do
    let found ← s.matchElements call rule a.rightMin a.elements (.begin pos)
    let others ← seeds call rule pos as
    pure (match found with
      | some m => ⟨a.index, a.label, dress a m⟩ :: others
      | none => others)

/-- A match followed by what an alternative that begins with the rule adds to it. -/
def extended (a : Alternative) (left right : Match) : Match :=
  dress a ((left.withFields a.leadFields).join right)

/-- Grow a match by the first alternative that has the precedence and adds text. -/
def growOnce (call : RuleMatcher) (rule : String) (minPrec : Int) (left : Match) :
    List Alternative → Engine (Option Match)
  | [] => pure none
  | a :: as => do
    if a.rank < minPrec then growOnce call rule minPrec left as
    else
      match ← s.matchElements call rule a.rightMin (a.elements.drop 1) (.begin left.stop) with
      | some m =>
        if left.stop < m.stop then pure (some (extended a left m))
        else growOnce call rule minPrec left as
      | none => growOnce call rule minPrec left as

/-- Grow a match by a postfix alternative if one fits, else by a left-recursive one. -/
def growPass (call : RuleMatcher) (rule : String) (minPrec : Int) (alts : RuleAlternatives)
    (left : Match) : Engine (Option Match) := do
  match ← s.growOnce call rule minPrec left alts.postfixed with
  | some m => pure (some m)
  | none => s.growOnce call rule minPrec left alts.leftRec

/-- Grow a match as far as it goes, at most `n` times. -/
def grow (call : RuleMatcher) (rule : String) (minPrec : Int) (alts : RuleAlternatives) :
    Nat → Match → Engine Match
  | 0, left => pure left
  | n + 1, left => do
    match ← s.growPass call rule minPrec alts left with
    | some m => grow call rule minPrec alts n m
    | none => pure left

/-- Match the alternatives of a rule. -/
def matchAlternatives (call : RuleMatcher) (rule : String) (alts : RuleAlternatives) (pos : Nat)
    (minPrec : Int) : Engine (Option Match) := do
  let found ← s.seeds call rule pos (alts.prefixed ++ alts.plain)
  match Candidate.best s.grammar.conflicts rule found with
  | none => pure none
  | some left => do
    let grown ← s.grow call rule minPrec alts (s.size + 1) left
    pure (some grown)

/-- What a rule makes of its text; a rule that is not there does not match. -/
def answer (call : RuleMatcher) (key : MemoKey) : Engine (Option Match) :=
  match s.table.rules.get? key.rule with
  | some alts => do
    let found ← s.matchAlternatives call key.rule alts key.pos key.minPrec
    pure (found.map (·.finish key.rule))
  | none => pure none

/-- Match a rule and remember the answer; the rule is marked meanwhile. -/
def matchFresh (call : RuleMatcher) (key : MemoKey) : Engine (Option Match) := do
  Engine.record key .active
  let found ← s.answer call key
  Engine.record key (.known found)
  pure found

/-- Match a rule at a position, with at most `limit` rules inside each other. -/
def matchRule : Nat → RuleMatcher
  | 0, rule, pos, minPrec => Engine.remembered ⟨rule, pos, minPrec⟩ (throw .tooDeep)
  | limit + 1, rule, pos, minPrec =>
    Engine.remembered ⟨rule, pos, minPrec⟩ (s.matchFresh (matchRule limit) ⟨rule, pos, minPrec⟩)

/-! ## Whole texts -/

/-- The items of a match of the start rule: its own nodes give way to their children. -/
def rootItems (start : String) (m : Match) : List Item :=
  m.items.flatMap fun (node, names) =>
    if node.kind = start then node.children.zipIdx.map fun (c, i) => (c, node.fieldNamesOf i)
    else [(node, names)]

/-- What was read, latest first, and up to where, once the start rule has been tried at a
position. -/
def readOn (start : String) (items : List Item) (pos : Nat) : Option Match → List Item × Nat
  | some m => ((rootItems start m).reverse ++ items, max pos m.stop)
  | none => (items, pos)

/-- Try the start rule at a position and skip what it leaves over: what was read then, and where to
go on unless the text is done. -/
def parsePass (call : RuleMatcher) (pos : Nat) (items : List Item) :
    Engine (List Item × Option Nat) := do
  let found ← call s.grammar.start pos 0
  let (read, reached) := readOn s.grammar.start items pos found
  let start := s.skip reached
  if s.size ≤ start then pure (read, none)
  else if s.recover then
    let stop := s.rawTokenEnd start
    pure ((Node.error start stop s.table.rootExpected, []) :: read, some stop)
  else pure ((Node.error start s.size s.table.rootExpected, []) :: read, none)

/-- Read the text from a position on, at most `n` times trying the start rule; `items` holds what
was read before, latest first. -/
def parseFrom (call : RuleMatcher) : Nat → Nat → List Item → Engine (List Item)
  | 0, _, items => pure items
  | n + 1, pos, items => do
    match ← s.parsePass call pos items with
    | (read, some next) => parseFrom call n next read
    | (read, none) => pure read

/-- The tree of the whole text, with the start rule asked for through a given function. -/
def parseBy (call : RuleMatcher) : Engine Node := do
  let items ← s.parseFrom call (s.size + 1) 0 []
  pure (Node.ofItems s.grammar.start items.reverse 0 s.size)

/-- The tree of the whole text. -/
def parse (limit : Nat) : Engine Node := s.parseBy (s.matchRule limit)

end Session

/-! ## Parsing -/

/-- How many rules may be inside each other. -/
def nestingLimit : Nat := 300

/-- Why a text has no tree. -/
inductive ParseError where
  /-- The text nests too deeply. -/
  | tooDeep
  /-- Errors were not allowed, and there are some. -/
  | rejected (first : Diagnostic) (others : List Diagnostic)
  deriving DecidableEq, Repr

namespace ParseError

/-- Why a text has no tree, in words. -/
def message : ParseError → String
  | .tooDeep => "Input nests too deeply to parse (recursion limit 1000)"
  | .rejected first _ => first.format

/-- The descriptions of the errors that were not allowed. -/
def diagnostics : ParseError → List Diagnostic
  | .tooDeep => []
  | .rejected first others => first :: others

end ParseError

/-- The tree of a text; errors become error nodes, unless `strict` does not allow them. -/
def ParseTable.parse (table : ParseTable) (recover strict : Bool) (text : List Char)
    (limit : Nat := nestingLimit) : Except ParseError Tree :=
  match Session.parse ⟨table, recover, text.toArray⟩ limit {} with
  | .error _ _ => .error .tooDeep
  | .ok root _ =>
    let tree : Tree := ⟨root, text⟩
    match strict, tree.diagnostics with
    | true, first :: others => .error (.rejected first others)
    | _, _ => .ok tree

end LayeredGrammar
