import LayeredGrammar.Analysis.OpenTail
import LayeredGrammar.Grammar.Basic
import LayeredGrammar.Grammar.Layer

/-!
# Building a grammar from layers

Reference model of `build_effective_grammar`, one function for each of its parts:

* `readExpressions` — the expressions of the tokens and of what is skipped are compiled.
* `Merged.ofLayers` — the loop over the layers, from the base up (`addLayer`). A layer may define new
  tokens (`addToken`) and rules (`addBody`); an existing rule may be replaced or overridden only if a
  layer below declared it an extension point, and an override must keep the inherited body
  (`applyChange`).
* `Merged.check` — the start rule, the word token, the references and the conflicts.
* `Merged.findings` — the local ambiguities: `override_overlaps` for the overrides and
  `RepetitionCheck.scan` for what the layers above the base add.
* `excuseFindings` — `check_findings`: declared conflicts have to excuse all of them.

An expression that is not understood (`Regex.read?`) is a fault of its own here, met before all others.
-/

namespace LayeredGrammar

/-- What can be wrong with the way layers fit together, or with an expression in them. -/
inductive ConfigurationFault where
  | notUnderstood (pattern : String)
  | noLayers
  | tokenTwice (token layer : String)
  | ruleTwice (rule layer : String)
  | clash (rule : String)
  | replacesFixed (layer rule : String)
  | extendsUndefined (layer rule : String)
  | extendsFixed (layer rule : String)
  | notAProduction (rule : String)
  | dropsInherited (rule : String)
  | undefinedExtensionPoint (layer point : String)
  | undefinedStart (start : Option String)
  | undefinedWord (word : String)
  | undefinedReference (rule target : String)
  | conflict (fault : ConflictFault)
  deriving DecidableEq, Repr

/-- What is wrong with the way layers fit together, in words. -/
def ConfigurationFault.message : ConfigurationFault → String
  | .notUnderstood pattern => "Expression " ++ Text.quoted pattern ++ " is not understood"
  | .noLayers => "A grammar needs at least one layer"
  | .tokenTwice token layer => "Token '" ++ token ++ "' is defined twice (layer " ++ layer ++ ")"
  | .ruleTwice rule layer => "Rule '" ++ rule ++ "' is defined twice in layer " ++ layer
  | .clash rule => "Rule '" ++ rule ++ "' clashes with a token of the same name"
  | .replacesFixed layer rule =>
    "Layer " ++ layer ++ " replaces '" ++ rule ++ "', which is not an extension point"
  | .extendsUndefined layer rule =>
    "Layer " ++ layer ++ " extends '" ++ rule ++ "', which the base grammar does not define"
  | .extendsFixed layer rule =>
    "Layer " ++ layer ++ " extends '" ++ rule ++ "', which is not a declared extension point"
  | .notAProduction rule => "Override of '" ++ rule ++ "' did not return a production"
  | .dropsInherited rule => "Override of '" ++ rule ++ "' drops the original body"
  | .undefinedExtensionPoint layer point =>
    "Layer " ++ layer ++ " declares extension point '" ++ point ++ "', which it does not define"
  | .undefinedStart start => "Start rule '" ++ start.getD "None" ++ "' is not defined"
  | .undefinedWord word => "Word token '" ++ word ++ "' is not defined"
  | .undefinedReference rule target =>
    "Rule '" ++ rule ++ "' references undefined '" ++ target ++ "'"
  | .conflict fault => fault.message

/-- Why a grammar cannot be built. -/
inductive BuildError where
  /-- An override cannot be drafted. -/
  | draft (e : DraftError)
  | configuration (fault : ConfigurationFault)
  | ambiguous (a : Ambiguity)
  /-- A rule uses the empty literal. -/
  | emptyLiteral
  deriving DecidableEq, Repr

/-- Why a grammar cannot be built, in words. -/
def BuildError.message : BuildError → String
  | .draft e => e.message
  | .configuration fault => fault.message
  | .ambiguous a => a.message
  | .emptyLiteral => "string index out of range"

/-- What happens while a grammar is built. -/
inductive BuildEvent where
  | bareWord (w : Pattern.BareWord)
  | replaced (rule layer : String)
  | overridden (rule layer : String) (added : Nat)
  | excused (f : Finding)
  | built (layers rules tokens overrides conflicts : Nat)
  deriving DecidableEq, Repr

/-- An event in words. -/
def BuildEvent.message : BuildEvent → String
  | .bareWord w => w.message
  | .replaced rule layer => "rule " ++ rule ++ " replaced by layer " ++ layer
  | .overridden rule layer added =>
    "override " ++ rule ++ " applied by " ++ layer ++ " (" ++ toString added
      ++ " new alternative(s))"
  | .excused f => "declared conflict covers " ++ f.describe
  | .built layers rules tokens overrides conflicts =>
    "effective grammar built from " ++ toString layers ++ " layer(s): " ++ toString rules ++
      " rules, " ++ toString tokens ++ " tokens, " ++ toString overrides ++ " overrides, " ++
      toString conflicts ++ " conflicts"

/-- A step of a build: the events so far, and a value unless the build fails. -/
abbrev Building := Traced BuildEvent BuildError

/-- A build that fails because layers do not fit together. -/
def misfit {α : Type} (fault : ConfigurationFault) : Building α := .fail (.configuration fault)

/-- The layers merged so far. -/
structure Merged where
  rules : NameTable Production := []
  tokens : NameTable Token := []
  extensionPoints : List String := []
  conflicts : List Conflict := []
  overrides : List AppliedOverride := []
  /-- For each overridden rule, the first sets below the latest layer that overrode it. -/
  below : NameTable FirstSets := []
  baseRules : List String := []
  tableRules : List String := []

/-- Check that the expressions of all tokens are understood, and read the one for what is skipped
between them. -/
def readExpressions (layers : List Layer) (s : Settings) : Building Extras :=
  match (layers.flatMap Layer.tokens).find? (·.2.regex.isNone) with
  | some (_, token) => misfit (.notUnderstood token.pattern)
  | none =>
    match Extras.ofPattern? s.extras with
    | some extras => pure extras
    | none => misfit (.notUnderstood s.extras)

namespace Merged

/-! ## Adding a layer -/

/-- Add a token under a name that is not in use. -/
def addToken (layer : String) (m : Merged) (token : String × Token) : Building Merged :=
  if m.tokens.has token.1 || m.rules.has token.1 then misfit (.tokenTwice token.1 layer)
  else pure { m with tokens := m.tokens.set token.1 token.2 }

/-- Give a rule its body. One that has a body must be an extension point; rules of the layers above
the base are noted. -/
def addBody (layer : String) (aboveBase : Bool) (m : Merged) (name : String) (body : Production) :
    Building Merged := do
  if m.rules.has name then
    if !m.extensionPoints.contains name then misfit (.replacesFixed layer name)
    Traced.note (.replaced name layer)
  pure { m with
    rules := m.rules.set name body
    tableRules := if aboveBase then m.tableRules ++ [name] else m.tableRules }

/-- Add the rules of a layer that come with a body; `seen` holds the names the layer has used. -/
def addRules (layer : String) (aboveBase : Bool) :
    List String → Merged → List (String × RuleEntry) → Building Merged
  | _, m, [] => pure m
  | seen, m, (name, entry) :: rest => do
    if seen.contains name then misfit (.ruleTwice name layer)
    if m.tokens.has name then misfit (.clash name)
    let next ← match entry with
      | .body p => m.addBody layer aboveBase name p
      | .change _ => pure m
    addRules layer aboveBase (name :: seen) next rest

/-- Apply a change to a rule; `below` are the first sets under the layer. -/
def applyChange (layer : String) (below : FirstSets) (m : Merged) (name : String)
    (change : Override) : Building Merged := do
  let some body := m.rules.get? name | misfit (.extendsUndefined layer name)
  if !m.extensionPoints.contains name then misfit (.extendsFixed layer name)
  let some template ← change.embed .bareWord .draft | misfit (.notAProduction name)
  if !template.keepsInherited then misfit (.dropsInherited name)
  let added := template.added body
  Traced.note (.overridden name layer added.length)
  pure { m with
    rules := m.rules.set name (template.fill body)
    overrides := m.overrides ++ [⟨name, layer, body, added⟩]
    below := m.below.set name below }

/-- Apply the changes among rule entries, in order. -/
def applyChanges (layer : String) (below : FirstSets) :
    Merged → List (String × RuleEntry) → Building Merged
  | m, [] => pure m
  | m, (_, .body _) :: rest => applyChanges layer below m rest
  | m, (name, .change c) :: rest => do
    applyChanges layer below (← m.applyChange layer below name c) rest

/-- The first sets of the rules merged so far. -/
def firstSets (m : Merged) : FirstSets := FirstSets.ofRules m.rules m.tokens.names

/-- Merge one more layer. First come its tokens, then its rule bodies, then its changes, and last
the extension points it declares, which count for the layers above it. -/
def addLayer (aboveBase : Bool) (m : Merged) (l : Layer) : Building Merged := do
  let below := if aboveBase && l.rules.any (·.2.isChange) then m.firstSets else ⟨[], []⟩
  let withTokens ← l.tokens.foldlM (addToken l.name) m
  let withRules ← addRules l.name aboveBase (l.tokens.map (·.1)) withTokens l.rules
  let changed ← applyChanges l.name below withRules l.rules
  match l.extensionPoints.find? fun p => !changed.rules.has p && !changed.tokens.has p with
  | some point => misfit (.undefinedExtensionPoint l.name point)
  | none => pure { changed with
      extensionPoints := changed.extensionPoints ++ l.extensionPoints
      conflicts := changed.conflicts ++ l.conflicts
      baseRules := if aboveBase then changed.baseRules else changed.rules.names }

/-- Merge layers, the base first. -/
def ofLayers : List Layer → Building Merged
  | [] => misfit .noLayers
  | base :: above => do above.foldlM (addLayer true) (← addLayer false {} base)

/-! ## Checks -/

/-- A reference of a rule that leads nowhere, if there is one. -/
def danglingReference? (m : Merged) : Option (String × String) :=
  m.rules.findSome? fun r =>
    (r.2.references.find? fun n => !m.rules.has n && !m.tokens.has n).map (r.1, ·)

/-- Check the start rule, the word token, all references and the conflicts; yields the start
rule. -/
def check (m : Merged) (s : Settings) : Building String := do
  let some start := s.start | misfit (.undefinedStart none)
  if !m.rules.has start then misfit (.undefinedStart (some start))
  match s.word with
  | some word => if !m.tokens.has word then misfit (.undefinedWord word)
  | none => pure ()
  match m.danglingReference? with
  | some (rule, target) => misfit (.undefinedReference rule target)
  | none => pure ()
  match ConflictRegistry.fault? m.conflicts m.rules.names with
  | some fault => misfit (.conflict fault)
  | none => pure start

/-! ## Ambiguities -/

/-- What decides whether terminals of the merged layers overlap. -/
def overlap (m : Merged) (s : Settings) : Overlap := ⟨m.tokens, s.word, s.reserved, s.contextual⟩

/-- The overlaps of the overrides with the bodies they extend. -/
def overrideFindings (m : Merged) (s : Settings) (first : FirstSets) : List Finding :=
  m.overrides.flatMap fun o =>
    Finding.ofOverride o.rule o.previous o.added ((m.below.get? o.rule).getD first) first
      (m.overlap s)

/-- The productions to scan for open repetitions, each with the rule it belongs to: the rules of the
layers above the base in order of their names, then the alternatives that overrides added. -/
def scanned (m : Merged) : List (String × Production) :=
  ((sortedNames m.tableRules).filterMap fun n => (m.rules.get? n).map (n, ·)) ++
    m.overrides.flatMap fun o => o.added.map (o.rule, ·)

/-- The open repetitions of what the layers above the base added. -/
def repetitionFindings (m : Merged) (s : Settings) (first : FirstSets) : List Finding :=
  let analysis : TailAnalysis := ⟨m.rules, sortedNames m.tableRules, first, m.overlap s⟩
  ((m.scanned.mapM fun r => analysis.scan r.2 r.1).run {}).1.flatten

/-- All local ambiguities that the layers introduced. -/
def findings (m : Merged) (s : Settings) (first : FirstSets) : List Finding :=
  m.overrideFindings s first ++ m.repetitionFindings s first

end Merged

/-- Note the findings that declared conflicts excuse, and fail on the others. -/
def excuseFindings (registry : ConflictRegistry) (findings : List Finding) : Building Unit := do
  (findings.filter (·.isCovered registry)).forM fun f => Traced.note (.excused f)
  match Ambiguity.of? registry findings with
  | some a => .fail (.ambiguous a)
  | none => pure ()

/-- The grammar that a stack of layers, the base first, amounts to. -/
def Grammar.ofLayers (layers : List Layer) : Building Grammar := do
  let settings := Settings.ofLayers layers
  let extras ← readExpressions layers settings
  let m ← Merged.ofLayers layers
  let start ← m.check settings
  let first := m.firstSets
  excuseFindings m.conflicts (m.findings settings first)
  Traced.note (.built layers.length m.rules.length m.tokens.length m.overrides.length
    m.conflicts.length)
  pure {
    rules := m.rules
    tokens := m.tokens
    start := start
    word := settings.word
    extras := extras
    reserved := sortedNames settings.reserved
    contextual := sortedNames settings.contextual
    recoveryStops := sortedNames settings.recoveryStops
    extensionPoints := sortedNames m.extensionPoints
    conflicts := m.conflicts
    baseRules := sortedNames m.baseRules
    tableRules := sortedNames m.tableRules
    overrides := m.overrides
    first := first }

end LayeredGrammar
