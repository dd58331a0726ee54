import LayeredGrammar.Node.Basic

/-!
# Locations and diagnostics

Reference model of `location` and `diagnostic_for`. An offset of a text has a line and a column,
both counted from one; lines end at newlines. A diagnostic describes an error region: where it is,
what was expected, the line it starts on and the beginning of what was found there.
-/

namespace LayeredGrammar

/-- The place of an offset in a text. -/
structure Location where
  line : Nat
  column : Nat
  /-- The offset at which the line starts. -/
  lineStart : Nat
  deriving DecidableEq, Repr

/-- The first line of a text. -/
def firstLine (cs : List Char) : List Char := cs.takeWhile (· != '\n')

/-- The place of an offset; offsets past the end lie on the last line. -/
def Location.ofOffset (text : List Char) (pos : Nat) : Location :=
  let before := text.take pos
  let lineStart := before.length - (firstLine before.reverse).length
  ⟨before.count '\n' + 1, pos - lineStart + 1, lineStart⟩

/-- A description of an error region. -/
structure Diagnostic where
  start : Nat
  stop : Nat
  line : Nat
  column : Nat
  expected : List String
  /-- The line on which the region starts. -/
  snippet : String
  /-- The first characters of the region on that line. -/
  found : String
  deriving DecidableEq, Repr

namespace Diagnostic

/-- How many characters of a region are shown. -/
def foundWidth : Nat := 20

/-- The description of a node as an error region of a text. -/
def ofNode (text : List Char) (n : Node) : Diagnostic :=
  let place := Location.ofOffset text n.start
  { start := n.start
    stop := n.stop
    line := place.line
    column := place.column
    expected := n.expected
    snippet := String.ofList (firstLine (text.drop place.lineStart))
    found := String.ofList ((firstLine (n.text text)).take foundWidth) }

/-- What is wrong, in words. -/
def message (d : Diagnostic) : String := "Syntax error: unexpected '" ++ d.found ++ "'"

/-- What was expected, on a line of its own, if anything was. -/
def expectedPart (d : Diagnostic) : String :=
  if d.expected.isEmpty then "" else "\nExpected: " ++ ", ".intercalate d.expected

/-- The message, the place, what was expected, and the line with a caret under the region. -/
def format (d : Diagnostic) : String :=
  d.message ++ "\nLine " ++ toString d.line ++ ", Column " ++ toString d.column ++ ":" ++
    d.expectedPart ++ "\n" ++ d.snippet ++ "\n" ++
    String.ofList (List.replicate (d.column - 1) ' ') ++ "^"

end Diagnostic

/-- A syntax tree with the text it was read from. -/
structure Tree where
  root : Node
  source : List Char
  deriving DecidableEq, Repr

namespace Tree

/-- Whether any part of the text fits nothing. -/
def hasError (t : Tree) : Bool := t.root.hasError

/-- The descriptions of the error regions, in walk order. -/
def diagnostics (t : Tree) : List Diagnostic :=
  (t.root.walk.filter (·.isError)).map (Diagnostic.ofNode t.source)

/-- Line and column of an offset; a negative one counts as the start. -/
def point (t : Tree) (offset : Int) : Nat × Nat :=
  let place := Location.ofOffset t.source offset.toNat
  (place.line, place.column)

end Tree

end LayeredGrammar
