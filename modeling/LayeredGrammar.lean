import LayeredGrammar.Text.CharRange
import LayeredGrammar.Text.WordChar
import LayeredGrammar.Text.Blank
import LayeredGrammar.Text.Printable
import LayeredGrammar.Text.Quoted
import LayeredGrammar.Regex.Basic
import LayeredGrammar.Regex.Reader
import LayeredGrammar.Names
import LayeredGrammar.Traced
import LayeredGrammar.Production.Basic
import LayeredGrammar.Pattern.Lexeme
import LayeredGrammar.Pattern.Reading
import LayeredGrammar.Pattern.Descent
import LayeredGrammar.Draft
import LayeredGrammar.Token
import LayeredGrammar.Node.Basic
import LayeredGrammar.Node.Diagnostic
import LayeredGrammar.Conflict
import LayeredGrammar.Analysis.SequenceSet
import LayeredGrammar.Analysis.FirstSets
import LayeredGrammar.Analysis.Overlap
import LayeredGrammar.Analysis.Finding
import LayeredGrammar.Analysis.OpenTail
import LayeredGrammar.Grammar.Basic
import LayeredGrammar.Grammar.Layer
import LayeredGrammar.Grammar.Build
import LayeredGrammar.Grammar.ParseTable
import LayeredGrammar.Engine.Match
import LayeredGrammar.Engine.Session
import LayeredGrammar.Engine.Memo
import LayeredGrammar.Engine.Parser
import LayeredGrammar.Catalog.Combinators
import LayeredGrammar.Catalog.BaseC
import LayeredGrammar.Catalog.ObjectiveC
import LayeredGrammar.Catalog.Schema
import LayeredGrammar.Catalog.Grammars
import LayeredGrammar.Proofs.Engine.Coupling
import LayeredGrammar.Proofs.Engine.Yields
import LayeredGrammar.Proofs.Scanning
import LayeredGrammar.Proofs.Engine.Bounds
import LayeredGrammar.Proofs.Engine.Requests
import LayeredGrammar.Proofs.Grammar.Built
import LayeredGrammar.Proofs.Grammar.Derivation
import LayeredGrammar.Proofs.Engine.Leaves
import LayeredGrammar.Proofs.Soundness
import LayeredGrammar.Proofs.Engine.Loops
import LayeredGrammar.Proofs.Termination
import LayeredGrammar.Proofs.Grammar.Corners
import LayeredGrammar.Proofs.Engine.Progress
import LayeredGrammar.Proofs.Engine.Answers
import LayeredGrammar.Proofs.Grammar.Declared
import LayeredGrammar.Proofs.Catalog.Tables
import LayeredGrammar.Proofs.Catalog.Shipped
import LayeredGrammar.Proofs.MemoTransparency
import LayeredGrammar.Proofs.Extras
import LayeredGrammar.Proofs.Engine.Bare
import LayeredGrammar.Proofs.Tiling
import LayeredGrammar.Proofs.Engine.Formed
import LayeredGrammar.Proofs.WellFormedness
import LayeredGrammar.Proofs.Engine.Boundaries
import LayeredGrammar.Proofs.Engine.Pairing
import LayeredGrammar.Proofs.Engine.Tracking
import LayeredGrammar.Proofs.Engine.Widening
import LayeredGrammar.Proofs.Engine.Layering
import LayeredGrammar.Proofs.Grammar.Stacked
import LayeredGrammar.Proofs.Engine.Scans
import LayeredGrammar.Proofs.Conservativity
import LayeredGrammar.Proofs.Engine.Growth
import LayeredGrammar.Proofs.Engine.Guarded
import LayeredGrammar.Proofs.Catalog.Operators
import LayeredGrammar.Proofs.Engine.Outline
import LayeredGrammar.Proofs.Precedence
import LayeredGrammar.Proofs.Engine.Resting
import LayeredGrammar.Proofs.ObjectiveC
import LayeredGrammar.Proofs.Analysis.Beginnings
import LayeredGrammar.Proofs.Analysis.OpenEnds
import LayeredGrammar.Proofs.Analysis.Settling
import LayeredGrammar.Proofs.Grammar.Excused
import LayeredGrammar.Proofs.Catalog.Buildable
import LayeredGrammar.Proofs.Engine.Fields
import LayeredGrammar.Proofs.FieldStability
import LayeredGrammar.Proofs.Lookahead
import LayeredGrammar.Proofs.Pattern.Printing
import LayeredGrammar.Proofs.PatternRoundTrip
import LayeredGrammar.Proofs.Grammar.Overriding
import LayeredGrammar.Proofs.ExtensionPoints
import LayeredGrammar.Proofs.Engine.Checked
import LayeredGrammar.Proofs.Engine.Faultless
import LayeredGrammar.Proofs.Safety
import LayeredGrammar.Proofs.ErrorCount
import LayeredGrammar.Proofs.OverrideOverlaps
import LayeredGrammar.Proofs.Analysis.Visits
import LayeredGrammar.Proofs.OpenRepetitions
import LayeredGrammar.Proofs.LayeredAlternatives
import LayeredGrammar.Proofs.PatternAcceptance
import LayeredGrammar.Proofs.PatternDescent
import LayeredGrammar.Proofs.LeadingBlanks
import LayeredGrammar.Proofs.OperatorChains
import LayeredGrammar.Proofs.Engine.Readings
import LayeredGrammar.Proofs.Engine.Origins
import LayeredGrammar.Proofs.Catalog.Lexicon
import LayeredGrammar.Proofs.Catalog.Bodies
import LayeredGrammar.Proofs.ErrorRegions
import LayeredGrammar.Proofs.RegionSemicolons
import LayeredGrammar.Proofs.ErrorPlaces
import LayeredGrammar.Proofs.DanglingElse
import LayeredGrammar.Proofs.Engine.Choices
import LayeredGrammar.Proofs.ChoiceResolution
import LayeredGrammar.Proofs.NestedChoices
import LayeredGrammar.Proofs.Locations
import LayeredGrammar.Proofs.Diagnostics
import LayeredGrammar.Proofs.LeastFirstSets
import LayeredGrammar.Proofs.MaximalMunch
import LayeredGrammar.Proofs.AppendedAlternatives
import LayeredGrammar.Proofs.Pattern.Pasting
import LayeredGrammar.Proofs.WholeWords
import LayeredGrammar.Proofs.Comments
