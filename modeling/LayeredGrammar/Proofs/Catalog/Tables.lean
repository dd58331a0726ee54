import LayeredGrammar.Catalog.Grammars
import LayeredGrammar.Proofs.Grammar.Built

/-!
# The table of the C grammar

The C layer stands alone, so its grammar has the rules and tokens as the layer declares them, and all
of its alternatives are base alternatives. `Catalog.cTable_eq` is the certificate: the C grammar builds,
and its table is `Catalog.cBuilt`.

Most of the work of reading a small text is building the table, and most of that is merging rules and
sorting literals. What is shown of the table by evaluation is therefore shown of `Catalog.cBuilt`, where
nothing is left to merge or to sort.
-/

namespace LayeredGrammar.Catalog

/-- The rules of C. -/
def cRules : NameTable Production :=
  BaseC.topLevel ++ BaseC.declarators ++ BaseC.typeSpecifiers ++ BaseC.statements ++
    BaseC.expressions

/-- The literals of C, longest first. -/
def cLiterals : List String :=
  [
    "#include", "continue", "register", "restrict", "unsigned", "volatile", "default", "typedef",
    "extern", "inline", "return", "signed", "sizeof", "static", "struct", "switch", "break",
    "const", "false", "short", "union", "while", "NULL", "auto", "case", "else", "enum", "goto",
    "long", "true", "...", "<<=", ">>=", "for", "!=", "%=", "&&", "&=", "*=", "++", "+=", "--",
    "-=", "->", "/=", "<<", "<=", "==", ">=", ">>", "^=", "do", "if", "|=", "||", "!", "%", "&",
    "(", ")", "*", "+", ",", "-", ".", "/", ":", ";", "<", "=", ">", "?", "[", "]", "^", "\x7b",
    "|", "\x7d", "~" ]

/-- What is skipped between tokens unless a layer says otherwise. -/
def defaultExtras : Extras := (Extras.ofPattern? ({} : Settings).extras).get (by decide +kernel)

theorem pattern_defaultExtras : defaultExtras.pattern = ({} : Settings).extras :=
  Extras.ofPattern?_eq_some.1 (Option.some_get _).symm

/-- The C grammar. -/
def cGrammar : Grammar :=
  Merged.toGrammar
    { rules := cRules
      tokens := BaseC.tokens
      extensionPoints := BaseC.layer.extensionPoints
      baseRules := cRules.names }
    (Settings.ofLayers cLayers) "translation_unit" defaultExtras

/-- The table of the C grammar, with the literals in order. -/
def cBuilt : ParseTable :=
  { ParseTable.ofGrammar cGrammar with
    rules := cRules.map fun (name, body) => (name, .ofBody name body body.alternatives.length)
    literals := cLiterals.map .ofText }

/-- All alternatives of C belong to the base. -/
theorem rules_ofGrammar : (ParseTable.ofGrammar cGrammar).rules = cBuilt.rules := by
  have hentry : ∀ e ∈ cRules,
      (e.1, RuleAlternatives.ofBody e.1 e.2 (ParseTable.baseCount cGrammar e.1 e.2)) =
        (e.1, RuleAlternatives.ofBody e.1 e.2 e.2.alternatives.length) := by
    intro e he
    have hbase : cGrammar.baseRules.contains e.1 = true :=
      List.contains_iff_mem.2 (mem_sortedNames.2 (List.mem_map_of_mem he))
    have hcount : ParseTable.baseCount cGrammar e.1 e.2 = e.2.alternatives.length := if_pos hbase
    rw [hcount]
  exact List.map_congr_left hentry

set_option maxRecDepth 100000 in
/-- **The C grammar builds**, and this is its table. -/
theorem cTable_eq : cTable.outcome = .ok cBuilt := by
  have hrun : (cTable.outcome.toOption.any fun t => decide (
      t.grammar.rules = cRules ∧ t.grammar.tokens = BaseC.tokens ∧
      t.grammar.start = "translation_unit" ∧ t.grammar.conflicts = [] ∧
      t.grammar.extensionPoints = sortedNames BaseC.layer.extensionPoints ∧
      t.grammar.baseRules = sortedNames cRules.names ∧ t.grammar.tableRules = [] ∧
      t.grammar.overrides = [] ∧ t.literals = cLiterals.map .ofText)) = true := by
    decide +kernel
  obtain ⟨t, ht, hrun⟩ := Traced.exists_of_any hrun
  obtain ⟨hrules, htokens, hstart, hconflicts, hpoints, hbase, htabled, hoverrides, hliterals⟩ :=
    of_decide_eq_true hrun
  obtain ⟨hg, htable, _⟩ := ParseTable.ofLayers_eq_ok ht
  have hgrammar : t.grammar = cGrammar := by
    obtain ⟨m, start, extras, hread, _, _, hm⟩ := Grammar.ofLayers_eq_ok hg
    have hextras : extras = defaultExtras := by
      rw [readExpressions_eq_ok, Extras.ofPattern?_eq_some] at hread
      exact Extras.ext_pattern (hread.2.trans pattern_defaultExtras.symm)
    rw [hm] at hrules htokens hstart hconflicts hpoints hbase htabled hoverrides ⊢
    simp only [Merged.toGrammar] at hrules htokens hstart hconflicts hpoints hbase htabled hoverrides
    simp only [cGrammar, Merged.toGrammar, Merged.firstSets, hrules, htokens, hstart, hconflicts,
      hpoints, hbase, htabled, hoverrides, hextras]
    rfl
  have hspelled : (ParseTable.ofGrammar cGrammar).literals = cBuilt.literals := by
    rw [← hgrammar, ← htable]
    exact hliterals
  have hbuilt : cBuilt = { ParseTable.ofGrammar cGrammar with
      rules := cBuilt.rules, literals := cBuilt.literals } := rfl
  rw [ht, htable, hgrammar, hbuilt, ← rules_ofGrammar, ← hspelled]

end LayeredGrammar.Catalog
