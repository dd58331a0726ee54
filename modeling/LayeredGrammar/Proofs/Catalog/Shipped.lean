import LayeredGrammar.Proofs.Catalog.Tables
import LayeredGrammar.Proofs.Engine.Answers
import LayeredGrammar.Proofs.Engine.Progress
import LayeredGrammar.Proofs.Extras
import LayeredGrammar.Proofs.Grammar.Declared
import LayeredGrammar.Proofs.Grammar.Shape

/-!
# Certificates for the ready-made grammars

The C grammar and the Objective-C grammar extend rules but never override them, so what holds of
every declared alternative holds of both (`Catalog.Shipped.mem_declared`). The only rule that can be
empty is the start rule, and `Catalog.cornerRank` ranks the rules by what they can ask for before
they take in text.
-/

namespace LayeredGrammar.Catalog

/-- The table of one of the ready-made grammars. -/
def Shipped (t : ParseTable) : Prop := cTable.outcome = .ok t ∨ objcTable.outcome = .ok t

/-- The alternatives that the layers of the ready-made grammars declare. -/
def declared : List (String × Production) := objcLayers.flatMap Layer.declared

/-- The rules that can match without taking in text. -/
def emptyRules : List String := ["translation_unit"]

/-- The rules that refer to others before they take in text, each above those. -/
def cornerRanks : NameTable Nat :=
  [
    ("_expression", 2), ("declaration", 5), ("_type_specifier", 3), ("type_qualifier", 1),
    ("_declaration_specifiers", 4), ("_statement", 5), ("_declarator", 1),
    ("_non_case_statement", 4), ("_declaration_modifiers", 2), ("_type_identifier", 2),
    ("function_definition", 5), ("_top_level_item", 6), ("_empty_declaration", 4),
    ("expression_statement", 3), ("labeled_statement", 1), ("concatenated_string", 1),
    ("protocol_type_specifier", 1), ("declaration_list", 6), ("_declaration_declarator", 3),
    ("init_declarator", 2), ("_field_declarator", 1), ("_type_declarator", 1),
    ("_abstract_declarator", 1), ("parameter_declaration", 5), ("type_descriptor", 4),
    ("field_declaration", 5), ("enumerator", 1), ("_block_item", 6), ("_case_item", 6),
    ("_initializer_item", 3), ("initializer_pair", 1), ("_name", 1),
    ("instance_variable_declaration", 6), ("_visibility_specification", 1),
    ("_interface_declaration", 6), ("interface_declaration_list", 7), ("_method_declaration", 1),
    ("_implementation_definition", 6), ("implementation_definition_list", 7),
    ("_method_definition", 1), ("unary_selector", 1), ("keyword_declarator", 1),
    ("keyword_selector", 2), ("_method_selector", 3), ("keyword_argument", 1),
    ("keyword_argument_list", 2), ("message_selector", 3), ("receiver", 3), ("keyword_name", 1),
    ("_selector_name", 2), ("translation_unit", 7) ]

/-- The rank of a name; what begins with literals only has rank zero. -/
def cornerRank (name : String) : Nat := (cornerRanks.get? name).getD 0

theorem cornerRank_le (name : String) : cornerRank name ≤ 7 := by
  unfold cornerRank
  cases h : cornerRanks.get? name with
  | none => exact Nat.zero_le 7
  | some rank =>
    have hall : ∀ e ∈ cornerRanks, e.2 ≤ 7 := by decide
    exact hall _ (NameTable.mem_of_get? h)

set_option maxRecDepth 100000 in
theorem isPlain_layers : ∀ l ∈ objcLayers, l.isPlain = true := by decide

set_option maxRecDepth 100000 in
theorem ranked_shaped_declared : (declared.all fun d => d.2.isRanked emptyRules cornerRank d.1 &&
    (Alternative.ofProduction d.1 0 false d.2).isShaped emptyRules d.1) = true := by decide +kernel

set_option maxRecDepth 100000 in
theorem read_blanks : ∃ other, Regex.read? ({} : Settings).extras =
    some (.loop (.alt .blanks other) none true) := by
  have hread : (((Regex.read? ({} : Settings).extras).bind (·.besidesBlanks?)).isSome) = true := by
    decide +kernel
  obtain ⟨other, hother⟩ := Option.isSome_iff_exists.1 hread
  obtain ⟨r, hr, hbesides⟩ := Option.bind_eq_some_iff.1 hother
  exact ⟨other, hr.trans (congrArg some (Regex.eq_of_besidesBlanks? hbesides))⟩

set_option maxRecDepth 100000 in
/-- A session of the C grammar reads a statement, and then its expression. -/
theorem exists_readings : ∃ table replies μ, cTable.outcome = .ok table ∧
    (Session.mk table true #['a', ';']).performAll ((Session.mk table true #['a', ';']).matchRule 12)
      [.parse, .rule "_expression" 0 0] {} = .ok replies μ := by
  have hrun : (let s : Session := ⟨cBuilt, true, #['a', ';']⟩
      (Engine.value? (s.performAll (s.matchRule 12) [.parse, .rule "_expression" 0 0]) {}).any
        fun _ => true) = true := by
    decide +kernel
  obtain ⟨replies, μ, hreplies, _⟩ := Engine.exists_of_any hrun
  exact ⟨cBuilt, replies, μ, cTable_eq, hreplies⟩

namespace Shipped

variable {t : ParseTable}

theorem built (h : Shipped t) : t.Built := by
  rcases h with h | h <;> exact ParseTable.built h

/-- Every alternative of a ready-made grammar is declared by one of the layers. -/
theorem mem_declared (h : Shipped t) {rule : String} {body p : Production}
    (hb : t.grammar.rules.get? rule = some body) (hp : p ∈ body.alternatives) :
    (rule, p) ∈ declared := by
  rcases h with h | h
  · have hplain : ∀ l ∈ cLayers, l.isPlain = true := by
      intro l hl
      exact isPlain_layers l (List.mem_cons.2 (Or.inl (List.mem_singleton.1 hl)))
    have hmem := ParseTable.mem_declared h hplain hb hp
    obtain ⟨l, hl, hd⟩ := List.mem_flatMap.1 hmem
    exact List.mem_flatMap.2 ⟨l, List.mem_cons.2 (Or.inl (List.mem_singleton.1 hl)), hd⟩
  · exact ParseTable.mem_declared h isPlain_layers hb hp

theorem ranked (h : Shipped t) : t.Ranked emptyRules cornerRank := by
  intro rule body p hb hp
  have hdeclared := List.all_eq_true.1 ranked_shaped_declared _ (h.mem_declared hb hp)
  exact (Bool.and_eq_true_iff.1 hdeclared).1

theorem shaped (h : Shipped t) : t.Shaped emptyRules := by
  intro rule body p hb hp
  have hdeclared := List.all_eq_true.1 ranked_shaped_declared _ (h.mem_declared hb hp)
  exact (Bool.and_eq_true_iff.1 hdeclared).2

/-- Rules ask only for rules that come later in the text, or at the same place with a lower rank. -/
theorem falling {s : Session} (h : Shipped s.table) : s.Falling (s.height cornerRank 7) :=
  fun _ _ hasks => hasks.height_lt h.built h.ranked cornerRank_le

/-- Both grammars start with the same rule and skip the same text. -/
theorem settings (h : Shipped t) : t.grammar.start = "translation_unit" ∧
    t.grammar.extras.pattern = ({} : Settings).extras := by
  have hlayers : ∃ layers, (ParseTable.ofLayers layers).outcome = .ok t ∧
      (Settings.ofLayers layers).start = some "translation_unit" ∧
      (Settings.ofLayers layers).extras = ({} : Settings).extras := by
    rcases h with h | h
    · exact ⟨cLayers, h, rfl, rfl⟩
    · exact ⟨objcLayers, h, rfl, rfl⟩
  obtain ⟨layers, htable, hstart, hextras⟩ := hlayers
  obtain ⟨m, _, hcheck, _, _, h⟩ := Grammar.exists_merged (ParseTable.ofLayers_eq_ok htable).1
  have hgiven := (Merged.of_check hcheck).1
  rw [hstart] at hgiven
  exact ⟨(Option.some.inj hgiven).symm, by rw [h, hextras]⟩

/-- The extras of a ready-made grammar are a repetition that prefers blanks. -/
theorem skipsBlanks {s : Session} (h : Shipped s.table) : s.SkipsBlanks := by
  obtain ⟨other, hother⟩ := read_blanks
  have hreads := s.grammar.extras.reads
  rw [show s.grammar.extras.pattern = _ from h.settings.2] at hreads
  exact ⟨other, Option.some.inj (hreads.symm.trans hother)⟩

/-- What is skipped once is skipped for good. -/
theorem extras_regex (h : Shipped t) : ∃ r, t.grammar.extras.regex = .loop r none true := by
  obtain ⟨other, hregex⟩ : Session.SkipsBlanks ⟨t, false, #[]⟩ := h.skipsBlanks
  exact ⟨_, hregex⟩

end Shipped

end LayeredGrammar.Catalog
