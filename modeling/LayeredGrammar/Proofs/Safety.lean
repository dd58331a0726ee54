import LayeredGrammar.Proofs.Engine.Faultless

/-!
# A grammar that builds does not fail on a text

The checks of a build are spread over the layers: names are compared when a token or a rule is
added, references, the start rule, the word token and the conflicts once all layers are merged.
Together they make a grammar consistent (`Grammar.Consistent`), and a table of a consistent grammar
is one in which every lookup of the engine has an answer. So a text either has a tree, or it nests
too deeply, or its errors are reported because they are not allowed
(`ParseTable.parse_faultless`).
-/

namespace LayeredGrammar

/-- A grammar whose parts fit together. -/
structure Grammar.Consistent (g : Grammar) : Prop where
  /-- No name is both a rule and a token. -/
  apart : ∀ n ∈ g.rules.names, n ∉ g.tokens.names
  start : g.start ∈ g.rules.names
  /-- The word token, if there is one, is a token. -/
  word : ∀ w ∈ g.word, w ∈ g.tokens.names
  /-- Every reference is to a rule or a token. -/
  closed : ∀ r ∈ g.rules, ∀ n, .ref n ∈ r.2.walk → n ∈ g.rules.names ∨ n ∈ g.tokens.names
  /-- A conflict is between rules and prefers one of its own. -/
  conflicts : ∀ c ∈ g.conflicts, c.rules ≠ [] ∧ (∀ n ∈ c.rules, n ∈ g.rules.names) ∧
    ∀ p ∈ c.prefer, p ∈ c.rules

theorem ConflictRegistry.entryFault?_eq_none {names : List String} {c : Conflict}
    (h : entryFault? names c = none) : c.rules ≠ [] ∧ (∀ n ∈ c.rules, n ∈ names) ∧
      ∀ p ∈ c.prefer, p ∈ c.rules := by
  unfold entryFault? at h
  simp only at h
  split at h
  · cases h
  · rename_i hrules
    split at h
    · cases h
    · rename_i hmissing
      refine ⟨by simpa using hrules, by simpa using hmissing, fun p hp => ?_⟩
      rw [Option.mem_def.1 hp] at h
      simp only at h
      split at h
      · rename_i hown
        exact List.contains_iff_mem.1 hown
      · cases h

/-- What `check` has seen to besides the start rule and the references: the word token is a token,
and no conflict has a fault. -/
theorem Merged.word_of_check {m : Merged} {settings : Settings} {start : String}
    (h : (m.check settings).outcome = .ok start) :
    (∀ w ∈ settings.word, w ∈ m.tokens.names) ∧
      ConflictRegistry.fault? m.conflicts m.rules.names = none := by
  unfold check at h
  split at h
  · simp only at h
    split at h
    · rw [misfit_bind] at h
      cases h
    · cases hdangling : m.danglingReference? with
      | some target =>
        simp only [hdangling, misfit_bind] at h
        repeat' split at h
        all_goals cases h
      | none =>
        cases hfault : ConflictRegistry.fault? m.conflicts m.rules.names with
        | some fault =>
          simp only [hdangling, hfault, misfit_bind] at h
          repeat' split at h
          all_goals cases h
        | none =>
          refine ⟨fun w hw => ?_, rfl⟩
          rw [Option.mem_def] at hw
          simp only [hw, misfit_bind] at h
          split at h
          · cases h
          · rename_i htoken
            exact NameTable.has_iff.1 (by simpa using htoken)
  · cases h

/-- The checks of a build make a grammar consistent. -/
theorem Grammar.consistent_of_ofLayers {layers : List Layer} {g : Grammar}
    (h : (Grammar.ofLayers layers).outcome = .ok g) : g.Consistent := by
  obtain ⟨m, start, extras, _, hm, hcheck, rfl⟩ := ofLayers_eq_ok h
  obtain ⟨_, hstart, hclosed⟩ := Merged.of_check hcheck
  obtain ⟨hword, hconflicts⟩ := Merged.word_of_check hcheck
  exact {
    apart := (Merged.reached_ofLayers hm).apart
    start := hstart
    word := hword
    closed := fun r hr n hn => hclosed r hr n (Production.mem_references.2 hn)
    conflicts := fun c hc =>
      ConflictRegistry.entryFault?_eq_none (List.findSome?_eq_none_iff.1 hconflicts c hc) }

/-- A text nests too deeply whether or not errors are allowed, or it has a tree. With `strict` that is
the result if it has no errors; else they are reported, and there is at least one. -/
theorem ParseTable.parse_strict (table : ParseTable) (recover : Bool) (text : List Char)
    (limit : Nat) :
    (table.parse recover false text limit = .error .tooDeep ∧
      table.parse recover true text limit = .error .tooDeep) ∨
    ∃ tree, table.parse recover false text limit = .ok tree ∧
      (tree.diagnostics = [] ∧ table.parse recover true text limit = .ok tree ∨
        ∃ first others, tree.diagnostics = first :: others ∧
          table.parse recover true text limit = .error (.rejected first others)) := by
  unfold parse
  cases Session.parse ⟨table, recover, text.toArray⟩ limit {} with
  | error _ _ => exact Or.inl ⟨rfl, rfl⟩
  | ok root _ =>
    refine Or.inr ⟨⟨root, text⟩, rfl, ?_⟩
    cases hd : Tree.diagnostics ⟨root, text⟩ with
    | nil => exact Or.inl ⟨rfl, by simp only [hd]⟩
    | cons first others => exact Or.inr ⟨first, others, rfl, by simp only [hd]⟩

/-- **A grammar that builds does not fail on a text.** Its parts fit together, and for every text,
whether or not errors are recovered from, no lookup of the engine is without an answer: a parse that
allows errors has a tree unless the text nests too deeply, and one that does not allow them reports
besides that only the errors of that tree, at least one. -/
theorem ParseTable.parse_faultless {layers : List Layer} {table : ParseTable}
    (ht : (ParseTable.ofLayers layers).outcome = .ok table) :
    table.grammar.Consistent ∧
    (∀ recover strict text limit, table.parseChecked recover strict text limit =
      (table.parse recover strict text limit).mapError Sum.inl) ∧
    ∀ recover text limit,
      (table.parseChecked recover false text limit = .error (.inl .tooDeep) ∧
        table.parseChecked recover true text limit = .error (.inl .tooDeep)) ∨
      ∃ tree, table.parseChecked recover false text limit = .ok tree ∧
        (tree.diagnostics = [] ∧ table.parseChecked recover true text limit = .ok tree ∨
          ∃ first others, tree.diagnostics = first :: others ∧
            table.parseChecked recover true text limit =
              .error (.inl (.rejected first others))) := by
  have hagree := parseChecked_eq (ParseTable.built ht)
  refine ⟨Grammar.consistent_of_ofLayers (ParseTable.ofLayers_eq_ok ht).1, hagree, ?_⟩
  intro recover text limit
  rw [hagree, hagree]
  rcases table.parse_strict recover text limit with ⟨hfalse, htrue⟩ | ⟨tree, hfalse, htrue⟩
  · exact Or.inl ⟨by rw [hfalse]; rfl, by rw [htrue]; rfl⟩
  · refine Or.inr ⟨tree, by rw [hfalse]; rfl, ?_⟩
    rcases htrue with ⟨hnone, hok⟩ | ⟨first, others, hsome, herror⟩
    · exact Or.inl ⟨hnone, by rw [hok]; rfl⟩
    · exact Or.inr ⟨first, others, hsome, by rw [herror]; rfl⟩

/-- Names that are read as keys or as values; that they may be both is declared, and keys are
preferred. -/
def pairLayer : Layer where
  name := "Pairs"
  start := some (some "_pairs")
  word := some (some "name")
  conflicts := [.between ["key", "value"] (some "key")]
  members :=
    [("name", .token none (.declare "\\w+")),
     ("_pairs", .rule none (.rep (.choice [.ref "value", .ref "key"]) 0 true)),
     ("key", .rule none (.ref "name")),
     ("value", .rule none (.ref "name"))]

/-- A text with one error, of which a tree and a report are made without a fault. -/
theorem ParseTable.parse_faultless_pairs : ∃ table tree first,
    (ParseTable.ofLayers [pairLayer]).outcome = .ok table ∧ table.grammar.Consistent ∧
    table.parseChecked true false ['a', ' ', '=', ';', 'b'] 5 = .ok tree ∧
    tree.root.walk.map (·.kind) = ["_pairs", "key", "name", "ERROR", "key", "name"] ∧
    table.parseChecked true true ['a', ' ', '=', ';', 'b'] 5 =
      .error (.inl (.rejected first [])) := by
  have hrun : ((ParseTable.ofLayers [pairLayer]).outcome.toOption.any fun table =>
      (table.parse true false ['a', ' ', '=', ';', 'b'] 5).toOption.any fun tree =>
        decide (tree.root.walk.map (·.kind) =
            ["_pairs", "key", "name", "ERROR", "key", "name"]) &&
          decide (tree.diagnostics.length = 1)) = true := by
    decide +kernel
  obtain ⟨table, htable, hrun⟩ := Traced.exists_of_any hrun
  obtain ⟨tree, htree, hrun⟩ := Except.exists_of_any hrun
  rw [Bool.and_eq_true, decide_eq_true_eq, decide_eq_true_eq, List.length_eq_one_iff] at hrun
  obtain ⟨hkinds, first, hone⟩ := hrun
  obtain ⟨hconsistent, hagree, hends⟩ := parse_faultless htable
  have hchecked : table.parseChecked true false ['a', ' ', '=', ';', 'b'] 5 = .ok tree := by
    rw [hagree, htree]
    rfl
  refine ⟨table, tree, first, htable, hconsistent, hchecked, hkinds, ?_⟩
  rcases hends true ['a', ' ', '=', ';', 'b'] 5 with ⟨h, -⟩ | ⟨tree', h, hstrict⟩
  · cases h.symm.trans hchecked
  · cases h.symm.trans hchecked
    rcases hstrict with ⟨hnone, -⟩ | ⟨first', others, hsome, herror⟩
    · cases hnone.symm.trans hone
    · cases hsome.symm.trans hone
      exact herror

end LayeredGrammar
