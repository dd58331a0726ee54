import LayeredGrammar.Catalog.Grammars
import LayeredGrammar.Proofs.Grammar.Excused

/-!
# The Objective-C grammar builds

The conflicts that the Objective-C layer declares excuse all of its ambiguities
(`Catalog.exists_clear`), so the layer builds on top of C (`Catalog.exists_objcTable`). First sets,
whose computation is long, play no part in this.
-/

namespace LayeredGrammar.Catalog

/-- Literals of both layers with the only rules that begin with them. -/
def rareLiterals : NameTable (List String) :=
  [("\x7d", []), ("]", []), ("@end", []), (",", []), (")", []), ("...", ["variadic_parameter"])]

/-- Literals that no rule of the C layer begins with. -/
def absentLiterals : NameTable (List String) :=
  [("@interface", []), ("@implementation", []), ("@protocol", []), ("@class", [])]

/-- The settings of the Objective-C grammar. -/
def objcSettings : Settings := Settings.ofLayers objcLayers

set_option maxRecDepth 100000 in
/-- The Objective-C layer goes with C, and declared conflicts excuse all of its ambiguities. -/
theorem exists_clear : ∃ extras below m start,
    (readExpressions objcLayers objcSettings).outcome = .ok extras ∧
    (Merged.ofLayers cLayers).outcome = .ok below ∧
    (Merged.ofLayers objcLayers).outcome = .ok m ∧ (m.check objcSettings).outcome = .ok start ∧
    (∀ r ∈ m.rules, "" ∉ r.2.literals) ∧
    Merged.Clear m below objcSettings ["translation_unit"] rareLiterals absentLiterals 5 := by
  have hcheck : ((readExpressions objcLayers objcSettings).outcome.toOption.any fun _ =>
      (Merged.ofLayers cLayers).outcome.toOption.any fun below =>
      (Merged.ofLayers objcLayers).outcome.toOption.any fun m =>
      (m.check objcSettings).outcome.toOption.any fun _ => decide (
        (∀ r ∈ m.rules, "" ∉ r.2.literals) ∧
        (∀ token ∈ m.tokens.names, Overlap.isLiteral token = false) ∧
        (∀ r ∈ m.rules, r.2.isQuiet ["translation_unit"] rareLiterals r.1 = true) ∧
        (∀ r ∈ below.rules, r.2.isQuiet ["translation_unit"] absentLiterals r.1 = true) ∧
        below.below.isEmpty = true ∧
        (∀ o ∈ m.overrides, o.rule ∈ m.below.names) ∧
        (∀ o ∈ m.overrides, ∀ p ∈ o.added,
          m.alternativePasses objcSettings ["translation_unit"] absentLiterals o p = true) ∧
        ∀ r ∈ m.scanned,
          m.sequencesPass objcSettings ["translation_unit"] rareLiterals 5 r = true)) = true := by
    decide +kernel
  obtain ⟨extras, hread, hcheck⟩ := Traced.exists_of_any hcheck
  obtain ⟨below, hbelow, hcheck⟩ := Traced.exists_of_any hcheck
  obtain ⟨m, hm, hcheck⟩ := Traced.exists_of_any hcheck
  obtain ⟨start, hstart, hcheck⟩ := Traced.exists_of_any hcheck
  obtain ⟨hliterals, htokens, hquiet, hquietBelow, hunnoted, hnoted, halternatives, hsequences⟩ :=
    of_decide_eq_true hcheck
  exact ⟨extras, below, m, start, hread, hbelow, hm, hstart, hliterals, htokens, hquiet, hquietBelow,
    List.isEmpty_iff.1 hunnoted, hnoted, halternatives, hsequences⟩

/-- **The Objective-C grammar builds.** -/
theorem exists_objcTable : ∃ table, objcTable.outcome = .ok table := by
  obtain ⟨extras, below, m, start, hread, hbelow, hm, hstart, hliterals, hclear⟩ := exists_clear
  have hgrammar : (Grammar.ofLayers (cLayers ++ [ObjectiveC.layer])).outcome =
      .ok (m.toGrammar objcSettings start extras) :=
    hclear.outcome (by decide) hread hbelow hm hstart
  have hempty : (m.toGrammar objcSettings start extras).literals.contains "" = false := by
    rw [← Bool.not_eq_true, List.contains_iff_mem, Grammar.literals, mem_sortedNames,
      List.mem_flatMap]
    rintro ⟨r, hr, hmem⟩
    exact hliterals r hr hmem
  refine ⟨.ofGrammar (m.toGrammar objcSettings start extras),
    Traced.outcome_bind.2 ⟨_, hgrammar, ?_⟩⟩
  rw [hempty]
  rfl

end LayeredGrammar.Catalog
