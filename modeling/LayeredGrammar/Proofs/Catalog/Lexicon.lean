import LayeredGrammar.Proofs.Catalog.Shipped
import LayeredGrammar.Proofs.Engine.Scans

/-!
# What the ready-made grammars are spelled with

The tokens of a grammar are those its layers declare, and its literals stand in the alternatives they
declare, so both can be checked without merging. Brackets and the semicolon delimit a text: in the
ready-made grammars a literal with one of them is that character alone
(`Shipped.literal_eq_delimiter`), no extras hold one unless the text has a slash
(`Shipped.extras_spare`), and of the tokens only those in quotes and in angle brackets can hold one
(`Shipped.token_spares`).

`Regex.spares` is the check behind the last two. It looks at the parts of an expression one by one, so
that what it says of an expression holds in any text (`Regex.run_spares`).
-/

namespace LayeredGrammar

/-! ## Declared literals and tokens -/

namespace Production

mutual

/-- What stands in a body and is not a choice stands in one of its alternatives. -/
theorem exists_alternative_of_walk {q : Production} (hq : ∀ members, q ≠ .choice members) :
    ∀ p : Production, q ∈ p.walk → ∃ a ∈ p.alternatives, q ∈ a.walk
  | .choice members, h => by
    rw [walk, List.mem_cons] at h
    exact exists_alternative_of_walkAll hq members (h.resolve_left (hq members))
  | .lit v, h | .ref v, h => ⟨_, List.mem_singleton.2 rfl, h⟩
  | .seq items, h => ⟨_, List.mem_singleton.2 rfl, h⟩
  | .blank, h => ⟨_, List.mem_singleton.2 rfl, h⟩
  | .rep p _ _, h | .opt p, h | .field _ p, h | .renamed p _, h | .prec _ p _ _, h =>
    ⟨_, List.mem_singleton.2 rfl, h⟩

theorem exists_alternative_of_walkAll {q : Production} (hq : ∀ members, q ≠ .choice members) :
    ∀ ps : List Production, q ∈ walkAll ps → ∃ a ∈ alternativesAll ps, q ∈ a.walk
  | p :: ps, h => by
    rw [walkAll, List.mem_append] at h
    rw [alternativesAll]
    rcases h with h | h
    · obtain ⟨a, ha, hqa⟩ := exists_alternative_of_walk hq p h
      exact ⟨a, List.mem_append_left _ ha, hqa⟩
    · obtain ⟨a, ha, hqa⟩ := exists_alternative_of_walkAll hq ps h
      exact ⟨a, List.mem_append_right _ ha, hqa⟩

end

end Production

/-- Every merged token was declared. -/
theorem Merged.Reached.mem_tokens {layers : List Layer} {m : Merged} (h : Reached layers m) :
    ∀ e ∈ m.tokens, e ∈ layers.flatMap Layer.tokens := by
  induction h with
  | start => exact nofun
  | token _ hl ht _ _ ih =>
    intro e he
    rcases NameTable.mem_set he with rfl | he
    · exact List.mem_flatMap.2 ⟨_, hl, ht⟩
    · exact ih e he
  | body _ _ _ _ _ ih => exact ih
  | change _ _ _ _ _ _ _ ih => exact ih
  | close _ ih => exact ih

/-- What stands in a rule of a table and is not a choice stands in a declared alternative. -/
theorem ParseTable.walk_declared {layers : List Layer} {t : ParseTable}
    (h : (ParseTable.ofLayers layers).outcome = .ok t) (hplain : ∀ l ∈ layers, l.isPlain = true)
    {r : String × Production} (hr : r ∈ t.grammar.rules) {q : Production} (hq : q ∈ r.2.walk)
    (hchoice : ∀ members, q ≠ .choice members) :
    ∃ d ∈ layers.flatMap Layer.declared, q ∈ d.2.walk := by
  obtain ⟨m, hm, _, hrules, _, _⟩ := Grammar.exists_merged (ParseTable.ofLayers_eq_ok h).1
  rw [hrules] at hr
  obtain ⟨a, ha, hqa⟩ := Production.exists_alternative_of_walk hchoice r.2 hq
  exact ⟨_, hm.mem_declared hplain r hr a ha, hqa⟩

/-- Every token of a table was declared. -/
theorem ParseTable.token_declared {layers : List Layer} {t : ParseTable}
    (h : (ParseTable.ofLayers layers).outcome = .ok t) {e : String × Token}
    (he : e ∈ t.grammar.tokens) : e ∈ layers.flatMap Layer.tokens := by
  obtain ⟨m, hm, _, _, htokens, _⟩ := Grammar.exists_merged (ParseTable.ofLayers_eq_ok h).1
  exact hm.mem_tokens e (htokens ▸ he)

/-- The expression of every token of a table is understood. -/
theorem ParseTable.token_understood {layers : List Layer} {t : ParseTable}
    (h : (ParseTable.ofLayers layers).outcome = .ok t) {e : String × Token}
    (he : e ∈ t.grammar.tokens) : ∃ r, e.2.regex = some r := by
  obtain ⟨_, _, _, hread, _⟩ := Grammar.ofLayers_eq_ok (ParseTable.ofLayers_eq_ok h).1
  exact Option.isSome_iff_exists.1 ((readExpressions_eq_ok.1 hread).1 e (token_declared h he))

/-! ## Expressions that leave characters alone -/

namespace Regex

variable {mode : Mode} {text : Array Char} {absent bad : List Char}

/-- Whether an expression matches only where a character stands. -/
def needs (mode : Mode) (d : Char) : Regex → Bool
  | .char c => !mode.ignoreCase && c == d
  | .seq a _ => a.needs mode d
  | .alt a b => a.needs mode d && b.needs mode d
  | .empty | .boundary | .dot | .oneOf _ _ | .loop _ _ _ => false

/-- Whether an expression takes in none of some characters in a text without others. -/
def spares (mode : Mode) (absent bad : List Char) : Regex → Bool
  | .empty | .boundary => true
  | .char c => bad.all fun d => (Regex.char c).refuses mode d
  | .dot => bad.all fun d => Regex.dot.refuses mode d
  | .oneOf negated items => bad.all fun d => (Regex.oneOf negated items).refuses mode d
  | .seq a b =>
    absent.any (a.needs mode ·) || (a.spares mode absent bad && b.spares mode absent bad)
  | .alt a b => a.spares mode absent bad && b.spares mode absent bad
  | .loop body _ _ => body.spares mode absent bad

theorem getElem?_of_needs {d : Char} : ∀ (r : Regex) (k : Nat → Option Nat) (pos q : Nat),
    r.needs mode d = true → run mode text r k pos = some q → text[pos]? = some d
  | .char c, k, pos, q, hneeds, h => by
    simp only [needs, Bool.and_eq_true, Bool.not_eq_true', beq_iff_eq] at hneeds
    obtain ⟨hcase, rfl⟩ := hneeds
    simp only [run, step, Mode.test, hcase] at h
    split at h
    · rename_i e he
      split at h
      · rename_i htest
        simp only [Bool.false_and, Bool.or_false, beq_iff_eq] at htest
        rw [he, htest]
      · cases h
    · cases h
  | .seq a b, k, pos, q, hneeds, h => getElem?_of_needs a _ pos q hneeds h
  | .alt a b, k, pos, q, hneeds, h => by
    simp only [needs, Bool.and_eq_true] at hneeds
    rcases orElse_eq_some.1 h with h | ⟨_, h⟩
    · exact getElem?_of_needs a k pos q hneeds.1 h
    · exact getElem?_of_needs b k pos q hneeds.2 h

/-- A computation that goes to its continuation without taking in one of some characters. -/
def Spares (text : Array Char) (bad : List Char) (run : (Nat → Option Nat) → Nat → Option Nat) :
    Prop :=
  ∀ k pos q, run k pos = some q → ∃ p, pos ≤ p ∧ k p = some q ∧
    ∀ i, pos ≤ i → i < p → ∀ c ∈ bad, text[i]? ≠ some c

theorem step_spares {has : Char → Bool} (h : ∀ c ∈ bad, has c = false) :
    Spares text bad (step text has) := by
  intro k pos q hrun
  unfold step at hrun
  split at hrun
  · rename_i c hc
    split at hrun
    · rename_i hhas
      refine ⟨pos + 1, by omega, hrun, fun i hi hi' d hd heq => ?_⟩
      obtain rfl : i = pos := by omega
      rw [hc, Option.some.injEq] at heq
      rw [heq, h d hd] at hhas
      cases hhas
    · cases hrun
  · cases hrun

theorem rounds_spares {body : (Nat → Option Nat) → Nat → Option Nat} (hbody : Spares text bad body)
    (greedy : Bool) (n : Nat) : Spares text bad (fun k pos => rounds body greedy k n pos) := by
  induction n with
  | zero => exact fun k pos q h => ⟨pos, Nat.le_refl _, h, fun i hi hi' => by omega⟩
  | succ n ih =>
    intro k pos q h
    have hround : ∀ q, body (fun p => if pos < p then rounds body greedy k n p else k p) pos =
        some q → ∃ p, pos ≤ p ∧ k p = some q ∧
          ∀ i, pos ≤ i → i < p → ∀ c ∈ bad, text[i]? ≠ some c := by
      intro q hq
      obtain ⟨p, hp, hk, hfree⟩ := hbody _ _ _ hq
      split at hk
      · obtain ⟨p', hp', hk', hfree'⟩ := ih k p q hk
        refine ⟨p', by omega, hk', fun i hi hi' => ?_⟩
        rcases Nat.lt_or_ge i p with hlt | hge
        · exact hfree i hi hlt
        · exact hfree' i hge hi'
      · exact ⟨p, hp, hk, hfree⟩
    simp only [rounds] at h
    split at h <;> rcases orElse_eq_some.1 h with h | ⟨_, h⟩
    · exact hround q h
    · exact ⟨pos, Nat.le_refl _, h, fun i hi hi' => by omega⟩
    · exact ⟨pos, Nat.le_refl _, h, fun i hi hi' => by omega⟩
    · exact hround q h

/-- **What is spared is not taken in.** -/
theorem run_spares (habsent : ∀ (i : Nat), ∀ d ∈ absent, text[i]? ≠ some d) : ∀ (r : Regex),
    r.spares mode absent bad = true → Spares text bad (run mode text r)
  | .empty, _ => fun k pos q h => ⟨pos, Nat.le_refl _, h, fun i hi hi' => by omega⟩
  | .boundary, _ => by
    intro k pos q h
    simp only [run] at h
    split at h
    · exact ⟨pos, Nat.le_refl _, h, fun i hi hi' => by omega⟩
    · cases h
  | .char c, h => by
    refine step_spares fun d hd => ?_
    simpa [refuses] using List.all_eq_true.1 h d hd
  | .dot, h => by
    refine step_spares fun d hd => ?_
    simpa [refuses] using List.all_eq_true.1 h d hd
  | .oneOf negated items, h => by
    refine step_spares fun d hd => ?_
    have hrefuses := List.all_eq_true.1 h d hd
    simp only [refuses, beq_iff_eq] at hrefuses
    rw [hrefuses, bne_self_eq_false]
  | .seq a b, h => by
    intro k pos q hrun
    rcases Bool.or_eq_true_iff.1 h with h | h
    · obtain ⟨d, hd, hneeds⟩ := List.any_eq_true.1 h
      exact absurd (getElem?_of_needs a _ pos q hneeds hrun) (habsent pos d hd)
    · obtain ⟨ha, hb⟩ := Bool.and_eq_true_iff.1 h
      obtain ⟨p, hp, hk, hfree⟩ := run_spares habsent a ha _ _ _ hrun
      obtain ⟨p', hp', hk', hfree'⟩ := run_spares habsent b hb _ _ _ hk
      refine ⟨p', by omega, hk', fun i hi hi' => ?_⟩
      rcases Nat.lt_or_ge i p with hlt | hge
      · exact hfree i hi hlt
      · exact hfree' i hge hi'
  | .alt a b, h => by
    intro k pos q hrun
    obtain ⟨ha, hb⟩ := Bool.and_eq_true_iff.1 h
    rcases orElse_eq_some.1 hrun with hrun | ⟨_, hrun⟩
    · exact run_spares habsent a ha k pos q hrun
    · exact run_spares habsent b hb k pos q hrun
  | .loop body most greedy, h => fun k pos q hrun =>
    rounds_spares (run_spares habsent body h) greedy _ k pos q hrun

/-- A match takes in none of the spared characters. -/
theorem matchAt_spares (habsent : ∀ (i : Nat), ∀ d ∈ absent, text[i]? ≠ some d) {r : Regex}
    (hr : r.spares mode absent bad = true) {pos q : Nat} (hpos : pos ≤ text.size)
    (h : r.matchAt mode text pos = some q) :
    ∀ i, pos ≤ i → i < q → ∀ c ∈ bad, text[i]? ≠ some c := by
  unfold matchAt at h
  rw [Nat.min_eq_left hpos] at h
  obtain ⟨p, _, hp, hfree⟩ := run_spares habsent r hr _ _ _ h
  cases hp
  exact hfree

/-! ## Text in angle brackets -/

/-- Text in angle brackets on one line. -/
def angled : Regex :=
  .seq (.char '<') (.seq
    (.loop (.oneOf true [.range '>' '>', .range '\n' '\n']) none true) (.char '>'))

/-- What is matched in angle brackets starts with the first one and ends with the next closing one on
the line. -/
theorem matchAt_angled (hmode : mode.ignoreCase = false) {pos q : Nat} (hpos : pos ≤ text.size)
    (h : angled.matchAt mode text pos = some q) : ∃ p, q = p + 1 ∧ pos < p ∧
      text[pos]? = some '<' ∧ text[p]? = some '>' ∧
      ∀ i, pos < i → i < p → text[i]? ≠ some '>' ∧ text[i]? ≠ some '\n' := by
  unfold matchAt angled at h
  rw [Nat.min_eq_left hpos] at h
  have hopen : text[pos]? = some '<' := by
    refine getElem?_of_needs _ _ pos q ?_ h
    simp [needs, hmode]
  simp only [run, step, hopen] at h
  split at h
  · have hinner : Spares text ['>', '\n'] (run mode text
        (.loop (.oneOf true [.range '>' '>', .range '\n' '\n']) none true)) := by
      have hnone : ∀ (i : Nat), ∀ d ∈ ([] : List Char), text[i]? ≠ some d :=
        fun _ _ hd => absurd hd List.not_mem_nil
      refine run_spares hnone _ ?_
      simp [spares, refuses, Mode.test, hmode, ClassItem.has]
    obtain ⟨p, hp, hk, hfree⟩ := hinner _ _ _ h
    refine ⟨p, ?_, by omega, hopen, ?_, fun i hi hi' => ?_⟩
    · change step text _ some p = some q at hk
      unfold step at hk
      split at hk
      · split at hk
        · cases hk
          rfl
        · cases hk
      · cases hk
    · refine getElem?_of_needs (.char '>') some p q ?_ hk
      simp [needs, hmode]
    · exact ⟨hfree i (by omega) hi' _ (by simp), hfree i (by omega) hi' _ (by simp)⟩
  · cases h

end Regex

/-! ## Delimiters -/

namespace Catalog

/-- The brackets and the semicolon. -/
def delimiters : List Char := ['(', '[', '\x7b', ')', ']', '\x7d', ';']

/-- The characters around strings and characters. -/
def quotes : List Char := ['"', '\'']

set_option maxRecDepth 100000 in
/-- The delimiters in the literals, the tokens and the extras that are declared. -/
theorem lexicon_declared :
    (declared.all fun d => d.2.literals.all fun value =>
      delimiters.all fun c => !value.toList.contains c || value.toList == [c]) = true ∧
    ((objcLayers.flatMap Layer.tokens).all fun e => !e.2.ignoreCase &&
      e.2.regex.all fun r => r == .angled || r.spares e.2.mode quotes delimiters) = true ∧
    ((Regex.read? ({} : Settings).extras).all fun r =>
      r.spares { acrossLines := true } ['/'] delimiters) = true := by decide +kernel

namespace Shipped

variable {t : ParseTable}

/-- The layers of a ready-made grammar are among those of the larger one. -/
theorem exists_layers (h : Shipped t) : ∃ layers, (ParseTable.ofLayers layers).outcome = .ok t ∧
    layers ⊆ objcLayers := by
  rcases h with h | h
  · exact ⟨cLayers, h, List.cons_subset_cons _ (List.nil_subset _)⟩
  · exact ⟨objcLayers, h, List.Subset.refl _⟩

/-- What stands in a rule and is not a choice stands in a declared alternative. -/
theorem walk_declared (h : Shipped t) {r : String × Production} (hr : r ∈ t.grammar.rules)
    {q : Production} (hq : q ∈ r.2.walk) (hchoice : ∀ members, q ≠ .choice members) :
    ∃ d ∈ declared, q ∈ d.2.walk := by
  obtain ⟨layers, ht, hlayers⟩ := h.exists_layers
  obtain ⟨d, hd, hqd⟩ :=
    ParseTable.walk_declared ht (fun l hl => isPlain_layers l (hlayers hl)) hr hq hchoice
  obtain ⟨l, hl, hd⟩ := List.mem_flatMap.1 hd
  exact ⟨d, List.mem_flatMap.2 ⟨l, hlayers hl, hd⟩, hqd⟩

/-- Every literal stands in a declared alternative. -/
theorem literal_declared (h : Shipped t) {value : String} (hv : value ∈ t.grammar.literals) :
    ∃ d ∈ declared, value ∈ d.2.literals := by
  rw [Grammar.literals, mem_sortedNames] at hv
  obtain ⟨r, hr, hv⟩ := List.mem_flatMap.1 hv
  obtain ⟨q, hq, hvalue⟩ := List.mem_filterMap.1 hv
  have hchoice : ∀ members, q ≠ .choice members := by
    rintro members rfl
    cases hvalue
  obtain ⟨d, hd, hqd⟩ := h.walk_declared hr hq hchoice
  exact ⟨d, hd, List.mem_filterMap.2 ⟨q, hqd, hvalue⟩⟩

/-- Every kind that is given stands in a declared alternative. -/
theorem kind_declared (h : Shipped t) {kind : String} (hk : kind ∈ t.grammar.aliasKinds) :
    ∃ d ∈ declared, kind ∈ d.2.kinds := by
  obtain ⟨r, hr, hk⟩ := List.mem_flatMap.1 hk
  obtain ⟨content, hq⟩ := Production.mem_kinds.1 hk
  obtain ⟨d, hd, hqd⟩ := h.walk_declared hr hq nofun
  exact ⟨d, hd, Production.mem_kinds.2 ⟨content, hqd⟩⟩

/-- Every token was declared. -/
theorem token_declared (h : Shipped t) {e : String × Token} (he : e ∈ t.grammar.tokens) :
    e ∈ objcLayers.flatMap Layer.tokens := by
  obtain ⟨layers, ht, hlayers⟩ := h.exists_layers
  obtain ⟨l, hl, he⟩ := List.mem_flatMap.1 (ParseTable.token_declared ht he)
  exact List.mem_flatMap.2 ⟨l, hlayers hl, he⟩

/-- A literal with a delimiter is that delimiter. -/
theorem literal_eq_delimiter (h : Shipped t) {value : String} (hv : value ∈ t.grammar.literals)
    {c : Char} (hc : c ∈ delimiters) (hmem : c ∈ value.toList) : value.toList = [c] := by
  obtain ⟨d, hd, hvalue⟩ := h.literal_declared hv
  have hall := List.all_eq_true.1 (List.all_eq_true.1
    (List.all_eq_true.1 lexicon_declared.1 d hd) value hvalue) c hc
  rcases Bool.or_eq_true_iff.1 hall with hno | heq
  · rw [Bool.not_eq_true', ← Bool.not_eq_true, List.contains_iff_mem] at hno
    exact absurd hmem hno
  · exact eq_of_beq heq

/-- A token is either text in angle brackets or, where there are no quotes, without delimiters. -/
theorem token_spares (h : Shipped t) {e : String × Token} (he : e ∈ t.grammar.tokens) {r : Regex}
    (hr : e.2.regex = some r) :
    e.2.ignoreCase = false ∧ (r = .angled ∨ r.spares e.2.mode quotes delimiters = true) := by
  have hall := List.all_eq_true.1 lexicon_declared.2.1 e (h.token_declared he)
  obtain ⟨hcase, hregex⟩ := Bool.and_eq_true_iff.1 hall
  rw [hr, Option.all_some] at hregex
  refine ⟨by simpa using hcase, ?_⟩
  rcases Bool.or_eq_true_iff.1 hregex with heq | hspares
  · exact .inl (eq_of_beq heq)
  · exact .inr hspares

/-- Extras hold no delimiter where there is no slash. -/
theorem extras_spare (h : Shipped t) :
    t.grammar.extras.regex.spares { acrossLines := true } ['/'] delimiters = true := by
  have hall := lexicon_declared.2.2
  have hreads := t.grammar.extras.reads
  rw [h.settings.2] at hreads
  rwa [hreads, Option.all_some] at hall

end Shipped

end Catalog

end LayeredGrammar
