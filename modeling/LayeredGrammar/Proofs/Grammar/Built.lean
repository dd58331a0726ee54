import LayeredGrammar.Proofs.Grammar.Merging

/-!
# Grammars that build

`Merged.Reached` lists what merging layers can do to what was merged before: add a token under a new
name, give a rule its body, change the body of an extension point, close a layer. Everything merged
from layers is reached that way (`Merged.reached_ofLayers`), so that a property of merged layers is
an induction over `Reached`.

`ParseTable.Built` holds what the engine relies on in the table of a grammar that builds: the
tables are those of the grammar, no literal is empty, no name is both a rule and a token, and every
name that a rule refers to is one of the two.
-/

namespace LayeredGrammar

theorem Except.exists_of_any {ε α : Type} {x : Except ε α} {test : α → Bool}
    (h : x.toOption.any test = true) : ∃ a, x = .ok a ∧ test a = true := by
  cases x with
  | error e => cases h
  | ok a => exact ⟨a, rfl, h⟩

theorem Traced.exists_of_any {ω ε α : Type} {x : Traced ω ε α} {test : α → Bool}
    (h : x.outcome.toOption.any test = true) : ∃ a, x.outcome = .ok a ∧ test a = true :=
  Except.exists_of_any h

namespace Merged

/-! ## Steps of a merge -/

/-- What merging layers goes through. -/
inductive Reached (layers : List Layer) : Merged → Prop
  | start : Reached layers {}
  | token {m l t} (h : Reached layers m) (hl : l ∈ layers) (ht : t ∈ l.tokens)
    (hfresh : m.tokens.has t.1 = false) (hrule : m.rules.has t.1 = false) :
    Reached layers { m with tokens := m.tokens.set t.1 t.2 }
  | body {m l name p tableRules} (h : Reached layers m) (hl : l ∈ layers)
    (hr : (name, RuleEntry.body p) ∈ l.rules) (htoken : m.tokens.has name = false)
    (hopen : m.rules.has name = true → name ∈ m.extensionPoints) :
    Reached layers { m with rules := m.rules.set name p, tableRules := tableRules }
  | change {m l name} {c : Override} {previous template overrides below} (h : Reached layers m)
    (hl : l ∈ layers) (hr : (name, RuleEntry.change c) ∈ l.rules)
    (hb : m.rules.get? name = some previous) (hopen : name ∈ m.extensionPoints)
    (hc : c.outcome = .ok (some template)) (hk : template.keepsInherited = true) :
    Reached layers { m with rules := m.rules.set name (template.fill previous),
                            overrides := overrides, below := below }
  | close {m points conflicts baseRules} (h : Reached layers m) :
    Reached layers { m with extensionPoints := points, conflicts := conflicts,
                            baseRules := baseRules }

variable {layers : List Layer} {l : Layer} {m m' : Merged}

theorem reached_addToken {t : String × Token} (hm : Reached layers m) (hl : l ∈ layers)
    (ht : t ∈ l.tokens) (h : (addToken l.name m t).outcome = .ok m') : Reached layers m' := by
  obtain ⟨hfresh, hrule, rfl⟩ := addToken_eq_ok h
  exact .token hm hl ht hfresh hrule

theorem reached_addTokens (hl : l ∈ layers) : ∀ (ts : List (String × Token)) (m m' : Merged),
    (∀ t ∈ ts, t ∈ l.tokens) → Reached layers m →
    (ts.foldlM (addToken l.name) m).outcome = .ok m' → Reached layers m'
  | [], _, _, _, hm, h => by cases h; exact hm
  | t :: ts, m, m', hts, hm, h => by
    rw [List.foldlM_cons] at h
    obtain ⟨next, hnext, h⟩ := Traced.outcome_bind.1 h
    exact reached_addTokens hl ts next m' (fun t' ht' => hts t' (List.mem_cons_of_mem _ ht'))
      (reached_addToken hm hl (hts t List.mem_cons_self) hnext) h

theorem reached_addBody {aboveBase : Bool} {name : String} {p : Production}
    (hm : Reached layers m) (hl : l ∈ layers) (hr : (name, RuleEntry.body p) ∈ l.rules)
    (htoken : m.tokens.has name = false)
    (h : (m.addBody l.name aboveBase name p).outcome = .ok m') : Reached layers m' := by
  obtain ⟨hopen, rfl⟩ := addBody_eq_ok h
  exact .body hm hl hr htoken hopen

theorem reached_addRules {aboveBase : Bool} (hl : l ∈ layers) :
    ∀ (rest : List (String × RuleEntry)) (seen : List String) (m m' : Merged),
    (∀ e ∈ rest, e ∈ l.rules) → Reached layers m →
    (addRules l.name aboveBase seen m rest).outcome = .ok m' → Reached layers m'
  | [], _, _, _, _, hm, h => by cases h; exact hm
  | (name, entry) :: rest, seen, m, m', hrest, hm, h => by
    have htail : ∀ e ∈ rest, e ∈ l.rules := fun e he => hrest e (List.mem_cons_of_mem _ he)
    obtain ⟨⟨_, htoken⟩, next, hnext, hlater⟩ := exists_of_addRules h
    rcases hnext with ⟨p, rfl, hnext⟩ | ⟨c, rfl, rfl⟩
    · exact reached_addRules hl rest _ next m' htail
        (reached_addBody hm hl (hrest _ List.mem_cons_self) htoken hnext) hlater
    · exact reached_addRules hl rest _ next m' htail hm hlater

theorem reached_applyChange {below : FirstSets} {name : String} {c : Override}
    (hm : Reached layers m) (hl : l ∈ layers) (hr : (name, RuleEntry.change c) ∈ l.rules)
    (h : (m.applyChange l.name below name c).outcome = .ok m') : Reached layers m' := by
  obtain ⟨body, template, hbody, ⟨hc, hpoint, hkeeps⟩, rfl⟩ := applyChange_eq_ok h
  exact .change hm hl hr hbody hpoint hc hkeeps

theorem reached_applyChanges {below : FirstSets} (hl : l ∈ layers) :
    ∀ (rest : List (String × RuleEntry)) (m m' : Merged),
    (∀ e ∈ rest, e ∈ l.rules) → Reached layers m →
    (applyChanges l.name below m rest).outcome = .ok m' → Reached layers m'
  | [], _, _, _, hm, h => by cases h; exact hm
  | (name, .body _) :: rest, m, m', hrest, hm, h =>
    reached_applyChanges hl rest m m' (fun e he => hrest e (List.mem_cons_of_mem _ he)) hm h
  | (name, .change c) :: rest, m, m', hrest, hm, h => by
    unfold applyChanges at h
    obtain ⟨next, hnext, h⟩ := Traced.outcome_bind.1 h
    exact reached_applyChanges hl rest next m' (fun e he => hrest e (List.mem_cons_of_mem _ he))
      (reached_applyChange hm hl (hrest _ List.mem_cons_self) hnext) h

theorem reached_addLayer {aboveBase : Bool} (hm : Reached layers m) (hl : l ∈ layers)
    (h : (addLayer aboveBase m l).outcome = .ok m') : Reached layers m' := by
  obtain ⟨withTokens, withRules, changed, htokens, hrules, hchanges, rfl⟩ := addLayer_eq_ok h
  have hm := reached_addTokens hl _ _ _ (fun _ ht => ht) hm htokens
  have hm := reached_addRules hl _ _ _ _ (fun _ he => he) hm hrules
  exact .close (reached_applyChanges hl _ _ _ (fun _ he => he) hm hchanges)

/-- Whatever layers merge into is reached by the steps of a merge. -/
theorem reached_ofLayers (h : (ofLayers layers).outcome = .ok m) : Reached layers m := by
  have hfold : ∀ (rest : List Layer) (m m' : Merged), (∀ l ∈ rest, l ∈ layers) →
      Reached layers m → (rest.foldlM (addLayer true) m).outcome = .ok m' → Reached layers m' := by
    intro rest
    induction rest with
    | nil =>
      intro m m' _ hm h
      cases h
      exact hm
    | cons l rest ih =>
      intro m m' hrest hm h
      rw [List.foldlM_cons] at h
      obtain ⟨next, hnext, h⟩ := Traced.outcome_bind.1 h
      exact ih next m' (fun l' hl' => hrest l' (List.mem_cons_of_mem _ hl'))
        (reached_addLayer hm (hrest l List.mem_cons_self) hnext) h
  cases layers with
  | nil => cases h
  | cons base above =>
    unfold ofLayers at h
    obtain ⟨first, hfirst, h⟩ := Traced.outcome_bind.1 h
    exact hfold above first m (fun l hl => List.mem_cons_of_mem _ hl)
      (reached_addLayer .start List.mem_cons_self hfirst) h

/-! ## Properties of merged layers -/

/-- No name is both a rule and a token. -/
theorem Reached.apart (h : Reached layers m) : ∀ n ∈ m.rules.names, n ∉ m.tokens.names := by
  induction h with
  | start => exact nofun
  | token _ _ _ _ hrule ih =>
    intro n hn ht
    rcases NameTable.mem_names_set.1 ht with rfl | ht
    · exact NameTable.has_eq_false.1 hrule hn
    · exact ih n hn ht
  | body _ _ _ htoken _ ih =>
    intro n hn
    rcases NameTable.mem_names_set.1 hn with rfl | hn
    · exact NameTable.has_eq_false.1 htoken
    · exact ih n hn
  | change _ _ _ hb _ _ _ ih =>
    intro n hn
    rcases NameTable.mem_names_set.1 hn with rfl | hn
    · exact ih n (NameTable.mem_names_of_get? hb)
    · exact ih n hn
  | close _ ih => exact ih

/-- What `check` has seen to: the start is a rule, and every reference leads somewhere. -/
theorem of_check {settings : Settings} {start : String}
    (h : (m.check settings).outcome = .ok start) :
    settings.start = some start ∧ start ∈ m.rules.names ∧ ∀ r ∈ m.rules, ∀ n ∈ r.2.references,
      n ∈ m.rules.names ∨ n ∈ m.tokens.names := by
  unfold check at h
  split at h
  · rename_i name hname
    simp only at h
    split at h
    · rw [misfit_bind] at h
      cases h
    · rename_i hrule
      obtain ⟨hnone, rfl⟩ : m.danglingReference? = none ∧ name = start := by
        cases hd : m.danglingReference? with
        | some target =>
          simp only [hd, misfit_bind] at h
          repeat' split at h
          all_goals cases h
        | none =>
          simp only [hd, misfit_bind] at h
          repeat' split at h
          all_goals cases h
          all_goals exact ⟨rfl, rfl⟩
      refine ⟨hname, NameTable.has_iff.1 (by simpa using hrule), ?_⟩
      intro r hr n hn
      have hr := List.findSome?_eq_none_iff.1 hnone r hr
      have hn := List.find?_eq_none.1 (Option.map_eq_none_iff.1 hr) n hn
      rw [← NameTable.has_iff, ← NameTable.has_iff]
      by_cases hrules : m.rules.has n = true
      · exact Or.inl hrules
      · exact Or.inr (by simpa [hrules] using hn)
  · cases h

end Merged

/-! ## Tables of grammars that build -/

/-- What holds of the table of a grammar that builds. -/
structure ParseTable.Built (t : ParseTable) : Prop where
  table : t = .ofGrammar t.grammar
  literals : "" ∉ t.grammar.literals
  apart : ∀ n ∈ t.grammar.rules.names, n ∉ t.grammar.tokens.names
  start : t.grammar.start ∈ t.grammar.rules.names
  closed : ∀ r ∈ t.grammar.rules, ∀ n ∈ r.2.references,
    n ∈ t.grammar.rules.names ∨ n ∈ t.grammar.tokens.names

/-- The expressions of layers are read if those of all tokens are understood, and the one for what is
skipped. -/
theorem readExpressions_eq_ok {layers : List Layer} {s : Settings} {extras : Extras} :
    (readExpressions layers s).outcome = .ok extras ↔
      (∀ e ∈ layers.flatMap Layer.tokens, e.2.regex.isSome = true) ∧
        Extras.ofPattern? s.extras = some extras := by
  unfold readExpressions
  constructor
  · intro h
    split at h
    · cases h
    · rename_i hnone
      refine ⟨fun e he => ?_, ?_⟩
      · simpa [Option.isSome_iff_ne_none] using List.find?_eq_none.1 hnone e he
      · split at h
        · rename_i hextras
          cases h
          exact hextras
        · cases h
  · rintro ⟨htokens, hextras⟩
    have hnone : (layers.flatMap Layer.tokens).find? (·.2.regex.isNone) = none :=
      List.find?_eq_none.2 fun e he => by simpa [← Option.isSome_iff_ne_none] using htokens e he
    rw [hnone, hextras]
    rfl

/-- The grammar that merged layers amount to, given their settings, the start rule and what is
skipped. -/
def Merged.toGrammar (m : Merged) (s : Settings) (start : String) (extras : Extras) : Grammar where
  rules := m.rules
  tokens := m.tokens
  start := start
  word := s.word
  extras := extras
  reserved := sortedNames s.reserved
  contextual := sortedNames s.contextual
  recoveryStops := sortedNames s.recoveryStops
  extensionPoints := sortedNames m.extensionPoints
  conflicts := m.conflicts
  baseRules := sortedNames m.baseRules
  tableRules := sortedNames m.tableRules
  overrides := m.overrides
  first := m.firstSets

/-- A grammar that builds is that of merged layers that passed the checks, and its expressions are
read. -/
theorem Grammar.ofLayers_eq_ok {layers : List Layer} {g : Grammar}
    (h : (Grammar.ofLayers layers).outcome = .ok g) : ∃ m start extras,
      (readExpressions layers (Settings.ofLayers layers)).outcome = .ok extras ∧
      (Merged.ofLayers layers).outcome = .ok m ∧
      (m.check (Settings.ofLayers layers)).outcome = .ok start ∧
      g = m.toGrammar (Settings.ofLayers layers) start extras := by
  unfold Grammar.ofLayers at h
  obtain ⟨extras, hextras, h⟩ := Traced.outcome_bind.1 h
  obtain ⟨m, hm, h⟩ := Traced.outcome_bind.1 h
  obtain ⟨start, hstart, h⟩ := Traced.outcome_bind.1 h
  obtain ⟨_, _, h⟩ := Traced.outcome_bind.1 h
  obtain ⟨_, _, h⟩ := Traced.outcome_bind.1 h
  cases h
  exact ⟨m, start, extras, hextras, hm, hstart, rfl⟩

/-- A grammar that builds comes from merged layers that passed the checks. -/
theorem Grammar.exists_merged {layers : List Layer} {g : Grammar}
    (h : (Grammar.ofLayers layers).outcome = .ok g) : ∃ m, Merged.Reached layers m ∧
      (m.check (Settings.ofLayers layers)).outcome = .ok g.start ∧ g.rules = m.rules ∧
      g.tokens = m.tokens ∧ g.extras.pattern = (Settings.ofLayers layers).extras := by
  obtain ⟨m, start, extras, hread, hm, hstart, rfl⟩ := ofLayers_eq_ok h
  exact ⟨m, Merged.reached_ofLayers hm, hstart, rfl, rfl,
    Extras.ofPattern?_eq_some.1 (readExpressions_eq_ok.1 hread).2⟩

/-- The table of layers is that of their grammar, which has no empty literal. -/
theorem ParseTable.ofLayers_eq_ok {layers : List Layer} {t : ParseTable}
    (h : (ParseTable.ofLayers layers).outcome = .ok t) :
    (Grammar.ofLayers layers).outcome = .ok t.grammar ∧ t = .ofGrammar t.grammar ∧
      "" ∉ t.grammar.literals := by
  unfold ParseTable.ofLayers at h
  obtain ⟨g, hg, h⟩ := Traced.outcome_bind.1 h
  split at h
  · cases h
  · rename_i hempty
    cases h
    refine ⟨hg, rfl, fun hmem => hempty ?_⟩
    exact List.contains_iff_mem.2 hmem

/-- **A grammar that builds has a table the engine can rely on.** -/
theorem ParseTable.built {layers : List Layer} {t : ParseTable}
    (h : (ParseTable.ofLayers layers).outcome = .ok t) : t.Built := by
  obtain ⟨hg, htable, hliterals⟩ := ParseTable.ofLayers_eq_ok h
  obtain ⟨m, hm, hcheck, hrules, htokens, _⟩ := Grammar.exists_merged hg
  obtain ⟨_, hstart, hclosed⟩ := Merged.of_check hcheck
  rw [← hrules] at hstart hclosed
  rw [← htokens] at hclosed
  refine ⟨htable, hliterals, ?_, hstart, hclosed⟩
  rw [hrules, htokens]
  exact hm.apart

end LayeredGrammar
