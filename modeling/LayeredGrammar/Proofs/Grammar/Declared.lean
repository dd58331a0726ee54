import LayeredGrammar.Proofs.Grammar.Built

/-!
# What layers declare

Layers that only add rules and extend them leave their declarations as they are: every alternative
of a rule they are merged into stands in one of the layers (`ParseTable.mem_declared`). What can be
checked of each declared alternative alone therefore holds of the merged grammar, without merging.
-/

namespace LayeredGrammar

namespace Layer

/-- The alternatives that a member declares, each with the name of its rule. -/
def alternativesOf : String × Declaration → List (String × Production)
  | (key, .rule name p) => p.alternatives.map (nameOr key name, ·)
  | (key, .extension name alternatives) =>
    (Production.alternativesAll alternatives).map (nameOr key name, ·)
  | _ => []

/-- The alternatives that a layer declares. -/
def declared (l : Layer) : List (String × Production) := l.members.flatMap alternativesOf

/-- Whether a layer changes rules by extending them only. -/
def isPlain (l : Layer) : Bool :=
  l.members.all fun m => match m.2 with
    | .override _ _ => false
    | _ => true

variable {l : Layer} {name : String}

theorem mem_declared_of_body {body p : Production} (h : (name, RuleEntry.body body) ∈ l.rules)
    (hp : p ∈ body.alternatives) : (name, p) ∈ l.declared := by
  obtain ⟨⟨key, member⟩, hm, hrule⟩ := List.mem_filterMap.1 h
  refine List.mem_flatMap.2 ⟨_, hm, ?_⟩
  cases member with
  | rule given q =>
    cases hrule
    exact List.mem_map.2 ⟨p, hp, rfl⟩
  | token given t => cases hrule
  | extension given alternatives => cases hrule
  | override given change => cases hrule

theorem exists_of_change {c : Override} (hl : l.isPlain = true)
    (h : (name, RuleEntry.change c) ∈ l.rules) : ∃ alternatives,
      c = pure (some (.extension alternatives)) ∧
      ∀ p ∈ Production.alternativesAll alternatives, (name, p) ∈ l.declared := by
  obtain ⟨⟨key, member⟩, hm, hrule⟩ := List.mem_filterMap.1 h
  cases member with
  | rule given q => cases hrule
  | token given t => cases hrule
  | extension given alternatives =>
    cases hrule
    refine ⟨alternatives, rfl, fun p hp => ?_⟩
    exact List.mem_flatMap.2 ⟨_, hm, List.mem_map.2 ⟨p, hp, rfl⟩⟩
  | override given change => cases List.all_eq_true.1 hl _ hm

end Layer

theorem Template.fillAll_fixed (body : Production) (ps : List Production) :
    fillAll body (ps.map .fixed) = ps := by
  induction ps with
  | nil => rfl
  | cons p ps ih => rw [List.map_cons, fillAll, fill, ih]

theorem Template.alternatives_extension (body : Production) (ps : List Production) :
    (fill body (.extension ps)).alternatives =
      body.alternatives ++ Production.alternativesAll ps := by
  unfold extension
  rw [fill, fillAll, fillAll_fixed, fill]
  rfl

/-- Every alternative of a merged rule was declared. -/
theorem Merged.Reached.mem_declared {layers : List Layer} {m : Merged} (h : Reached layers m)
    (hplain : ∀ l ∈ layers, l.isPlain = true) : ∀ r ∈ m.rules, ∀ p ∈ r.2.alternatives,
      (r.1, p) ∈ layers.flatMap Layer.declared := by
  induction h with
  | start => exact nofun
  | token _ _ _ _ _ ih => exact ih
  | body _ hl hr _ _ ih =>
    intro r hmem p hp
    rcases NameTable.mem_set hmem with rfl | hmem
    · exact List.mem_flatMap.2 ⟨_, hl, Layer.mem_declared_of_body hr hp⟩
    · exact ih r hmem p hp
  | change _ hl hr hb _ hc _ ih =>
    intro r hmem p hp
    rcases NameTable.mem_set hmem with rfl | hmem
    · obtain ⟨alternatives, rfl, hdeclared⟩ := Layer.exists_of_change (hplain _ hl) hr
      cases hc
      rw [Template.alternatives_extension, List.mem_append] at hp
      rcases hp with hp | hp
      · exact ih _ (NameTable.mem_of_get? hb) p hp
      · exact List.mem_flatMap.2 ⟨_, hl, hdeclared p hp⟩
    · exact ih r hmem p hp
  | close _ ih => exact ih

/-- **Every alternative of a table comes from a declaration.** -/
theorem ParseTable.mem_declared {layers : List Layer} {t : ParseTable}
    (h : (ParseTable.ofLayers layers).outcome = .ok t) (hplain : ∀ l ∈ layers, l.isPlain = true)
    {rule : String} {body p : Production} (hb : t.grammar.rules.get? rule = some body)
    (hp : p ∈ body.alternatives) : (rule, p) ∈ layers.flatMap Layer.declared := by
  obtain ⟨hg, _, _⟩ := ParseTable.ofLayers_eq_ok h
  obtain ⟨m, hm, _, hrules, _, _⟩ := Grammar.exists_merged hg
  rw [hrules] at hb
  exact hm.mem_declared hplain _ (NameTable.mem_of_get? hb) p hp

end LayeredGrammar
