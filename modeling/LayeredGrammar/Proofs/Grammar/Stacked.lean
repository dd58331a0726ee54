import LayeredGrammar.Proofs.Grammar.Declared

/-!
# One more layer

What a layer of new rules and extensions does to the grammar below it: new rules get their bodies,
extended rules get alternatives after those they have, and everything else is left alone
(`Merged.Stacked`). Since the first override of a rule remembers the body below it, the number of
its base alternatives stays the same.
-/

namespace LayeredGrammar

namespace Layer

/-- The body of a rule that a member declares. -/
def bodyOf? : String × Declaration → Option (String × Production)
  | (key, .rule name p) => some (nameOr key name, p)
  | _ => none

/-- The extension of a rule that a member declares. -/
def extensionOf? : String × Declaration → Option (String × List Production)
  | (key, .extension name alternatives) => some (nameOr key name, alternatives)
  | _ => none

/-- The rules that a layer declares with a body. -/
def bodies (l : Layer) : List (String × Production) := l.members.filterMap bodyOf?

/-- The rules that a layer extends, with the alternatives it adds. -/
def extensions (l : Layer) : List (String × List Production) := l.members.filterMap extensionOf?

/-- Whether a layer declares rules and extensions only. -/
def onlyExtends (l : Layer) : Bool :=
  l.members.all fun m => match m.2 with
    | .rule _ _ | .extension _ _ => true
    | _ => false

variable {l : Layer} {name : String}

theorem mem_bodies {p : Production} : (name, p) ∈ l.bodies ↔ (name, RuleEntry.body p) ∈ l.rules := by
  unfold bodies rules
  rw [List.mem_filterMap, List.mem_filterMap]
  constructor
  · rintro ⟨⟨key, member⟩, hm, h⟩
    refine ⟨_, hm, ?_⟩
    cases member <;> cases h
    rfl
  · rintro ⟨⟨key, member⟩, hm, h⟩
    refine ⟨_, hm, ?_⟩
    cases member <;> cases h
    rfl

theorem exists_of_onlyExtends (hl : l.onlyExtends = true) {c : Override}
    (h : (name, RuleEntry.change c) ∈ l.rules) : ∃ alternatives,
      (name, alternatives) ∈ l.extensions ∧ c = pure (some (.extension alternatives)) := by
  obtain ⟨⟨key, member⟩, hm, hrule⟩ := List.mem_filterMap.1 h
  cases member with
  | rule given q => cases hrule
  | token given t => cases hrule
  | extension given alternatives =>
    cases hrule
    exact ⟨alternatives, List.mem_filterMap.2 ⟨_, hm, rfl⟩, rfl⟩
  | override given change => cases List.all_eq_true.1 hl _ hm

theorem tokens_of_onlyExtends (hl : l.onlyExtends = true) : l.tokens = [] := by
  unfold tokens
  rw [List.filterMap_eq_nil_iff]
  rintro ⟨key, member⟩ hm
  cases member with
  | token given t => cases List.all_eq_true.1 hl _ hm
  | _ => rfl

end Layer

namespace Merged

variable {m m' : Merged}

/-- The body that a rule had below all overrides, if it has the given one now. -/
def baseBody (m : Merged) (name : String) (body : Production) : Production :=
  ((m.overrides.find? (·.rule == name)).map (·.previous)).getD body

theorem baseBody_eq (m : Merged) (name : String) (body : Production) :
    m.baseBody name body = ((m.overridesOf name).head?.map (·.previous)).getD body := by
  unfold baseBody overridesOf
  rw [List.head?_filter]

/-- The body of a rule below all overrides is remembered while nothing more is recorded for it. -/
theorem baseBody_congr {name : String} (h : m'.overridesOf name = m.overridesOf name) :
    m'.baseBody name = m.baseBody name := by
  funext body
  rw [baseBody_eq, baseBody_eq, h]

/-- A rule remembers the body that its first override inherits. -/
theorem baseBody_of_recorded {name : String} {o : AppliedOverride}
    (h : m'.overridesOf name = m.overridesOf name ++ [o]) (body : Production) :
    m'.baseBody name body = m.baseBody name o.previous := by
  rw [baseBody_eq, baseBody_eq, h]
  cases m.overridesOf name with
  | nil => rfl
  | cons first more => rfl

/-! ## Layers -/

/-- What a layer of new rules and extensions makes of the layers below it. -/
structure Stacked (x : Layer) (m m' : Merged) : Prop where
  tokens : m'.tokens = m.tokens
  baseRules : m'.baseRules = m.baseRules
  conflicts : m'.conflicts = m.conflicts ++ x.conflicts
  /-- A rule from below keeps its body, or gets alternatives after it. -/
  kept : ∀ name body, m.rules.get? name = some body → ∃ body', m'.rules.get? name = some body' ∧
    m'.baseBody name body' = m.baseBody name body ∧
    (body' = body ∨ ∃ alternatives, (name, alternatives) ∈ x.extensions ∧
      body' = Template.fill body (.extension alternatives))
  added : ∀ name p, (name, p) ∈ x.bodies → m'.rules.get? name = some p

theorem Added.tokens_eq {x : Layer} (h : Added true x m m') (hx : x.onlyExtends = true) :
    m'.tokens = m.tokens := by
  rw [h.tokens, Layer.tokens_of_onlyExtends hx, List.append_nil]

theorem stacked_addLayer {x : Layer} (hx : x.onlyExtends = true)
    (hnew : ∀ name p, (name, p) ∈ x.bodies → m.rules.get? name = none)
    (h : (addLayer true m x).outcome = .ok m') : Stacked x m m' := by
  have hadded := added_addLayer h
  refine ⟨hadded.tokens_eq hx, hadded.baseRules, hadded.conflicts, fun name body hbody => ?_,
    fun name p hp => ?_⟩
  · by_cases hc : ∃ c, (name, RuleEntry.change c) ∈ x.rules
    · obtain ⟨c, hc⟩ := hc
      obtain ⟨alternatives, halternatives, rfl⟩ := Layer.exists_of_onlyExtends hx hc
      obtain ⟨previous, template, hprevious, ⟨htemplate, _⟩, hfilled⟩ := hadded.changed name _ hc
      cases hbody.symm.trans hprevious
      cases htemplate
      refine ⟨_, hfilled, ?_, Or.inr ⟨alternatives, halternatives, rfl⟩⟩
      exact baseBody_of_recorded (hadded.recorded name _ hc body _ hbody rfl).1 _
    · have hunchanged : ∀ c, (name, RuleEntry.change c) ∉ x.rules := fun c hmem => hc ⟨c, hmem⟩
      have hother : name ∉ x.rules.map (·.1) := by
        intro hmem
        obtain ⟨⟨n, e⟩, he, rfl⟩ := List.mem_map.1 hmem
        cases e with
        | body p =>
          rw [hnew n p (Layer.mem_bodies.2 he)] at hbody
          cases hbody
        | change c => exact hunchanged c he
      refine ⟨body, (hadded.others name hother).trans hbody, ?_, Or.inl rfl⟩
      rw [baseBody_congr (hadded.unchanged name hunchanged).1]
  · exact (hadded.defined name p (Layer.mem_bodies.1 hp)).1

/-- No rule has two entries. -/
theorem Reached.nodup {layers : List Layer} (h : Reached layers m) : m.rules.names.Nodup := by
  induction h with
  | start => exact .nil
  | token _ _ _ _ _ ih => exact ih
  | body _ _ _ _ _ ih => exact NameTable.nodup_names_set ih _ _
  | change _ _ _ _ _ _ _ ih => exact NameTable.nodup_names_set ih _ _
  | close _ ih => exact ih

/-- Layers on top of others are put there one by one. -/
theorem foldlM_of_ofLayers {under above : List Layer} (hm : (ofLayers under).outcome = .ok m)
    (h : (ofLayers (under ++ above)).outcome = .ok m') :
    (above.foldlM (addLayer true) m).outcome = .ok m' := by
  cases under with
  | nil => cases hm
  | cons base under =>
    rw [List.cons_append] at h
    unfold ofLayers at h hm
    obtain ⟨first, hfirst, h⟩ := Traced.outcome_bind.1 h
    obtain ⟨first', hfirst', hm⟩ := Traced.outcome_bind.1 hm
    rw [hfirst] at hfirst'
    cases hfirst'
    rw [List.foldlM_append] at h
    obtain ⟨below, hbelow, h⟩ := Traced.outcome_bind.1 h
    rw [hm] at hbelow
    cases hbelow
    exact h

theorem ofLayers_append {layers : List Layer} {x : Layer}
    (hm : (ofLayers layers).outcome = .ok m) (h : (ofLayers (layers ++ [x])).outcome = .ok m') :
    (addLayer true m x).outcome = .ok m' := by
  have h := foldlM_of_ofLayers hm h
  rw [List.foldlM_cons] at h
  obtain ⟨top, htop, h⟩ := Traced.outcome_bind.1 h
  cases h
  exact htop

end Merged

/-! ## Grammars -/

/-- The parts of a grammar that builds, in terms of its merged layers and their settings. -/
theorem Grammar.parts_of_ofLayers {layers : List Layer} {g : Grammar}
    (h : (Grammar.ofLayers layers).outcome = .ok g) : ∃ m, (Merged.ofLayers layers).outcome = .ok m ∧
      (g.rules = m.rules ∧ g.tokens = m.tokens ∧ g.conflicts = m.conflicts ∧
        g.baseRules = sortedNames m.baseRules ∧ g.overrides = m.overrides) ∧
      (Settings.ofLayers layers).start = some g.start ∧
      g.word = (Settings.ofLayers layers).word ∧
      g.extras.pattern = (Settings.ofLayers layers).extras ∧
      g.reserved = sortedNames (Settings.ofLayers layers).reserved ∧
      g.recoveryStops = sortedNames (Settings.ofLayers layers).recoveryStops := by
  obtain ⟨m, start, extras, hread, hm, hstart, rfl⟩ := ofLayers_eq_ok h
  exact ⟨m, hm, ⟨rfl, rfl, rfl, rfl, rfl⟩, (Merged.of_check hstart).1, rfl,
    Extras.ofPattern?_eq_some.1 (readExpressions_eq_ok.1 hread).2, rfl, rfl⟩

/-- Whether a layer leaves the settings alone that say how a text is read. -/
structure Layer.KeepsReading (x : Layer) : Prop where
  start : x.start = none
  word : x.word = none
  extras : x.extras = none
  reserved : x.reserved = []

/-- What a layer of new rules and extensions makes of the grammar below it. -/
structure Grammar.Stacked (x : Layer) (g g' : Grammar) : Prop where
  start : g'.start = g.start
  tokens : g'.tokens = g.tokens
  word : g'.word = g.word
  extras : g'.extras = g.extras
  reserved : g'.reserved = g.reserved
  conflicts : g'.conflicts = g.conflicts ++ x.conflicts
  stops : ∀ token, token ∈ g'.recoveryStops ↔ token ∈ g.recoveryStops ∨ token ∈ x.recoveryStops
  nodup : g.rules.names.Nodup
  kept : ∀ name body, g.rules.get? name = some body → ∃ body', g'.rules.get? name = some body' ∧
    ParseTable.baseCount g' name body' = ParseTable.baseCount g name body ∧
    (body' = body ∨ ∃ alternatives, (name, alternatives) ∈ x.extensions ∧
      body' = Template.fill body (.extension alternatives))
  added : ∀ name p, (name, p) ∈ x.bodies → g'.rules.get? name = some p

theorem ParseTable.baseCount_eq {g : Grammar} {m : Merged} (hb : g.baseRules = sortedNames m.baseRules)
    (ho : g.overrides = m.overrides) (name : String) (body : Production) :
    baseCount g name body = if (sortedNames m.baseRules).contains name then
      (m.baseBody name body).alternatives.length else 0 := by
  unfold baseCount Merged.baseBody
  rw [hb, ho]
  cases m.overrides.find? (·.rule == name) <;> rfl

/-- **One more layer of new rules and extensions** keeps what is below it. -/
theorem Grammar.stacked {layers : List Layer} {x : Layer} {g g' : Grammar}
    (h : (Grammar.ofLayers layers).outcome = .ok g)
    (h' : (Grammar.ofLayers (layers ++ [x])).outcome = .ok g') (hx : x.onlyExtends = true)
    (hr : x.KeepsReading) (hnew : ∀ name p, (name, p) ∈ x.bodies → name ∉ g.rules.names) :
    Grammar.Stacked x g g' := by
  obtain ⟨m, hm, ⟨hrules, htokens, hconflicts, hbase, hover⟩, hstart, hword, hextras, hreserved,
    hstops⟩ := parts_of_ofLayers h
  obtain ⟨m', hm', ⟨hrules', htokens', hconflicts', hbase', hover'⟩, hstart', hword', hextras',
    hreserved', hstops'⟩ := parts_of_ofLayers h'
  have hstacked : Merged.Stacked x m m' := by
    refine Merged.stacked_addLayer hx (fun name p hp => ?_) (Merged.ofLayers_append hm hm')
    rw [NameTable.get?_eq_none, ← hrules]
    exact hnew name p hp
  have hsettings : Settings.ofLayers (layers ++ [x]) = (Settings.ofLayers layers).push x := by
    unfold Settings.ofLayers
    rw [List.foldl_append]
    rfl
  rw [hsettings] at hstart' hword' hextras' hreserved' hstops'
  simp only [Settings.push, hr.start, hr.word, hr.extras, hr.reserved, Option.getD_none,
    List.append_nil] at hstart' hword' hextras' hreserved' hstops'
  refine ⟨?_, ?_, ?_, ?_, ?_, ?_, ?_, ?_, ?_, ?_⟩
  · exact Option.some.inj (hstart'.symm.trans hstart)
  · rw [htokens', hstacked.tokens, htokens]
  · rw [hword', hword]
  · exact Extras.ext_pattern (hextras'.trans hextras.symm)
  · rw [hreserved', hreserved]
  · rw [hconflicts', hstacked.conflicts, hconflicts]
  · intro token
    rw [hstops', hstops, mem_sortedNames, mem_sortedNames, List.mem_append]
  · rw [hrules]
    exact (Merged.reached_ofLayers hm).nodup
  · intro name body hbody
    rw [hrules] at hbody
    obtain ⟨body', hbody', hsame, hkept⟩ := hstacked.kept name body hbody
    refine ⟨body', hrules' ▸ hbody', ?_, hkept⟩
    rw [ParseTable.baseCount_eq hbase' hover', ParseTable.baseCount_eq hbase hover, hsame,
      hstacked.baseRules]
  · intro name p hp
    rw [hrules']
    exact hstacked.added name p hp

namespace Grammar.Stacked

variable {x : Layer} {g g' : Grammar}

/-- What is below a rule of the grammar is still there with one more layer. -/
theorem walk_subset (h : Grammar.Stacked x g g') {name : String} {body q : Production}
    (hb : (name, body) ∈ g.rules) (hq : q ∈ body.walk) :
    ∃ body', (name, body') ∈ g'.rules ∧ q ∈ body'.walk := by
  obtain ⟨body', hbody', _, hkept⟩ := h.kept name body (NameTable.get?_of_mem h.nodup hb)
  refine ⟨body', NameTable.mem_of_get? hbody', ?_⟩
  rcases hkept with rfl | ⟨alternatives, _, rfl⟩
  · exact hq
  · exact List.mem_cons_of_mem _ (List.mem_append_left _ hq)

theorem literals_subset (h : Grammar.Stacked x g g') : g.literals ⊆ g'.literals := by
  intro value hvalue
  unfold Grammar.literals at hvalue ⊢
  rw [mem_sortedNames] at hvalue ⊢
  obtain ⟨⟨name, body⟩, hbody, hliteral⟩ := List.mem_flatMap.1 hvalue
  obtain ⟨q, hq, hlit⟩ := List.mem_filterMap.1 hliteral
  obtain ⟨body', hbody', hq'⟩ := h.walk_subset hbody hq
  exact List.mem_flatMap.2 ⟨_, hbody', List.mem_filterMap.2 ⟨q, hq', hlit⟩⟩

/-- The alternatives of a rule from below: those it has there, and the ones that the layer adds. -/
theorem alternatives_kept (h : Grammar.Stacked x g g') {name : String} {body : Production}
    (hb : g.rules.get? name = some body) : ∃ body' added, g'.rules.get? name = some body' ∧
      ParseTable.baseCount g' name body' = ParseTable.baseCount g name body ∧
      body'.alternatives = body.alternatives ++ added ∧
      ∀ p ∈ added, ∃ alternatives, (name, alternatives) ∈ x.extensions ∧
        p ∈ Production.alternativesAll alternatives := by
  obtain ⟨body', hbody', hcount, hkept⟩ := h.kept name body hb
  rcases hkept with rfl | ⟨alternatives, hmem, rfl⟩
  · exact ⟨body', [], hbody', hcount, (List.append_nil _).symm, List.forall_mem_nil _⟩
  · exact ⟨_, Production.alternativesAll alternatives, hbody', hcount,
      Template.alternatives_extension body alternatives, fun p hp => ⟨alternatives, hmem, hp⟩⟩

end Grammar.Stacked

end LayeredGrammar
