import LayeredGrammar.Proofs.Grammar.Overriding
import Mathlib.Data.List.Forall2

/-!
# Extension points

A grammar that builds respects its layers (`Grammar.respects_layers`): tokens stay as they are
declared, a rule that no layer opens as an extension point has the one body it is given, only layers
above the one that opened a rule replace or change it, and changes keep every body that the rule had
since it was last replaced.

All of it follows from what one layer does to those below it (`Merged.Extended`), by induction over the
layers.
-/

namespace LayeredGrammar

/-- The change that an entry for a rule makes, if it is not a body. -/
def RuleEntry.change? : RuleEntry → Option Override
  | .body _ => none
  | .change c => some c

/-- The changes of a rule that a layer declares. -/
def Layer.changesOf (name : String) (l : Layer) : List Override :=
  (l.rules.filter (·.1 == name)).filterMap (·.2.change?)

/-- The changes of a rule that layers declare have made of its body what it is now, each of them keeping
what it inherited: the first body still has a place in the last one. -/
def Template.Carries (changes : List Override) (body effective : Production) : Prop :=
  ∃ ts : List Template, List.Forall₂ (fun c t => c.outcome = .ok (some t)) changes ts ∧
    (chain ts).keepsInherited = true ∧ (chain ts).fill body = effective

/-- What a grammar owes to its layers, the base first. -/
structure Grammar.Respects (layers : List Layer) (g : Grammar) : Prop where
  /-- The tokens are those that the layers declare. -/
  tokens : g.tokens = layers.flatMap Layer.tokens
  /-- Every token is declared once. -/
  declared : g.tokens.names.Nodup
  /-- A rule that is no extension point has one entry in all the layers, which gives its body. -/
  fixed : ∀ name p, g.rules.get? name = some p → (∀ l ∈ layers, name ∉ l.extensionPoints) →
    (layers.flatMap Layer.rules).filter (·.1 == name) = [(name, .body p)]
  /-- A layer that changes a rule, or gives a body to one that has a body, stands above one that
  declared it an extension point. -/
  opened : ∀ below l above, layers = below ++ l :: above → ∀ name entry, (name, entry) ∈ l.rules →
    (entry.isChange = true ∨ ∃ l' ∈ below, ∃ p, (name, RuleEntry.body p) ∈ l'.rules) →
    ∃ l' ∈ below, name ∈ l'.extensionPoints
  /-- The lower layers alone merge too. -/
  merges : ∀ below above, layers = below ++ above → below ≠ [] →
    ∃ m, (Merged.ofLayers below).outcome = .ok m
  /-- A layer that gives a rule a body is where the rule has that body. -/
  given : ∀ below l above, layers = below ++ l :: above → ∀ m,
    (Merged.ofLayers (below ++ [l])).outcome = .ok m → ∀ name p, (name, RuleEntry.body p) ∈ l.rules →
    m.rules.get? name = some p
  /-- Whatever body a rule has somewhere on the way has a place in its last one, unless a layer above
  gives it another. -/
  kept : ∀ below above, layers = below ++ above → ∀ m, (Merged.ofLayers below).outcome = .ok m →
    ∀ name body, m.rules.get? name = some body →
    (∀ l ∈ above, ∀ p, (name, RuleEntry.body p) ∉ l.rules) →
    ∃ effective, g.rules.get? name = some effective ∧
      Template.Carries (above.flatMap (Layer.changesOf name)) body effective ∧ body ∈ effective.walk

/-- A body that changes carry along is part of the last one. -/
theorem Template.Carries.mem_walk {changes : List Override} {body effective : Production}
    (h : Carries changes body effective) : body ∈ effective.walk := by
  obtain ⟨ts, _, hkeeps, rfl⟩ := h
  exact mem_walk_fill _ hkeeps

/-! ## Entries of a name -/

namespace NameTable

variable {α : Type} {t : NameTable α} {name : String}

theorem filter_eq_nil (h : name ∉ t.names) : t.filter (·.1 == name) = [] := by
  refine List.filter_eq_nil_iff.2 fun e he heq => h ?_
  exact List.mem_map.2 ⟨e, he, beq_iff_eq.1 heq⟩

/-- In a table without repeated names, the entries of a name are its one entry. -/
theorem filter_eq_singleton (h : t.names.Nodup) {a : α} (hmem : (name, a) ∈ t) :
    t.filter (·.1 == name) = [(name, a)] := by
  induction t with
  | nil => cases hmem
  | cons e t ih =>
    obtain ⟨hnew, hnodup⟩ := List.nodup_cons.1 h
    rcases List.mem_cons.1 hmem with rfl | hmem
    · rw [List.filter_cons_of_pos (by simp), filter_eq_nil hnew]
    · have hne : e.1 ≠ name := fun heq => hnew (List.mem_map.2 ⟨_, hmem, heq.symm⟩)
      rw [List.filter_cons_of_neg (by simpa using hne), ih hnodup hmem]

end NameTable

namespace Merged

variable {layers : List Layer} {m m' : Merged} {name : String}

/-! ## Along the layers -/

theorem Climbs.tokens (h : Climbs layers m m') :
    m'.tokens = m.tokens ++ layers.flatMap Layer.tokens := by
  induction h with
  | done => simp
  | step hl _ ih => rw [ih, hl.tokens, List.flatMap_cons, List.append_assoc]

theorem Climbs.distinct (h : Climbs layers m m') (hm : m.tokens.names.Nodup) :
    m'.tokens.names.Nodup := by
  induction h with
  | done => exact hm
  | step hl _ ih => exact ih (hl.distinct hm)

theorem Climbs.extensionPoints (h : Climbs layers m m') :
    m'.extensionPoints = m.extensionPoints ++ layers.flatMap Layer.extensionPoints := by
  induction h with
  | done => simp
  | step hl _ ih => rw [ih, hl.extensionPoints, List.flatMap_cons, List.append_assoc]

/-- A layer takes no rule away. -/
theorem Extended.mem_names {l : Layer} (hl : Extended l m m') (h : name ∈ m.rules.names) :
    name ∈ m'.rules.names := by
  by_cases hname : name ∈ l.rules.map (·.1)
  · obtain ⟨⟨n, entry⟩, he, rfl⟩ := List.mem_map.1 hname
    cases entry with
    | body p => exact NameTable.mem_names_of_get? (hl.defined n p he).1
    | change c =>
      obtain ⟨_, _, _, _, hfilled⟩ := hl.changed n c he
      exact NameTable.mem_names_of_get? hfilled
  · refine Decidable.byContradiction fun hnone => ?_
    rw [← NameTable.get?_eq_none, hl.others name hname, NameTable.get?_eq_none] at hnone
    exact hnone h

/-- A rule that some layer gives a body is there. -/
theorem Climbs.mem_names (h : Climbs layers m m')
    (hname : name ∈ m.rules.names ∨ ∃ l ∈ layers, ∃ p, (name, RuleEntry.body p) ∈ l.rules) :
    name ∈ m'.rules.names := by
  induction h with
  | done => exact hname.resolve_right fun ⟨_, hl, _⟩ => nomatch hl
  | step hl _ ih =>
    refine ih ?_
    rcases hname with hname | ⟨l, hmem, p, hp⟩
    · exact Or.inl (hl.mem_names hname)
    · rcases List.mem_cons.1 hmem with rfl | hmem
      · exact Or.inl (NameTable.mem_names_of_get? (hl.defined name p hp).1)
      · exact Or.inr ⟨l, hmem, p, hp⟩

/-! ## Rules that are no extension points -/

/-- No layer has an entry for a rule that is there and not opened. -/
theorem Climbs.closed (h : Climbs layers m m') (hname : name ∈ m.rules.names)
    (hm : name ∉ m.extensionPoints) (hlayers : ∀ l ∈ layers, name ∉ l.extensionPoints) :
    (layers.flatMap Layer.rules).filter (·.1 == name) = [] ∧
      m'.rules.get? name = m.rules.get? name := by
  induction h with
  | done => exact ⟨rfl, rfl⟩
  | @step l _ m m' _ hl _ ih =>
    rw [List.forall_mem_cons] at hlayers
    have hentry : name ∉ l.rules.map (·.1) := by
      intro hmem
      obtain ⟨⟨n, entry⟩, he, rfl⟩ := List.mem_map.1 hmem
      cases entry with
      | body p => exact hm ((hl.defined n p he).2 hname)
      | change c =>
        obtain ⟨_, _, _, ⟨_, hpoint, _⟩, _⟩ := hl.changed n c he
        exact hm hpoint
    have hpoints : name ∉ m'.extensionPoints := by
      rw [hl.extensionPoints, List.mem_append]
      exact fun hmem => hmem.elim hm hlayers.1
    obtain ⟨hnone, hsame⟩ := ih (hl.mem_names hname) hpoints hlayers.2
    rw [List.flatMap_cons, List.filter_append, NameTable.filter_eq_nil hentry, hnone, hsame,
      hl.others name hentry]
    exact ⟨rfl, rfl⟩

/-- A rule that is not opened gets its body from its one entry. -/
theorem Climbs.fixed (h : Climbs layers m m') (hnew : name ∉ m.rules.names)
    (hm : name ∉ m.extensionPoints) (hlayers : ∀ l ∈ layers, name ∉ l.extensionPoints)
    {p : Production} (hp : m'.rules.get? name = some p) :
    (layers.flatMap Layer.rules).filter (·.1 == name) = [(name, .body p)] := by
  induction h with
  | done => exact absurd (NameTable.mem_names_of_get? hp) hnew
  | @step l _ m m' _ hl hs ih =>
    rw [List.forall_mem_cons] at hlayers
    have hpoints : name ∉ m'.extensionPoints := by
      rw [hl.extensionPoints, List.mem_append]
      exact fun hmem => hmem.elim hm hlayers.1
    rw [List.flatMap_cons, List.filter_append]
    by_cases hname : name ∈ l.rules.map (·.1)
    · obtain ⟨⟨n, entry⟩, he, rfl⟩ := List.mem_map.1 hname
      cases entry with
      | body q =>
        have hbody := (hl.defined n q he).1
        obtain ⟨hnone, hsame⟩ :=
          hs.closed (NameTable.mem_names_of_get? hbody) hpoints hlayers.2
        rw [hsame, hbody] at hp
        cases hp
        rw [NameTable.filter_eq_singleton hl.entries he, hnone]
        rfl
      | change c =>
        obtain ⟨_, _, _, ⟨_, hpoint, _⟩, _⟩ := hl.changed n c he
        exact absurd hpoint hm
    · have hnew' : name ∉ m'.rules.names := by
        rwa [← NameTable.get?_eq_none, hl.others name hname, NameTable.get?_eq_none]
      rw [NameTable.filter_eq_nil hname, ih hnew' hpoints hlayers.2 hp]
      rfl

/-! ## Bodies that are kept -/

/-- A layer that does not give a rule another body carries its body along. -/
theorem Extended.carries {l : Layer} (hl : Extended l m m') {body : Production}
    (hbody : m.rules.get? name = some body) (hnone : ∀ p, (name, RuleEntry.body p) ∉ l.rules) :
    ∃ ts : List Template, List.Forall₂ (fun c t => c.outcome = .ok (some t)) (l.changesOf name) ts ∧
      (∀ t ∈ ts, t.keepsInherited = true) ∧
      m'.rules.get? name = some (ts.foldl (fun p t => t.fill p) body) := by
  by_cases hname : name ∈ l.rules.map (·.1)
  · obtain ⟨⟨n, entry⟩, he, rfl⟩ := List.mem_map.1 hname
    cases entry with
    | body p => exact absurd he (hnone p)
    | change c =>
      obtain ⟨previous, t, hprevious, ⟨hc, _, hkeeps⟩, hfilled⟩ := hl.changed n c he
      rw [hbody] at hprevious
      cases hprevious
      have hchanges : l.changesOf n = [c] := by
        rw [Layer.changesOf, NameTable.filter_eq_singleton hl.entries he]
        rfl
      rw [hchanges]
      exact ⟨[t], .cons hc .nil, List.forall_mem_singleton.2 hkeeps, hfilled⟩
  · have hchanges : l.changesOf name = [] := by
      rw [Layer.changesOf, NameTable.filter_eq_nil hname]
      rfl
    rw [hchanges, hl.others name hname]
    exact ⟨[], .nil, nofun, hbody⟩

/-- Layers that do not give a rule another body carry its body along. -/
theorem Climbs.carries (h : Climbs layers m m') {body : Production}
    (hbody : m.rules.get? name = some body)
    (hnone : ∀ l ∈ layers, ∀ p, (name, RuleEntry.body p) ∉ l.rules) :
    ∃ effective, m'.rules.get? name = some effective ∧
      Template.Carries (layers.flatMap (Layer.changesOf name)) body effective := by
  have hchain : ∃ ts : List Template,
      List.Forall₂ (fun c t => c.outcome = .ok (some t)) (layers.flatMap (Layer.changesOf name)) ts ∧
      (∀ t ∈ ts, t.keepsInherited = true) ∧
      m'.rules.get? name = some (ts.foldl (fun p t => t.fill p) body) := by
    induction h generalizing body with
    | done => exact ⟨[], .nil, nofun, hbody⟩
    | step hl _ ih =>
      rw [List.forall_mem_cons] at hnone
      obtain ⟨ts, hts, hkeeps, hnext⟩ := hl.carries hbody hnone.1
      obtain ⟨us, hus, hkeeps', htop⟩ := ih hnext hnone.2
      refine ⟨ts ++ us, ?_, ?_, ?_⟩
      · rw [List.flatMap_cons]
        exact List.rel_append hts hus
      · exact List.forall_mem_append.2 ⟨hkeeps, hkeeps'⟩
      · rw [htop, List.foldl_append]
  obtain ⟨ts, hts, hkeeps, htop⟩ := hchain
  exact ⟨_, htop, ts, hts, Template.keepsInherited_chain hkeeps, Template.fill_chain ts body⟩

end Merged

/-! ## Grammars -/

/-- **Grammars respect their layers.** Rules change through extension points only, and changes keep
what they change. -/
theorem Grammar.respects_layers {layers : List Layer} {g : Grammar}
    (h : (Grammar.ofLayers layers).outcome = .ok g) : g.Respects layers := by
  obtain ⟨m, hm, ⟨hrules, htokens, _⟩, _⟩ := parts_of_ofLayers h
  have hclimbs := Merged.climbs_ofLayers hm
  refine ⟨?_, ?_, ?_, ?_, ?_, ?_, ?_⟩
  · rw [htokens, hclimbs.tokens]
    rfl
  · rw [htokens]
    exact hclimbs.distinct .nil
  · intro name p hp hpoints
    rw [hrules] at hp
    exact hclimbs.fixed nofun nofun hpoints hp
  · rintro below l above rfl name entry hentry hold
    obtain ⟨lower, hbelow, habove⟩ := hclimbs.split
    cases habove with
    | step hl _ =>
      have hpoint : name ∈ lower.extensionPoints := by
        cases entry with
        | change c =>
          obtain ⟨_, _, _, ⟨_, hpoint, _⟩, _⟩ := hl.changed name c hentry
          exact hpoint
        | body p =>
          refine (hl.defined name p hentry).2 (hbelow.mem_names (Or.inr ?_))
          exact hold.resolve_left nofun
      rw [hbelow.extensionPoints] at hpoint
      exact List.mem_flatMap.1 hpoint
  · rintro below above rfl hne
    obtain ⟨lower, hlower, _⟩ := Merged.ofLayers_split hne hm
    exact ⟨lower, hlower⟩
  · rintro below l above _ lower hlower name p hp
    obtain ⟨_, _, hstep⟩ := (Merged.climbs_ofLayers hlower).split
    cases hstep with
    | step hl hdone =>
      cases hdone
      exact (hl.defined name p hp).1
  · rintro below above rfl lower hlower name body hbody hnone
    have hne : below ≠ [] := by
      rintro rfl
      cases hlower
    obtain ⟨lower', hlower', habove⟩ := Merged.ofLayers_split hne hm
    rw [hlower] at hlower'
    cases hlower'
    obtain ⟨effective, heffective, hcarries⟩ := habove.carries hbody hnone
    exact ⟨effective, hrules ▸ heffective, hcarries, hcarries.mem_walk⟩

/-- Three layers: the base opens `item`, the second makes it optional, the third adds an alternative. -/
def Layer.itemStack : List Layer :=
  [{ name := "base", start := some (some "list"), word := some none, extensionPoints := ["item"],
     members := [("list", .rule none (.rep (.ref "item") 1 false)), ("item", .rule none (.lit "a"))] },
   { name := "second",
     members := [("item", .override none (pure (some (.opt (.field "inner" .inherited)))))] },
   { name := "third", members := [("item", .extension none [.lit "b"])] }]

set_option maxRecDepth 10000 in
theorem Grammar.respects_layers_item : ∃ g, (Grammar.ofLayers Layer.itemStack).outcome = .ok g ∧
    g.rules.get? "item" =
      some (.choice [.opt (.field "inner" (.lit "a")), .lit "b"]) ∧
    g.Respects Layer.itemStack := by
  have hbuild : ((Grammar.ofLayers Layer.itemStack).outcome.toOption.any fun g =>
      decide (g.rules.get? "item" =
        some (.choice [.opt (.field "inner" (.lit "a")), .lit "b"]))) = true := by decide +kernel
  obtain ⟨g, hg, hitem⟩ := Traced.exists_of_any hbuild
  exact ⟨g, hg, of_decide_eq_true hitem, Grammar.respects_layers hg⟩

end LayeredGrammar
