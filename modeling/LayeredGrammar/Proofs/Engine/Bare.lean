import LayeredGrammar.Proofs.Engine.Tiles

/-!
# No bare literal

A match that consists of one literal only is bare. A rule with a node of its own turns a bare match
into a leaf, and the text is then the leaf's alone; this must not happen to the start rule, whose
node gives way to its children.

`Session.Yields.unbare` follows `Production.mayBeBare` through the engine: in a table with
certificates no rule leaves a bare match, and neither do the rules that may be empty before their
node is made.
-/

namespace LayeredGrammar

/-- One literal and nothing else. -/
def Bare (items : List Item) : Prop := ∃ x, items = [x] ∧ x.1.named = false

theorem not_bare_nil : ¬Bare [] := by
  rintro ⟨x, hx, _⟩
  cases hx

theorem not_bare_of_named {x : Item} {items : List Item} (h : x.1.named = true) :
    ¬Bare (x :: items) := by
  rintro ⟨y, hy, hnamed⟩
  cases hy
  rw [h] at hnamed
  cases hnamed

/-- Of two parts of a bare match one is bare and the other is empty. -/
theorem Bare.of_append {xs ys : List Item} (h : Bare (xs ++ ys)) :
    Bare xs ∧ ys = [] ∨ xs = [] ∧ Bare ys := by
  obtain ⟨x, hx, hnamed⟩ := h
  rcases List.append_eq_singleton_iff.1 hx with ⟨rfl, rfl⟩ | ⟨rfl, rfl⟩
  · exact Or.inr ⟨rfl, x, rfl, hnamed⟩
  · exact Or.inl ⟨⟨x, rfl, hnamed⟩, rfl⟩

namespace Match

theorem bare_withFields {names : List String} {m : Match} (h : Bare (m.withFields names).items) :
    Bare m.items := by
  obtain ⟨x, hx, hnamed⟩ := h
  obtain ⟨y, hy, rfl⟩ := List.map_eq_singleton_iff.1 hx
  exact ⟨y, hy, hnamed⟩

theorem not_bare_rename (content : Production) (kind : String) (m : Match) :
    ¬Bare (m.rename content kind).items := by
  obtain ⟨_, _, _, _, heq⟩ | heq := rename_cases content kind m <;> rw [heq] <;>
    exact not_bare_of_named rfl

theorem finish_of_hidden {rule : String} (m : Match) (h : isHidden rule = true) :
    m.finish rule = m :=
  if_pos h

theorem not_bare_finish {rule : String} (m : Match) (h : isHidden rule = false) :
    ¬Bare (m.finish rule).items := by
  obtain ⟨hhidden, _⟩ | ⟨_, heq | ⟨_, _, _, _, heq⟩⟩ := finish_cases rule m
  · exact absurd (h.symm.trans hhidden) nofun
  · rw [heq]
    exact not_bare_of_named rfl
  · rw [heq]
    exact not_bare_of_named rfl

/-- A rule puts its node around a match that is not bare. -/
theorem finish_eq_wrap {rule : String} {m : Match} (h : isHidden rule = false)
    (hbare : ¬Bare m.items) : m.finish rule = m.wrap rule := by
  obtain ⟨hhidden, _⟩ | ⟨_, heq | ⟨node, names, hitems, hnamed, _⟩⟩ := finish_cases rule m
  · exact absurd (h.symm.trans hhidden) nofun
  · exact heq
  · exact absurd ⟨_, hitems, hnamed⟩ hbare

theorem not_bare_dress {a : Alternative} {m : Match} (h : a.kind = none → ¬Bare m.items) :
    ¬Bare (Session.dress a m).items := by
  obtain ⟨_, ⟨hkind, heq⟩ | ⟨_, _, heq⟩⟩ := Session.dress_cases a m <;> rw [heq]
  · exact h hkind
  · exact not_bare_of_named rfl

end Match

namespace Session

variable {s : Session} {empties : List String} {rank : String → Nat}

/-! ## Items in a row -/

/-- What the rest of a row adds to a run: something unless it may be empty, and no bare literal
unless it may be one. -/
def Adds (empties : List String) (ps : List Production) (run : Run) (m : Match) : Prop :=
  ∃ rest, m.items = run.items.reverse ++ rest ∧
    (Production.allMayBeEmpty empties ps = false → rest ≠ []) ∧
    (Production.bareInRow empties ps = false → ¬Bare rest)

theorem adds_nil (run : Run) : Adds empties [] run run.toMatch :=
  ⟨[], (List.append_nil _).symm, nofun, fun _ => not_bare_nil⟩

theorem items_push (run : Run) (m : Match) :
    (run.push m).items.reverse = run.items.reverse ++ m.items := by
  unfold Run.push
  split
  · rename_i hnil
    rw [List.isEmpty_iff.1 hnil, List.append_nil]
  · simp [Run.take]

theorem adds_cons {p : Production} {ps : List Production} {run : Run} {m m' : Match}
    (hempty : p.mayBeEmpty empties = false → m.items ≠ [])
    (hbare : p.mayBeBare empties = false → ¬Bare m.items) (h : Adds empties ps (run.push m) m') :
    Adds empties (p :: ps) run m' := by
  obtain ⟨rest, hitems, hrest, hbare'⟩ := h
  rw [items_push, List.append_assoc] at hitems
  refine ⟨m.items ++ rest, hitems, ?_, ?_⟩
  · intro he hnil
    obtain ⟨hm, hr⟩ := List.append_eq_nil_iff.1 hnil
    rw [Production.allMayBeEmpty, Bool.and_eq_false_iff] at he
    rcases he with he | he
    · exact hempty he hm
    · exact hrest he hr
  · intro hb hrow
    rw [Production.bareInRow, Bool.or_eq_false_iff, Bool.and_eq_false_iff, Bool.and_eq_false_iff]
      at hb
    -- the literal is that of the first production or one of the others
    rcases hrow.of_append with ⟨hm, hr⟩ | ⟨hm, hr⟩
    · rcases hb.1 with hb | hb
      · exact hbare hb hm
      · exact hrest hb hr
    · rcases hb.2 with hb | hb
      · exact hempty hb hm
      · exact hbare' hb hr

/-! ## What the engine finds -/

/-- What leaving no bare literal means for each kind of task. -/
def Task.Unbare (s : Session) (empties : List String) : Task → Match → Prop
  | .production p _, m => p.mayBeBare empties = false → ¬Bare m.items
  | .items ps run, m => Adds empties ps run m
  | .rounds content _ _ _ run, m => content.mayBeBare empties = false →
      ∃ rest, m.items = run.items.reverse ++ rest ∧ ¬Bare rest
  | .element owner _ e _, m => e.selfFields = e.body.selfFields? owner →
      e.body.mayBeBare empties = false → ¬Bare m.items
  | .elements owner _ es run, m => (∀ e ∈ es, e.selfFields = e.body.selfFields? owner) →
      Adds empties (es.map (·.body)) run m
  | .growth owner _ left, m => ∀ pos, left.Begun s empties owner pos → ¬Bare left.items →
      ¬Bare m.items
  | .rule _, m => ¬Bare m.items

/-- The start of a rule that makes no node of it, or that may be empty, is not bare. -/
theorem not_bare_seed (hs : s.table.Shaped empties) {rule : String} {a : Alternative} {pos : Nat}
    {seed : Match} (ha : s.table.Offers rule a)
    (hrule : Match.isHidden rule = true ∨ rule ∈ empties)
    (h : Adds empties (a.elements.map (·.body)) (.begin pos) seed) :
    ¬Bare (dress a seed).items := by
  refine Match.not_bare_dress fun hkind => ?_
  obtain ⟨rest, hitems, _, hbare⟩ := h
  rw [hitems]
  exact hbare (hs.mayBeBare_eq_false ha hrule hkind)

/-- **No rule leaves a bare literal.** -/
theorem Yields.unbare (hb : s.table.Built) (hr : s.table.Ranked empties rank)
    (hs : s.table.Shaped empties) {t : Task} {m : Match} (h : s.Yields t m) :
    t.Unbare s empties m := by
  induction h with
  | lit => exact nofun
  | token _ h =>
    intro _
    obtain ⟨stop, _, _, _, rfl⟩ := matchToken_eq_some h
    exact not_bare_of_named rfl
  | ref _ _ ih => exact fun _ => ih
  | seq _ ih =>
    intro hrow
    obtain ⟨rest, hitems, _, hbare⟩ := ih
    rw [hitems]
    exact hbare hrow
  | choice hp _ ih => exact fun hbare => ih (Production.mayBeBare_of_mem hp hbare)
  | rep _ ih =>
    intro hcontent
    obtain ⟨rest, hitems, hbare⟩ := ih hcontent
    rw [hitems]
    exact hbare
  | opt _ ih => exact ih
  | omitted => exact fun _ => not_bare_nil
  | blank => exact fun _ => not_bare_nil
  | field _ ih => exact fun hcontent hbare => ih hcontent (Match.bare_withFields hbare)
  | renamed => exact fun _ => Match.not_bare_rename _ _ _
  | prec _ ih => exact ih
  | itemsDone => exact adds_nil _
  | itemsNext h _ ih ih' =>
    have hproper : Match.Proper _ _ _ := h.proper
    exact adds_cons (fun he => hproper.items_ne_nil (h.consumes hb hr he)) ih ih'
  | roundsDone => exact fun _ => ⟨[], (List.append_nil _).symm, not_bare_nil⟩
  | @round _ _ _ _ run m _ h hlt _ ih ih' =>
    intro hcontent
    obtain ⟨rest, hitems, hrest⟩ := ih' hcontent
    have hproper : Match.Proper _ _ _ := h.proper
    refine ⟨m.items ++ rest, ?_, fun hbare => ?_⟩
    · rw [hitems]
      simp [Run.take]
    · rcases hbare.of_append with ⟨hm, _⟩ | ⟨hm, _⟩
      · exact ih hcontent hm
      · exact hproper.items_ne_nil hlt hm
  | @region content _ _ run start stop _ hspan _ ih' =>
    intro hcontent
    obtain ⟨rest, hitems, _⟩ := ih' hcontent
    refine ⟨(Node.error start stop (s.table.expectedFor content), []) :: rest, ?_,
      not_bare_of_named rfl⟩
    rw [hitems]
    simp [Run.pushError]
  | selfElement _ _ ih => exact fun _ _ hbare => ih (Match.bare_withFields hbare)
  | bodyElement _ _ ih => exact fun _ => ih
  | elementsDone => exact fun _ => adds_nil _
  | elementsNext h _ ih ih' =>
    intro hknows
    have hproper : Match.Proper _ _ _ := h.proper
    have hknow := hknows _ List.mem_cons_self
    exact adds_cons (fun he => hproper.items_ne_nil (h.consumes hb hr hknow he)) (ih hknow)
      (ih' fun e he => hknows e (List.mem_cons_of_mem _ he))
  | grown => exact fun _ _ hbare => hbare
  | @grow _ _ _ a left right _ ht ha _ h hlt _ ih ih' =>
    intro pos hbegun _
    obtain ⟨hleft, hright, hnext⟩ := hbegun.extended hb hr ht ha h hlt
    refine ih' pos hnext (Match.not_bare_dress fun _ hbare => ?_)
    rcases hbare.of_append with ⟨_, hnil⟩ | ⟨hnil, _⟩
    · exact hright hnil
    · exact hleft (List.map_eq_nil_iff.1 hnil)
  | @rule key _ a seed m ht ha h h' ih ih' =>
    obtain ⟨hoffers, _⟩ := hb.offers_seed ht ha
    cases hhidden : Match.isHidden key.rule with
    | false => exact Match.not_bare_finish m hhidden
    | true =>
      have hseed := not_bare_seed hs hoffers (Or.inl hhidden) (ih hoffers.knows)
      rw [Match.finish_of_hidden m hhidden]
      exact ih' _ (begun_seed hb hr hoffers h) hseed

end Session

end LayeredGrammar
