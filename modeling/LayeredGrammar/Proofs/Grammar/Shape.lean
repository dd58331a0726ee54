import LayeredGrammar.Engine.Match
import LayeredGrammar.Proofs.Grammar.Corners

/-!
# What productions leave behind

Two approximations of the nodes a production makes, computed from the text of a grammar:

* `Production.Solid` — everything below a production that is renamed or referred to takes in text,
  so no node is made around nothing.
* `Production.mayBeBare` — whether a production can leave a single literal and nothing else. A rule
  with a node of its own makes one leaf of that; the start rule, whose node gives way to its
  children, would lose it.

`ParseTable.Shaped` is the certificate for a whole table: all alternatives are solid, rules that
may be empty make no node around what may be nothing, and neither these rules nor those without a
node of their own leave a bare literal.
-/

namespace LayeredGrammar

namespace Production

/-! ## Solid productions -/

/-- Whether a production makes no node around what the given rules can leave empty; what is below it
is left aside. -/
def isFirm (empties : List String) : Production → Bool
  | .ref name => !empties.contains name
  | .renamed p _ => !p.mayBeEmpty empties
  | _ => true

/-- A production that makes no node around nothing, all the way down. -/
def Solid (empties : List String) (p : Production) : Prop :=
  ∀ q ∈ p.walk, q.isFirm empties = true

variable {empties : List String} {p : Production}

theorem Solid.inside {content : Production} (h : p.Solid empties)
    (hwalk : p.walk = p :: content.walk) : content.Solid empties :=
  fun q hq => h q (hwalk ▸ List.mem_cons_of_mem _ hq)

theorem Solid.of_ref {name : String} (h : (ref name).Solid empties) : name ∉ empties := by
  have hfirm := h (.ref name) List.mem_cons_self
  simpa [isFirm] using hfirm

theorem Solid.of_renamed {kind : String} (h : (renamed p kind).Solid empties) :
    p.mayBeEmpty empties = false ∧ p.Solid empties := by
  refine ⟨?_, h.inside rfl⟩
  have hfirm := h (.renamed p kind) List.mem_cons_self
  simpa [isFirm] using hfirm

theorem Solid.of_seq {ps : List Production} (h : (seq ps).Solid empties) :
    ∀ p ∈ ps, p.Solid empties :=
  fun p hp q hq => h q (List.mem_cons_of_mem _ (mem_walkAll.2 ⟨p, hp, hq⟩))

theorem Solid.of_choice {ps : List Production} (h : (choice ps).Solid empties) :
    ∀ p ∈ ps, p.Solid empties :=
  fun p hp q hq => h q (List.mem_cons_of_mem _ (mem_walkAll.2 ⟨p, hp, hq⟩))

/-- A solid production is solid without its field names too. -/
theorem Solid.unfield (h : p.Solid empties) : p.unfield.2.Solid empties := by
  induction p using Production.unfield.induct with
  | case1 name p ih => exact ih (h.inside rfl)
  | case2 p hp =>
    cases p with
    | field name p => exact absurd rfl (hp name p)
    | _ => exact h

/-! ## Bare literals -/

mutual

/-- Whether a production can leave one literal and nothing else, if no rule does. -/
def mayBeBare (empties : List String) : Production → Bool
  | .lit _ => true
  | .ref _ => false
  | .seq items => bareInRow empties items
  | .choice members => someMayBeBare empties members
  | .rep p _ _ => mayBeBare empties p
  | .opt p => mayBeBare empties p
  | .blank => false
  | .field _ p => mayBeBare empties p
  | .renamed _ _ => false
  | .prec _ p _ _ => mayBeBare empties p

/-- Whether productions in a row can leave one literal and nothing else. -/
def bareInRow (empties : List String) : List Production → Bool
  | [] => false
  | p :: ps =>
    mayBeBare empties p && allMayBeEmpty empties ps || mayBeEmpty empties p && bareInRow empties ps

/-- Whether one of several productions can leave one literal and nothing else. -/
def someMayBeBare (empties : List String) : List Production → Bool
  | [] => false
  | p :: ps => mayBeBare empties p || someMayBeBare empties ps

end

theorem mayBeBare_of_mem {ps : List Production} (hp : p ∈ ps)
    (h : someMayBeBare empties ps = false) : p.mayBeBare empties = false := by
  induction ps with
  | nil => cases hp
  | cons q ps ih =>
    rw [someMayBeBare, Bool.or_eq_false_iff] at h
    rcases List.mem_cons.1 hp with rfl | hp
    · exact h.1
    · exact ih hp h.2

end Production

/-! ## Certificates -/

/-- What a certificate says about an alternative of a rule. -/
def Alternative.isShaped (empties : List String) (rule : String) (a : Alternative) : Bool :=
  a.spine.walk.all (·.isFirm empties) && !(empties.contains rule && a.kind.isSome) &&
    (!a.spine.mayBeBare empties || a.kind.isSome ||
      !(Match.isHidden rule || empties.contains rule))

/-- The alternatives of a table are solid, and leave no bare literal where nothing would be made
of it. -/
def ParseTable.Shaped (t : ParseTable) (empties : List String) : Prop :=
  ∀ rule body p, t.grammar.rules.get? rule = some body → p ∈ body.alternatives →
    (Alternative.ofProduction rule 0 false p).isShaped empties rule = true

namespace ParseTable.Shaped

variable {t : ParseTable} {empties : List String} {rule : String} {a : Alternative}

theorem isShaped (h : t.Shaped empties) (ha : t.Offers rule a) :
    a.isShaped empties rule = true := by
  obtain ⟨body, index, layered, p, hb, hp, rfl⟩ := ha
  exact h rule body p hb hp

theorem solid (h : t.Shaped empties) (ha : t.Offers rule a) : a.spine.Solid empties := by
  have hshaped := h.isShaped ha
  simp only [Alternative.isShaped, Bool.and_eq_true] at hshaped
  exact List.all_eq_true.1 hshaped.1.1

theorem kind_eq_none (h : t.Shaped empties) (ha : t.Offers rule a) (hrule : rule ∈ empties) :
    a.kind = none := by
  have hshaped := h.isShaped ha
  simp only [Alternative.isShaped, Bool.and_eq_true] at hshaped
  simpa [hrule] using hshaped.1.2

theorem mayBeBare_eq_false (h : t.Shaped empties) (ha : t.Offers rule a)
    (hrule : Match.isHidden rule = true ∨ rule ∈ empties) (hkind : a.kind = none) :
    a.spine.mayBeBare empties = false := by
  have hshaped := h.isShaped ha
  simp only [Alternative.isShaped, Bool.and_eq_true] at hshaped
  rcases hrule with hrule | hrule <;> simpa [hrule, hkind] using hshaped.2

end ParseTable.Shaped

end LayeredGrammar
