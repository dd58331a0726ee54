import LayeredGrammar.Proofs.Grammar.Alternatives

/-!
# Where productions can begin

Two approximations that can be computed from the text of a grammar:

* `Production.mayBeEmpty` — whether a production can match without taking in any text, given the
  rules that can.
* `Production.corners` — the names a production can refer to before it has taken in any text.

`ParseTable.Ranked` is a certificate that no rule comes back to itself before text is taken in: a
rank for each name that falls from a rule to its corners. Alternatives that start with the rule
itself are exempt, since they come into play only after a match; they must not belong to a rule that
can be empty.
-/

namespace LayeredGrammar

namespace Production

mutual

/-- Whether a production can match without taking in any text, if the given rules can. -/
def mayBeEmpty (empties : List String) : Production → Bool
  | .lit _ => false
  | .ref name => empties.contains name
  | .seq items => allMayBeEmpty empties items
  | .choice members => someMayBeEmpty empties members
  | .rep _ least _ => decide (least ≤ 0)
  | .opt _ => true
  | .blank => true
  | .field _ p => mayBeEmpty empties p
  | .renamed p _ => mayBeEmpty empties p
  | .prec _ p _ _ => mayBeEmpty empties p

/-- Whether all of several productions can match without taking in any text. -/
def allMayBeEmpty (empties : List String) : List Production → Bool
  | [] => true
  | p :: ps => mayBeEmpty empties p && allMayBeEmpty empties ps

/-- Whether one of several productions can match without taking in any text. -/
def someMayBeEmpty (empties : List String) : List Production → Bool
  | [] => false
  | p :: ps => mayBeEmpty empties p || someMayBeEmpty empties ps

end

mutual

/-- The names a production can refer to before it has taken in any text. -/
def corners (empties : List String) : Production → List String
  | .lit _ => []
  | .ref name => [name]
  | .seq items => cornersInRow empties items
  | .choice members => cornersOfAll empties members
  | .rep p _ _ => corners empties p
  | .opt p => corners empties p
  | .blank => []
  | .field _ p => corners empties p
  | .renamed p _ => corners empties p
  | .prec _ p _ _ => corners empties p

/-- The names a sequence can refer to before it has taken in any text. -/
def cornersInRow (empties : List String) : List Production → List String
  | [] => []
  | p :: ps =>
    corners empties p ++ if mayBeEmpty empties p then cornersInRow empties ps else []

/-- The names one of several productions can refer to before it has taken in any text. -/
def cornersOfAll (empties : List String) : List Production → List String
  | [] => []
  | p :: ps => corners empties p ++ cornersOfAll empties ps

end

variable {empties : List String}

theorem mayBeEmpty_of_mem {p : Production} {ps : List Production} (hp : p ∈ ps)
    (h : someMayBeEmpty empties ps = false) : p.mayBeEmpty empties = false := by
  induction ps with
  | nil => cases hp
  | cons q ps ih =>
    rw [someMayBeEmpty, Bool.or_eq_false_iff] at h
    rcases List.mem_cons.1 hp with rfl | hp
    · exact h.1
    · exact ih hp h.2

theorem corners_subset_ofAll {p : Production} {ps : List Production} (hp : p ∈ ps) {n : String}
    (hn : n ∈ p.corners empties) : n ∈ cornersOfAll empties ps := by
  induction ps with
  | nil => cases hp
  | cons q ps ih =>
    rw [cornersOfAll, List.mem_append]
    rcases List.mem_cons.1 hp with rfl | hp
    · exact Or.inl hn
    · exact Or.inr (ih hp)

/-- Field names do not matter for emptiness and corners. -/
theorem unfield_same (p : Production) : p.unfield.2.mayBeEmpty empties = p.mayBeEmpty empties ∧
    p.unfield.2.corners empties = p.corners empties := by
  induction p using Production.unfield.induct with
  | case1 name p ih => exact ih
  | case2 p hp =>
    cases p with
    | field name p => exact absurd rfl (hp name p)
    | _ => exact ⟨rfl, rfl⟩

end Production

/-! ## Alternatives -/

namespace Alternative

variable {empties : List String} {rule : String} {p : Production} {index : Nat} {layered : Bool}

theorem mayBeEmpty_spine :
    (ofProduction rule index layered p).spine.mayBeEmpty empties = p.mayBeEmpty empties :=
  spine_transport (·.mayBeEmpty empties) (fun q => Bool.and_true (q.mayBeEmpty empties))
    (fun _ _ => rfl) fun _ _ _ _ => rfl

theorem corners_spine :
    (ofProduction rule index layered p).spine.corners empties = p.corners empties := by
  refine spine_transport (·.corners empties) ?_ (fun _ _ => rfl) fun _ _ _ _ => rfl
  intro q
  show q.corners empties ++ (if q.mayBeEmpty empties then [] else []) = _
  rw [ite_self, List.append_nil]

end Alternative

/-! ## Certificates -/

/-- What a certificate says about an alternative of a rule. -/
def Production.isRanked (empties : List String) (rank : String → Nat) (rule : String)
    (p : Production) : Bool :=
  let growing := (Alternative.ofProduction rule 0 false p).startsWithSelf
  (empties.contains rule || !p.mayBeEmpty empties) &&
    if growing then !empties.contains rule
    else (p.corners empties).all fun n => rank n < rank rule

/-- The alternatives of a table take in text, unless their rule is listed as one that may be empty,
and their corners have a smaller rank than the rule. -/
def ParseTable.Ranked (t : ParseTable) (empties : List String) (rank : String → Nat) : Prop :=
  ∀ rule body p, t.grammar.rules.get? rule = some body → p ∈ body.alternatives →
    p.isRanked empties rank rule = true

namespace ParseTable.Ranked

variable {t : ParseTable} {empties : List String} {rank : String → Nat} {rule : String}
  {a : Alternative}

theorem mayBeEmpty_spine (h : t.Ranked empties rank) (ha : t.Offers rule a)
    (hrule : rule ∉ empties) : a.spine.mayBeEmpty empties = false := by
  obtain ⟨body, index, layered, p, hb, hp, rfl⟩ := ha
  have hranked := h rule body p hb hp
  unfold Production.isRanked at hranked
  rw [Bool.and_eq_true, Bool.or_eq_true] at hranked
  rw [Alternative.mayBeEmpty_spine]
  rcases hranked.1 with he | he
  · exact absurd (List.contains_iff_mem.1 he) hrule
  · simpa using he

theorem startsWithSelf_eq (index : Nat) (layered : Bool) (p : Production) :
    (Alternative.ofProduction rule index layered p).startsWithSelf =
      (Alternative.ofProduction rule 0 false p).startsWithSelf := rfl

theorem not_empty_of_growing (h : t.Ranked empties rank) (ha : t.Offers rule a)
    (hs : a.startsWithSelf = true) : rule ∉ empties := by
  obtain ⟨body, index, layered, p, hb, hp, rfl⟩ := ha
  have hranked := h rule body p hb hp
  unfold Production.isRanked at hranked
  rw [startsWithSelf_eq] at hs
  simp only [hs, if_true, Bool.and_eq_true] at hranked
  intro hmem
  simp [hmem] at hranked

theorem rank_lt (h : t.Ranked empties rank) (ha : t.Offers rule a)
    (hs : a.startsWithSelf = false) {n : String} (hn : n ∈ a.spine.corners empties) :
    rank n < rank rule := by
  obtain ⟨body, index, layered, p, hb, hp, rfl⟩ := ha
  have hranked := h rule body p hb hp
  unfold Production.isRanked at hranked
  rw [startsWithSelf_eq] at hs
  simp only [hs, Bool.and_eq_true] at hranked
  rw [Alternative.corners_spine] at hn
  simpa using List.all_eq_true.1 hranked.2 n hn

end ParseTable.Ranked

end LayeredGrammar
