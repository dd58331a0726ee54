/-!
# Sets of terminal sequences

The ambiguity analysis looks two terminals ahead. A terminal is shown by its label (a token by its
name, a literal by its text in single quotes), a sequence is a list of labels, and a set of
sequences is kept as a strictly increasing list, so equal sets are equal values.

`concat` joins two sets and cuts every result to the lookahead.
-/

namespace LayeredGrammar

/-- The label of a terminal. -/
abbrev Terminal := String

/-- Terminals one after another. -/
abbrev Sequence := List Terminal

/-- How many terminals the analysis looks ahead. -/
def lookahead : Nat := 2

/-- A finite set of sequences, listed in increasing order. -/
structure SequenceSet where
  toList : List Sequence
  sorted : toList.Pairwise (· < ·)
  deriving DecidableEq

namespace SequenceSet

/-! ## Merging increasing lists -/

/-- Merge a list that starts with `x` and goes on so that `tail` merges its rest. -/
def mergeFrom (x : Sequence) (whole : List Sequence) (tail : List Sequence → List Sequence) :
    List Sequence → List Sequence
  | [] => whole
  | y :: ys =>
    if x < y then x :: tail (y :: ys)
    else if x = y then x :: tail ys
    else y :: mergeFrom x whole tail ys

/-- The union of two increasing lists. -/
def merge : List Sequence → List Sequence → List Sequence
  | [], ys => ys
  | x :: xs, ys => mergeFrom x (x :: xs) (merge xs) ys

theorem mem_mergeFrom {a x : Sequence} {xs : List Sequence} {tail : List Sequence → List Sequence}
    (htail : ∀ ys, a ∈ tail ys ↔ a ∈ xs ∨ a ∈ ys) (ys : List Sequence) :
    a ∈ mergeFrom x (x :: xs) tail ys ↔ a ∈ x :: xs ∨ a ∈ ys := by
  induction ys with
  | nil => simp [mergeFrom]
  | cons y ys ih =>
    simp only [mergeFrom]
    split
    · rw [List.mem_cons, htail, List.mem_cons, List.mem_cons, or_assoc]
    · split
      next h =>
        subst h
        rw [List.mem_cons, htail, List.mem_cons, List.mem_cons]
        grind
      · rw [List.mem_cons, ih, List.mem_cons, List.mem_cons]
        grind

theorem mem_merge {a : Sequence} (xs ys : List Sequence) :
    a ∈ merge xs ys ↔ a ∈ xs ∨ a ∈ ys := by
  induction xs generalizing ys with
  | nil => simp [merge]
  | cons x xs ih => exact mem_mergeFrom ih ys

theorem sorted_mergeFrom {x : Sequence} {xs : List Sequence}
    {tail : List Sequence → List Sequence} (hx : (x :: xs).Pairwise (· < ·))
    (hmem : ∀ a ys, a ∈ tail ys ↔ a ∈ xs ∨ a ∈ ys)
    (hsort : ∀ ys : List Sequence, ys.Pairwise (· < ·) → (tail ys).Pairwise (· < ·))
    (ys : List Sequence) (hys : ys.Pairwise (· < ·)) :
    (mergeFrom x (x :: xs) tail ys).Pairwise (· < ·) := by
  have hlt : ∀ a ∈ xs, x < a := (List.pairwise_cons.1 hx).1
  induction ys with
  | nil => simpa [mergeFrom] using hx
  | cons y ys ih =>
    have hy : ∀ a ∈ ys, y < a := (List.pairwise_cons.1 hys).1
    have hys' := (List.pairwise_cons.1 hys).2
    simp only [mergeFrom]
    split
    next hxy =>
      refine List.pairwise_cons.2 ⟨fun a ha => ?_, hsort _ hys⟩
      rcases (hmem a _).1 ha with h | h
      · exact hlt a h
      · rcases List.mem_cons.1 h with rfl | h
        · exact hxy
        · exact List.lt_trans hxy (hy a h)
    next hxy =>
      split
      next heq =>
        subst heq
        refine List.pairwise_cons.2 ⟨fun a ha => ?_, hsort _ hys'⟩
        rcases (hmem a _).1 ha with h | h
        · exact hlt a h
        · exact hy a h
      next hne =>
        have hyx : y < x := by
          rcases Std.lt_trichotomy x y with h | h | h
          · exact absurd h hxy
          · exact absurd h hne
          · exact h
        refine List.pairwise_cons.2 ⟨fun a ha => ?_, ih hys'⟩
        rcases (mem_mergeFrom (hmem a) ys).1 ha with h | h
        · rcases List.mem_cons.1 h with rfl | h
          · exact hyx
          · exact List.lt_trans hyx (hlt a h)
        · exact hy a h

theorem sorted_merge (xs ys : List Sequence) (hxs : xs.Pairwise (· < ·))
    (hys : ys.Pairwise (· < ·)) : (merge xs ys).Pairwise (· < ·) := by
  induction xs generalizing ys with
  | nil => simpa [merge] using hys
  | cons x xs ih =>
    exact sorted_mergeFrom hxs (fun a ys => mem_merge xs ys)
      (fun ys h => ih ys (List.pairwise_cons.1 hxs).2 h) ys hys

/-! ## Operations -/

instance : Membership Sequence SequenceSet := ⟨fun s a => a ∈ s.toList⟩

instance (a : Sequence) (s : SequenceSet) : Decidable (a ∈ s) :=
  inferInstanceAs (Decidable (a ∈ s.toList))

theorem mem_def {a : Sequence} {s : SequenceSet} : a ∈ s ↔ a ∈ s.toList := Iff.rfl

/-- The set without sequences. -/
def empty : SequenceSet := ⟨[], .nil⟩

/-- The set of one sequence. -/
def singleton (a : Sequence) : SequenceSet := ⟨[a], List.pairwise_singleton _ _⟩

/-- The union of two sets. -/
def union (s t : SequenceSet) : SequenceSet :=
  ⟨merge s.toList t.toList, sorted_merge _ _ s.sorted t.sorted⟩

/-- A set with one more sequence. -/
def insert (a : Sequence) (s : SequenceSet) : SequenceSet := (singleton a).union s

/-- The set of the sequences of a list. -/
def ofList (l : List Sequence) : SequenceSet := l.foldr insert empty

/-- The sequences that pass a test. -/
def filter (p : Sequence → Bool) (s : SequenceSet) : SequenceSet :=
  ⟨s.toList.filter p, s.sorted.filter p⟩

@[simp] theorem not_mem_empty (a : Sequence) : ¬a ∈ empty := by simp [mem_def, empty]

@[simp] theorem mem_singleton {a b : Sequence} : a ∈ singleton b ↔ a = b := by
  simp [mem_def, singleton]

@[simp] theorem mem_union {a : Sequence} {s t : SequenceSet} : a ∈ s.union t ↔ a ∈ s ∨ a ∈ t :=
  mem_merge _ _

@[simp] theorem mem_insert {a b : Sequence} {s : SequenceSet} : a ∈ s.insert b ↔ a = b ∨ a ∈ s := by
  simp [insert]

@[simp] theorem mem_ofList {a : Sequence} {l : List Sequence} : a ∈ ofList l ↔ a ∈ l := by
  induction l with
  | nil => simp [ofList]
  | cons b l ih =>
    have : ofList (b :: l) = (ofList l).insert b := rfl
    simp [this, ih]

@[simp] theorem mem_filter {a : Sequence} {p : Sequence → Bool} {s : SequenceSet} :
    a ∈ s.filter p ↔ a ∈ s ∧ p a = true := by
  simp [mem_def, filter]

/-- Two sets with the same members are equal. -/
theorem ext_mem {s t : SequenceSet} (h : ∀ a, a ∈ s ↔ a ∈ t) : s = t := by
  have : s.toList = t.toList := by
    refine List.Perm.eq_of_pairwise (fun a b _ _ hab hba => ?_) s.sorted t.sorted ?_
    · exact absurd (List.lt_trans hab hba) (List.lt_irrefl _)
    · refine (List.perm_ext_iff_of_nodup ?_ ?_).2 fun a => h a
      · exact s.sorted.imp fun hab => Std.ne_of_lt hab
      · exact t.sorted.imp fun hab => Std.ne_of_lt hab
  cases s
  cases t
  simp_all

/-! ## Concatenation -/

/-- Whether a sequence reaches the lookahead. -/
def isFull (a : Sequence) : Bool := lookahead ≤ a.length

/-- A sequence followed by each sequence of a set, cut to the lookahead. -/
def extendBy (s : SequenceSet) (a : Sequence) : SequenceSet :=
  ofList (s.toList.map fun b => (a ++ b).take lookahead)

/-- Each sequence of a set followed by each of another, cut to the lookahead; a sequence that
reaches the lookahead stays as it is. -/
def concat (s t : SequenceSet) : SequenceSet :=
  (s.toList.filter (!isFull ·)).foldr (fun a acc => (t.extendBy a).union acc) (s.filter isFull)

/-- A set without the empty sequence. -/
def nonempty (s : SequenceSet) : SequenceSet := s.filter (!·.isEmpty)

/-- Whether every sequence reaches the lookahead. -/
def allFull (s : SequenceSet) : Bool := s.toList.all isFull

theorem mem_extendBy {a b : Sequence} {s : SequenceSet} :
    a ∈ s.extendBy b ↔ ∃ y ∈ s, a = (b ++ y).take lookahead := by
  rw [extendBy, mem_ofList, List.mem_map]
  simp only [mem_def, eq_comm]

theorem mem_concat {a : Sequence} {s t : SequenceSet} :
    a ∈ s.concat t ↔
      (a ∈ s ∧ isFull a = true) ∨
        ∃ x ∈ s, isFull x = false ∧ ∃ y ∈ t, a = (x ++ y).take lookahead := by
  have fold (l : List Sequence) (acc : SequenceSet) :
      a ∈ l.foldr (fun x acc => (t.extendBy x).union acc) acc ↔
        a ∈ acc ∨ ∃ x ∈ l, ∃ y ∈ t, a = (x ++ y).take lookahead := by
    induction l with
    | nil => simp
    | cons x l ih =>
      rw [List.foldr_cons, mem_union, ih, mem_extendBy]
      simp only [List.mem_cons, exists_eq_or_imp]
      grind
  rw [concat, fold, mem_filter]
  simp only [List.mem_filter, Bool.not_eq_true', and_assoc, ← mem_def]

end SequenceSet

end LayeredGrammar
