/-!
# Collections of names

Sets of names are shown in code point order without repeats. Tables keyed by names keep the order
in which their entries were made; the first entry of a name counts. `sortBy` sorts any list by a
test and keeps the order of elements that the test does not tell apart.
-/

namespace LayeredGrammar

/-! ## Sorting -/

/-- Put an element before the first one it may precede. -/
def insertBy {α : Type} (le : α → α → Bool) (a : α) : List α → List α
  | [] => [a]
  | b :: bs => if le a b then a :: b :: bs else b :: insertBy le a bs

/-- A list in order. -/
def sortBy {α : Type} (le : α → α → Bool) (l : List α) : List α := l.foldr (insertBy le) []

/-- Put a name at its place in an increasing list, unless it is there. -/
def insertName (name : String) : List String → List String
  | [] => [name]
  | n :: ns =>
    if name = n then n :: ns
    else if name < n then name :: n :: ns
    else n :: insertName name ns

/-- The distinct names of a list, in order. -/
def sortedNames (names : List String) : List String := names.foldr insertName []

theorem mem_insertBy {α : Type} {le : α → α → Bool} {a b : α} {l : List α} :
    b ∈ insertBy le a l ↔ b = a ∨ b ∈ l := by
  induction l with
  | nil => simp [insertBy]
  | cons c l ih =>
    simp only [insertBy]
    split
    · rw [List.mem_cons]
    · rw [List.mem_cons, ih, List.mem_cons]
      grind

theorem mem_sortBy {α : Type} {le : α → α → Bool} {b : α} {l : List α} :
    b ∈ sortBy le l ↔ b ∈ l := by
  induction l with
  | nil => simp [sortBy]
  | cons a l ih =>
    have : sortBy le (a :: l) = insertBy le a (sortBy le l) := rfl
    rw [this, mem_insertBy, ih, List.mem_cons]

/-- A sorted list is in order by every transitive relation that the test decides. -/
theorem pairwise_sortBy {α : Type} {le : α → α → Bool} {r : α → α → Prop}
    (hle : ∀ a b, le a b = true → r a b) (hgt : ∀ a b, le a b = false → r b a)
    (htrans : ∀ a b c, r a b → r b c → r a c) (l : List α) : (sortBy le l).Pairwise r := by
  have hinsert : ∀ (a : α) (l : List α), l.Pairwise r → (insertBy le a l).Pairwise r := by
    intro a l h
    induction l with
    | nil => exact List.pairwise_singleton r a
    | cons b l ih =>
      obtain ⟨hb, hl⟩ := List.pairwise_cons.1 h
      simp only [insertBy]
      split
      · rename_i hab
        refine List.pairwise_cons.2 ⟨?_, h⟩
        intro c hc
        rcases List.mem_cons.1 hc with rfl | hc
        · exact hle a _ hab
        · exact htrans a b c (hle a b hab) (hb c hc)
      · rename_i hab
        refine List.pairwise_cons.2 ⟨?_, ih hl⟩
        intro c hc
        rcases mem_insertBy.1 hc with rfl | hc
        · exact hgt _ b (by simpa using hab)
        · exact hb c hc
  induction l with
  | nil => exact .nil
  | cons a l ih => exact hinsert a _ ih

theorem mem_insertName {a b : String} {l : List String} :
    b ∈ insertName a l ↔ b = a ∨ b ∈ l := by
  induction l with
  | nil => simp [insertName]
  | cons c l ih =>
    simp only [insertName]
    split
    next h =>
      subst h
      simp
    next =>
      split
      · rw [List.mem_cons]
      · rw [List.mem_cons, ih, List.mem_cons]
        grind

theorem mem_sortedNames {b : String} {l : List String} : b ∈ sortedNames l ↔ b ∈ l := by
  induction l with
  | nil => simp [sortedNames]
  | cons a l ih =>
    have : sortedNames (a :: l) = insertName a (sortedNames l) := rfl
    rw [this, mem_insertName, ih, List.mem_cons]

/-! ## Tables -/

/-- Entries by name, in the order in which they were made. -/
abbrev NameTable (α : Type) := List (String × α)

namespace NameTable

variable {α : Type}

/-- The names of the entries, in order. -/
def names (t : NameTable α) : List String := t.map (·.1)

/-- Whether a name has an entry. -/
def has (t : NameTable α) (name : String) : Bool := t.any (·.1 == name)

/-- The entry of a name. -/
def get? (t : NameTable α) (name : String) : Option α := t.lookup name

/-- Give a name an entry: in place if it has one, else at the end. -/
def set (t : NameTable α) (name : String) (a : α) : NameTable α :=
  match t with
  | [] => [(name, a)]
  | (n, b) :: rest => if n = name then (n, a) :: rest else (n, b) :: NameTable.set rest name a

/-- A table of entries, where a later entry of a name takes the place of an earlier one. -/
def ofEntries (entries : List (String × α)) : NameTable α :=
  entries.foldl (fun t e => t.set e.1 e.2) []

theorem has_iff {t : NameTable α} {name : String} : t.has name = true ↔ name ∈ t.names := by
  unfold has names
  rw [List.any_eq_true, List.mem_map]
  exact ⟨fun ⟨e, he, h⟩ => ⟨e, he, by simpa using h⟩, fun ⟨e, he, h⟩ => ⟨e, he, by simpa using h⟩⟩

theorem has_eq_false {t : NameTable α} {name : String} : t.has name = false ↔ name ∉ t.names := by
  rw [← Bool.not_eq_true, has_iff]

theorem mem_of_get? {t : NameTable α} {name : String} {a : α} (h : t.get? name = some a) :
    (name, a) ∈ t := by
  unfold get? at h
  induction t with
  | nil => cases h
  | cons e t ih =>
    obtain ⟨n, b⟩ := e
    rw [List.lookup_cons] at h
    split at h
    · rename_i hn
      cases h
      rw [beq_iff_eq.1 hn]
      exact List.mem_cons_self
    · exact List.mem_cons_of_mem _ (ih h)

theorem mem_names_of_get? {t : NameTable α} {name : String} {a : α} (h : t.get? name = some a) :
    name ∈ t.names :=
  List.mem_map.2 ⟨_, mem_of_get? h, rfl⟩

theorem get?_eq_none {t : NameTable α} {name : String} :
    t.get? name = none ↔ name ∉ t.names := by
  unfold get? names
  induction t with
  | nil => simp
  | cons e t ih =>
    obtain ⟨n, b⟩ := e
    rw [List.lookup_cons, List.map_cons, List.mem_cons, not_or, ← ih]
    split
    · rename_i hn
      exact ⟨nofun, fun h => absurd (beq_iff_eq.1 hn) h.1⟩
    · rename_i hn
      exact ⟨fun h => ⟨fun he => by simp [he] at hn, h⟩, fun h => h.2⟩

theorem mem_set {t : NameTable α} {name : String} {a : α} {e : String × α} (h : e ∈ t.set name a) :
    e = (name, a) ∨ e ∈ t := by
  induction t with
  | nil => exact Or.inl (List.mem_singleton.1 h)
  | cons b t ih =>
    obtain ⟨n, b⟩ := b
    simp only [set] at h
    split at h
    · rename_i hn
      rcases List.mem_cons.1 h with h | h
      · exact Or.inl (hn ▸ h)
      · exact Or.inr (List.mem_cons_of_mem _ h)
    · rcases List.mem_cons.1 h with h | h
      · exact Or.inr (h ▸ List.mem_cons_self)
      · exact (ih h).imp id (List.mem_cons_of_mem _)

theorem mem_names_set {t : NameTable α} {name n : String} {a : α} :
    n ∈ (t.set name a).names ↔ n = name ∨ n ∈ t.names := by
  unfold names
  induction t with
  | nil => simp [set]
  | cons b t ih =>
    obtain ⟨k, b⟩ := b
    simp only [set]
    split
    · rename_i hk
      subst hk
      simp
    · rw [List.map_cons, List.mem_cons, ih, List.map_cons, List.mem_cons]
      exact ⟨fun h => by rcases h with h | h | h <;> simp [h],
        fun h => by rcases h with h | h | h <;> simp [h]⟩

theorem get?_cons (k n : String) (b : α) (t : NameTable α) :
    NameTable.get? ((k, b) :: t) n = if n = k then some b else NameTable.get? t n := by
  unfold get?
  rw [List.lookup_cons]
  by_cases hn : n = k
  · rw [hn, beq_self_eq_true, if_pos rfl]
  · rw [beq_false_of_ne hn, if_neg hn]

theorem get?_set (t : NameTable α) (name n : String) (a : α) :
    (t.set name a).get? n = if n = name then some a else t.get? n := by
  induction t with
  | nil => exact get?_cons name n a []
  | cons e t ih =>
    obtain ⟨k, b⟩ := e
    simp only [set]
    by_cases hk : k = name
    · subst hk
      rw [if_pos rfl, get?_cons, get?_cons]
      by_cases hn : n = k
      · rw [if_pos hn, if_pos hn]
      · rw [if_neg hn, if_neg hn, if_neg hn]
    · rw [if_neg hk, get?_cons, get?_cons, ih]
      by_cases hn : n = k
      · rw [if_pos hn, if_pos hn, if_neg fun h => hk (hn ▸ h)]
      · rw [if_neg hn, if_neg hn]

theorem nodup_names_set {t : NameTable α} (h : t.names.Nodup) (name : String) (a : α) :
    (t.set name a).names.Nodup := by
  induction t with
  | nil => exact List.nodup_cons.2 ⟨nofun, .nil⟩
  | cons e t ih =>
    obtain ⟨k, b⟩ := e
    obtain ⟨hk, ht⟩ := List.nodup_cons.1 h
    simp only [set]
    by_cases hn : k = name
    · rw [if_pos hn]
      exact h
    · rw [if_neg hn]
      refine List.nodup_cons.2 ⟨fun hmem => ?_, ih ht⟩
      rcases mem_names_set.1 hmem with heq | hmem
      · exact hn heq
      · exact hk hmem

/-- In a table without repeated names every entry counts. -/
theorem get?_of_mem {t : NameTable α} (h : t.names.Nodup) {name : String} {a : α}
    (hmem : (name, a) ∈ t) : t.get? name = some a := by
  induction t with
  | nil => cases hmem
  | cons e t ih =>
    obtain ⟨k, b⟩ := e
    obtain ⟨hk, ht⟩ := List.nodup_cons.1 h
    rw [get?_cons]
    rcases List.mem_cons.1 hmem with heq | hmem
    · cases heq
      rw [if_pos rfl]
    · have hne : name ≠ k := fun heq => hk (heq ▸ List.mem_map.2 ⟨_, hmem, rfl⟩)
      rw [if_neg hne]
      exact ih ht hmem

/-- An entry of a table whose values were made from those of another. -/
theorem get?_map {β : Type} (t : NameTable α) (f : String → α → β) (name : String) :
    NameTable.get? (t.map fun e => (e.1, f e.1 e.2)) name = (t.get? name).map (f name) := by
  unfold get?
  induction t with
  | nil => rfl
  | cons e t ih =>
    obtain ⟨n, b⟩ := e
    simp only [List.map_cons, List.lookup_cons]
    by_cases hn : name = n
    · subst hn
      simp
    · rw [beq_false_of_ne hn]
      exact ih

end NameTable

end LayeredGrammar
