import LayeredGrammar.Proofs.Analysis.Beginnings
import Mathlib.Algebra.Group.Action.Defs
import Mathlib.Algebra.Order.BigOperators.Group.List
import Mathlib.Algebra.Order.Ring.Nat
import Mathlib.Data.List.Nodup

/-!
# First sets settle

The sweeps over the rules of a grammar end with first sets that no update changes
(`FirstSets.settled_ofRules`), so their limit is never the reason to stop.

Three facts make it so. First sets grow with the sets of the rules (`FirstSets.Below.first`). An
update therefore changes nothing or makes the table larger (`FirstSets.Rising.update_eq_or_lt`). And
the table stays small: its sequences are short and made of the labels in the rules
(`FirstSets.Rising.size_lt`).
-/

namespace LayeredGrammar

/-! ## Labels -/

namespace Production

/-- The labels of the names and literals in a production. -/
def labels (p : Production) : List Terminal := p.references ++ p.literals.map litTerminal

theorem labels_of_child {p q : Production} (h : q ∈ p.children) : q.labels ⊆ p.labels := by
  have hwalk := walk_of_child h
  refine List.append_subset.2 ⟨?_, ?_⟩
  · exact List.Subset.trans (List.filterMap_subset _ hwalk) (List.subset_append_left _ _)
  · have hliterals := List.map_subset litTerminal (List.filterMap_subset litValue? hwalk)
    exact List.Subset.trans hliterals (List.subset_append_right _ _)

end Production

/-! ## Sets of short sequences -/

namespace SequenceSet

variable {s s' t t' : SequenceSet} {a : Sequence}

theorem nodup_toList (s : SequenceSet) : s.toList.Nodup := s.sorted.imp fun h => Std.ne_of_lt h

/-- A larger set has more members, or is the same. -/
theorem eq_or_length_lt (h : ∀ a ∈ s, a ∈ t) : s = t ∨ s.toList.length < t.toList.length := by
  have hsub := List.subperm_of_subset s.nodup_toList h
  rcases Nat.lt_or_ge s.toList.length t.toList.length with hlt | hge
  · exact Or.inr hlt
  · have hperm := hsub.perm_of_length_le hge
    exact Or.inl (ext_mem fun a => hperm.mem_iff)

theorem concat_mono (hs : ∀ a ∈ s, a ∈ s') (ht : ∀ a ∈ t, a ∈ t') (h : a ∈ s.concat t) :
    a ∈ s'.concat t' := by
  rcases mem_concat.1 h with ⟨ha, hfull⟩ | ⟨x, hx, hfull, y, hy, rfl⟩
  · exact mem_concat.2 (Or.inl ⟨hs a ha, hfull⟩)
  · exact mem_concat.2 (Or.inr ⟨x, hs x hx, hfull, y, ht y hy, rfl⟩)

theorem insert_mono {b : Sequence} (hs : ∀ a ∈ s, a ∈ s') (h : a ∈ s.insert b) :
    a ∈ s'.insert b :=
  mem_insert.2 ((mem_insert.1 h).imp id (hs a))

end SequenceSet

/-- A sequence up to the lookahead of given labels. -/
def Short (labels : List Terminal) (a : Sequence) : Prop :=
  a.length ≤ lookahead ∧ ∀ t ∈ a, t ∈ labels

namespace Short

variable {labels : List Terminal} {a b : Sequence}

theorem nil : Short labels [] := ⟨Nat.zero_le _, nofun⟩

theorem single {t : Terminal} (ht : t ∈ labels) : Short labels [t] :=
  ⟨Nat.le_succ _, List.forall_mem_singleton.2 ht⟩

theorem append (ha : Short labels a) (hb : Short labels b) :
    Short labels ((a ++ b).take lookahead) := by
  refine ⟨List.length_take_le _ _, fun t ht => ?_⟩
  rcases List.mem_append.1 (List.mem_of_mem_take ht) with h | h
  · exact ha.2 t h
  · exact hb.2 t h

/-- All short sequences. -/
def all (labels : List Terminal) : List Sequence :=
  [] :: (labels.map ([·]) ++ labels.flatMap fun t => labels.map fun u => [t, u])

theorem mem_all (h : Short labels a) : a ∈ all labels := by
  obtain ⟨hlen, hmem⟩ := h
  match a, hlen with
  | [], _ => exact List.mem_cons_self
  | [t], _ => simp [all, hmem t]
  | [t, u], _ => simp [all, hmem t, hmem u]
  | _ :: _ :: _ :: _, hlen =>
    simp only [lookahead, List.length_cons] at hlen
    omega

theorem length_all (labels : List Terminal) :
    (all labels).length = 1 + labels.length + labels.length * labels.length := by
  simp only [all, List.length_cons, List.length_append, List.length_map, List.length_flatMap,
    List.map_const', List.sum_replicate, smul_eq_mul]
  omega

theorem concat {s t : SequenceSet} (hs : ∀ a ∈ s, Short labels a) (ht : ∀ a ∈ t, Short labels a)
    (h : a ∈ s.concat t) : Short labels a := by
  rcases SequenceSet.mem_concat.1 h with ⟨ha, _⟩ | ⟨x, hx, _, y, hy, rfl⟩
  · exact hs a ha
  · exact (hs x hx).append (ht y hy)

/-- How many short sequences a set can hold. -/
theorem length_le {s : SequenceSet} (hs : ∀ a ∈ s, Short labels a) :
    s.toList.length ≤ 1 + labels.length + labels.length * labels.length := by
  rw [← length_all]
  exact (List.subperm_of_subset s.nodup_toList fun a ha => (hs a ha).mem_all).length_le

end Short

/-! ## Tables of sets -/

namespace NameTable

variable {α : Type} {t : NameTable α} {name : String} {a b : α}

theorem set_eq_self (h : t.get? name = some a) : t.set name a = t := by
  induction t with
  | nil => cases h
  | cons e t ih =>
    obtain ⟨k, b⟩ := e
    rw [get?_cons] at h
    simp only [set]
    by_cases hk : k = name
    · subst hk
      rw [if_pos rfl] at h ⊢
      rw [Option.some.inj h]
    · rw [if_neg fun hn => hk hn.symm] at h
      rw [if_neg hk, ih h]

theorem names_set (h : name ∈ t.names) : (t.set name a).names = t.names := by
  induction t with
  | nil => cases h
  | cons e t ih =>
    obtain ⟨k, b⟩ := e
    simp only [set]
    by_cases hk : k = name
    · rw [if_pos hk]
      rfl
    · rw [if_neg hk]
      have hmem := (List.mem_cons.1 h).resolve_left fun hn => hk hn.symm
      exact congrArg (k :: ·) (ih hmem)

/-- What an entry adds to a sum, a new one in its place adds instead. -/
theorem sum_set (g : α → Nat) (h : t.get? name = some b) :
    ((t.set name a).map fun e => g e.2).sum + g b = (t.map fun e => g e.2).sum + g a := by
  induction t with
  | nil => cases h
  | cons e t ih =>
    obtain ⟨k, c⟩ := e
    rw [get?_cons] at h
    simp only [set]
    by_cases hk : k = name
    · subst hk
      rw [if_pos rfl] at h ⊢
      cases h
      simp only [List.map_cons, List.sum_cons]
      omega
    · rw [if_neg fun hn => hk hn.symm] at h
      rw [if_neg hk]
      have hsum := ih h
      simp only [List.map_cons, List.sum_cons]
      omega

end NameTable

namespace FirstSets

variable {f g : FirstSets} {a : Sequence} {p : Production} {rules : NameTable Production}

/-! ## Growing -/

/-- Every rule is known to begin as before, and maybe in more ways. -/
structure Below (f g : FirstSets) : Prop where
  tokens : f.tokens = g.tokens
  known : ∀ name, ∀ a ∈ f.known name, a ∈ g.known name

/-- **First sets grow with the sets of the rules.** -/
theorem Below.first (h : f.Below g) (p : Production) : ∀ a ∈ f.first p, a ∈ g.first p := by
  induction p using Production.induction_children with
  | step p ih =>
    intro a ha
    cases p with
    | lit value => rwa [FirstSets.first] at ha ⊢
    | ref name =>
      by_cases hn : name ∈ f.tokens
      · rw [mem_first_token hn] at ha
        exact (mem_first_token (h.tokens ▸ hn)).2 ha
      · rw [mem_first_rule hn] at ha
        exact (mem_first_rule (h.tokens ▸ hn)).2 (h.known name a ha)
    | seq items =>
      have hrow : ∀ (ps : List Production), (∀ p ∈ ps, p ∈ items) → ∀ x a,
          f.Continues ps x a → g.Continues ps x a := by
        intro ps hps x a hx
        induction hx with
        | done => exact .done
        | full hfull => exact .full hfull
        | step hfull hy _ ih' =>
          rw [List.forall_mem_cons] at hps
          exact .step hfull (ih _ hps.1 _ hy) (ih' hps.2)
      exact mem_first_seq.2 (hrow items (fun _ hp => hp) [] a (mem_first_seq.1 ha))
    | choice members =>
      obtain ⟨p, hp, ha⟩ := mem_first_choice.1 ha
      exact mem_first_choice.2 ⟨p, hp, ih p hp a ha⟩
    | rep p least recover =>
      have hp := ih p List.mem_cons_self
      refine mem_first_rep.2 ((mem_first_rep.1 ha).imp id fun ha => ?_)
      exact SequenceSet.concat_mono hp (fun b hb => SequenceSet.insert_mono hp hb) ha
    | opt p => exact mem_first_opt.2 ((mem_first_opt.1 ha).imp id (ih p List.mem_cons_self a))
    | blank => rwa [FirstSets.first] at ha ⊢
    | field _ p | renamed p _ | prec _ p _ _ =>
      rw [FirstSets.first] at ha ⊢
      exact ih p List.mem_cons_self a ha

/-- First sets are short and made of the labels in their production. -/
theorem short_of_mem_first {labels : List Terminal}
    (hknown : ∀ name, ∀ a ∈ f.known name, Short labels a) (p : Production)
    (hp : p.labels ⊆ labels) : ∀ a ∈ f.first p, Short labels a := by
  induction p using Production.induction_children with
  | step p ih =>
    replace ih := fun q hq => ih q hq (List.Subset.trans (Production.labels_of_child hq) hp)
    intro a ha
    cases p with
    | lit value =>
      rw [first, SequenceSet.mem_singleton] at ha
      exact ha ▸ .single (hp (by simp [Production.labels, Production.literals, Production.walk,
        Production.litValue?]))
    | ref name =>
      by_cases hn : name ∈ f.tokens
      · rw [mem_first_token hn] at ha
        exact ha ▸ .single (hp (by simp [Production.labels, Production.references, Production.walk,
          Production.refName?]))
      · exact hknown name a ((mem_first_rule hn).1 ha)
    | seq items =>
      have hrow : ∀ (ps : List Production), (∀ p ∈ ps, p ∈ items) → ∀ x a,
          f.Continues ps x a → Short labels x → Short labels a := by
        intro ps hps x a hx
        induction hx with
        | done => exact id
        | full _ => exact id
        | step _ hy _ ih' =>
          rw [List.forall_mem_cons] at hps
          exact fun hx => ih' hps.2 (hx.append (ih _ hps.1 _ hy))
      exact hrow items (fun _ hp => hp) [] a (mem_first_seq.1 ha) .nil
    | choice members =>
      obtain ⟨q, hq, ha⟩ := mem_first_choice.1 ha
      exact ih q hq a ha
    | rep q least recover =>
      have hq := ih q List.mem_cons_self
      rcases mem_first_rep.1 ha with ⟨_, rfl⟩ | ha
      · exact .nil
      · refine Short.concat hq (fun b hb => ?_) ha
        rcases SequenceSet.mem_insert.1 hb with rfl | hb
        · exact .nil
        · exact hq b hb
    | opt q =>
      rcases mem_first_opt.1 ha with rfl | ha
      · exact .nil
      · exact ih q List.mem_cons_self a ha
    | blank =>
      rw [first, SequenceSet.mem_singleton] at ha
      exact ha ▸ .nil
    | field _ q | renamed q _ | prec _ q _ _ =>
      rw [first] at ha
      exact ih q List.mem_cons_self a ha

/-! ## Sweeping -/

/-- The labels in the bodies of rules. -/
def alphabet (rules : NameTable Production) : List Terminal := rules.flatMap fun r => r.2.labels

/-- First sets on their way: a set for each rule, with short sequences that the body begins with as
far as known. -/
structure Rising (rules : NameTable Production) (f : FirstSets) : Prop where
  names : f.table.names = rules.names
  first : ∀ r ∈ rules, ∀ a ∈ f.known r.1, a ∈ f.first r.2
  short : ∀ name, ∀ a ∈ f.known name, Short (alphabet rules) a

/-- How many sequences the sets of the rules have together. -/
def size (f : FirstSets) : Nat := (f.table.map fun e => e.2.toList.length).sum

/-- An update of a rule changes nothing. -/
def Settled (rules : NameTable Production) (f : FirstSets) : Prop :=
  ∀ r ∈ rules, f.table.get? r.1 = some (f.first r.2)

namespace Rising

theorem below_update (hf : f.Rising rules) {r : String × Production} (hr : r ∈ rules) :
    f.Below (f.update r) := by
  refine ⟨rfl, fun name a ha => ?_⟩
  rw [known_update]
  split
  · rename_i hn
    exact hf.first r hr a (hn ▸ ha)
  · exact ha

theorem update (hf : f.Rising rules) (hnames : rules.names.Nodup) {r : String × Production}
    (hr : r ∈ rules) : (f.update r).Rising rules := by
  have hbelow := hf.below_update hr
  have hmem : r.1 ∈ f.table.names := hf.names ▸ List.mem_map_of_mem hr
  refine ⟨(NameTable.names_set hmem).trans hf.names, ?_, ?_⟩
  · intro q hq a ha
    rw [known_update] at ha
    split at ha
    · rename_i hn
      -- The rule of a name is the one that was updated, as no name has two.
      have hqr : q.2 = r.2 := by
        have hget := NameTable.get?_of_mem hnames (show (r.1, q.2) ∈ rules from hn ▸ hq)
        exact Option.some.inj (hget.symm.trans (NameTable.get?_of_mem hnames hr))
      exact hbelow.first q.2 a (hqr ▸ ha)
    · exact hbelow.first q.2 a (hf.first q hq a ha)
  · intro name a ha
    rw [known_update] at ha
    split at ha
    · refine short_of_mem_first hf.short r.2 ?_ a ha
      exact fun t ht => List.mem_flatMap.2 ⟨r, hr, ht⟩
    · exact hf.short name a ha

/-- An update changes nothing or makes the sets larger. -/
theorem update_eq_or_lt (hf : f.Rising rules) {r : String × Production} (hr : r ∈ rules) :
    f.update r = f ∨ f.size < (f.update r).size := by
  have hmem : r.1 ∈ f.table.names := hf.names ▸ List.mem_map_of_mem hr
  obtain ⟨s, hs⟩ := Option.ne_none_iff_exists'.1 fun h => NameTable.get?_eq_none.1 h hmem
  have hsub : ∀ a ∈ s, a ∈ f.first r.2 := fun a ha => hf.first r hr a (mem_known.2 ⟨s, hs, ha⟩)
  rcases SequenceSet.eq_or_length_lt hsub with heq | hlt
  · refine Or.inl ?_
    unfold FirstSets.update
    rw [NameTable.set_eq_self (heq ▸ hs)]
  · have hsum := NameTable.sum_set (a := f.first r.2) (fun s => s.toList.length) hs
    refine Or.inr ?_
    simp only [size, FirstSets.update]
    omega

/-- A sweep changes nothing, and then no update does, or makes the sets larger. -/
theorem sweep (hf : f.Rising rules) (hnames : rules.names.Nodup) :
    (f.sweep rules).Rising rules ∧
      ((∀ r ∈ rules, f.update r = f) ∧ f.sweep rules = f ∨ f.size < (f.sweep rules).size) := by
  have hfold : ∀ (rest : List (String × Production)), (∀ r ∈ rest, r ∈ rules) → ∀ f : FirstSets,
      f.Rising rules → (rest.foldl FirstSets.update f).Rising rules ∧
        ((∀ r ∈ rest, f.update r = f) ∧ rest.foldl FirstSets.update f = f ∨
          f.size < (rest.foldl FirstSets.update f).size) := by
    intro rest
    induction rest with
    | nil => exact fun _ f hf => ⟨hf, Or.inl ⟨nofun, rfl⟩⟩
    | cons r rest ih =>
      intro hrest f hf
      rw [List.forall_mem_cons] at hrest
      obtain ⟨hrising, hsize⟩ := ih hrest.2 _ (hf.update hnames hrest.1)
      refine ⟨hrising, ?_⟩
      simp only [List.foldl_cons, List.forall_mem_cons]
      rcases hf.update_eq_or_lt hrest.1 with hsame | hlt
      · rw [hsame] at hsize ⊢
        exact hsize.imp (fun h => ⟨⟨rfl, h.1⟩, h.2⟩) id
      · rcases hsize with ⟨_, hsame⟩ | hlt'
        · exact Or.inr (hsame.symm ▸ hlt)
        · exact Or.inr (Nat.lt_trans hlt hlt')
  exact hfold rules (fun _ hr => hr) f hf

/-- There are not enough sequences for more sweeps than the bound. -/
theorem size_lt (hf : f.Rising rules) (hnames : rules.names.Nodup) : f.size < sweepBound rules := by
  have hlabels : (alphabet rules).length =
      (rules.flatMap fun r => r.2.references ++ r.2.literals).length := by
    simp [alphabet, Production.labels]
  have hlength : f.table.length = rules.length := by
    simpa [NameTable.names] using congrArg List.length hf.names
  have heach : ∀ n ∈ f.table.map fun e => e.2.toList.length, n ≤
      1 + (alphabet rules).length + (alphabet rules).length * (alphabet rules).length := by
    intro n hn
    obtain ⟨e, he, rfl⟩ := List.mem_map.1 hn
    refine Short.length_le fun a ha => hf.short e.1 a (mem_known.2 ⟨e.2, ?_, ha⟩)
    exact NameTable.get?_of_mem (hf.names ▸ hnames) he
  have hsum := List.sum_le_card_nsmul _ _ heach
  rw [List.length_map, hlength, hlabels, smul_eq_mul] at hsum
  exact Nat.lt_succ_of_le hsum

theorem settled_of_update (hf : ∀ r ∈ rules, f.update r = f) : f.Settled rules := by
  intro r hr
  have htable : f.table.set r.1 (f.first r.2) = f.table := congrArg FirstSets.table (hf r hr)
  rw [← htable, NameTable.get?_set, if_pos rfl]

/-- Sweeps that are limited by more than the sets can still grow settle. -/
theorem settled_settle (hf : f.Rising rules) (hnames : rules.names.Nodup) {n : Nat}
    (hn : sweepBound rules ≤ f.size + n) : (settle rules n f).Settled rules := by
  induction n generalizing f with
  | zero => exact absurd (hf.size_lt hnames) (Nat.not_lt.2 hn)
  | succ n ih =>
    obtain ⟨hrising, hsize⟩ := hf.sweep hnames
    rw [settle]
    split
    · rename_i hsame
      rcases hsize with ⟨hupdates, _⟩ | hlt
      · exact settled_of_update hupdates
      · have heq : (f.sweep rules).size = f.size := by
          unfold size
          rw [hsame]
        omega
    · rename_i hne
      rcases hsize with ⟨_, hsame⟩ | hlt
      · exact absurd (congrArg FirstSets.table hsame) hne
      · exact ih hrising (by omega)

end Rising

/-- First sets that know of no beginnings yet. -/
def initial (rules : NameTable Production) (tokens : List String) : FirstSets :=
  ⟨tokens, rules.map fun r => (r.1, .empty)⟩

theorem rising_initial (rules : NameTable Production) (tokens : List String) :
    (initial rules tokens).Rising rules := by
  refine ⟨?_, fun r _ a ha => ?_, fun name a ha => ?_⟩
  · simp [initial, NameTable.names]
  · rw [initial, known_empty] at ha
    exact absurd ha (SequenceSet.not_mem_empty a)
  · rw [initial, known_empty] at ha
    exact absurd ha (SequenceSet.not_mem_empty a)

/-- **First sets settle.** The set of every rule is the first set of its body. -/
theorem settled_ofRules (hnames : rules.names.Nodup) (tokens : List String) :
    (ofRules rules tokens).Settled rules :=
  (rising_initial rules tokens).settled_settle hnames (Nat.le_add_left _ _)

end FirstSets

end LayeredGrammar
