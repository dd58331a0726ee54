import LayeredGrammar.Proofs.Engine.Choices
import LayeredGrammar.Proofs.Engine.Faultless

/-!
# Choices have a well-defined winner

Whatever the declared conflicts, a choice inside a rule has a winner exactly if one of its members
matches, and which match wins depends neither on the order in which the members were tried nor on
members that are outdone: only the leaders count (`Candidate.best_congr`), and the winner is the one
of those favoured among them whose turn comes first (`Attempt.best_optimal`).
-/

namespace LayeredGrammar

namespace Candidate

variable {registry : ConflictRegistry} {owner : String} {cs cs' : List Candidate} {c : Candidate}

/-- Only the leaders count in a choice. -/
theorem best_congr (hdistinct : (cs.map (·.index)).Nodup) (hdistinct' : (cs'.map (·.index)).Nodup)
    (h : ∀ d, d ∈ leaders cs ↔ d ∈ leaders cs') :
    best registry owner cs = best registry owner cs' := by
  apply Option.ext
  intro m
  rw [best_eq_some_iff hdistinct, best_eq_some_iff hdistinct']
  simp only [LeastBy, mem_favoured_congr h]

/-- A candidate that is outdone is no leader, and it outdoes none of those that are left. -/
theorem mem_leaders_remove {l r : List Candidate} (hout : ∃ d ∈ l ++ c :: r, d.outdoes c = true)
    (e : Candidate) : e ∈ leaders (l ++ c :: r) ↔ e ∈ leaders (l ++ r) := by
  obtain ⟨d, hd, hdc⟩ := hout
  rw [outdoes_iff] at hdc
  -- the one that outdoes it stays
  have hd' : d ∈ l ++ r := by
    rcases List.mem_append.1 hd with hd | hd
    · exact List.mem_append_left _ hd
    · rcases List.mem_cons.1 hd with rfl | hd
      · exact absurd hdc (lt_irrefl _)
      · exact List.mem_append_right _ hd
  have hmem : ∀ {x : Candidate}, x ∈ l ++ c :: r ↔ x = c ∨ x ∈ l ++ r := by
    intro x
    simp only [List.mem_append, List.mem_cons]
    tauto
  rw [mem_leaders, mem_leaders]
  constructor
  · rintro ⟨he, hleast⟩
    rcases hmem.1 he with rfl | he
    · exact absurd (hleast d hd) (not_le_of_gt hdc)
    · exact ⟨he, fun x hx => hleast x (hmem.2 (Or.inr hx))⟩
  · rintro ⟨he, hleast⟩
    refine ⟨hmem.2 (Or.inr he), fun x hx => ?_⟩
    rcases hmem.1 hx with rfl | hx
    · exact le_trans (hleast d hd') (le_of_lt hdc)
    · exact hleast x hx

end Candidate

namespace Attempt

variable {registry : ConflictRegistry} {owner : String} {as : List Attempt}

theorem nodup_candidates (h : (as.map (·.index)).Nodup) : ((candidates as).map (·.index)).Nodup :=
  List.pairwise_map.2 (pairwise_candidates (List.pairwise_map.1 h))

theorem mem_candidates {c : Candidate} :
    c ∈ candidates as ↔ ∃ a ∈ as, a.found? = some c.found ∧ a.index = c.index ∧ a.label = c.label := by
  unfold candidates candidate?
  simp only [List.mem_filterMap, Option.map_eq_some_iff]
  constructor
  · rintro ⟨a, ha, m, hm, rfl⟩
    exact ⟨a, ha, hm, rfl, rfl⟩
  · rintro ⟨a, ha, hm, hindex, hlabel⟩
    refine ⟨a, ha, c.found, hm, ?_⟩
    rw [hindex, hlabel]

theorem candidates_eq_nil : candidates as = [] ↔ ∀ a ∈ as, a.found? = none := by
  unfold candidates candidate?
  simp only [List.filterMap_eq_nil_iff, Option.map_eq_none_iff]

/-- An attempt whose match another one outdoes makes no difference. -/
theorem best_remove {l r : List Attempt} {a b : Attempt} {m m' : Match}
    (hdistinct : ((l ++ a :: r).map (·.index)).Nodup) (ha : a.found? = some m) (hb : b ∈ l ++ a :: r)
    (hm' : b.found? = some m') (hlt : m'.standing < m.standing) :
    best registry owner (l ++ r) = best registry owner (l ++ a :: r) := by
  have hcandidates : candidates (l ++ a :: r) =
      candidates l ++ ⟨a.index, a.label, m⟩ :: candidates r := by
    unfold candidates
    rw [List.filterMap_append, List.filterMap_cons]
    simp [candidate?, ha]
  have hsub : (l ++ r).Sublist (l ++ a :: r) := by
    apply List.Sublist.append_left
    exact List.sublist_cons_self a r
  apply Candidate.best_congr
  · exact nodup_candidates (hdistinct.sublist (hsub.map _))
  · exact nodup_candidates hdistinct
  · intro e
    rw [hcandidates, Candidate.mem_leaders_remove]
    · unfold candidates
      rw [List.filterMap_append]
    · refine ⟨⟨b.index, b.label, m'⟩, ?_, Candidate.outdoes_iff.2 hlt⟩
      rw [← hcandidates, mem_candidates]
      exact ⟨b, hb, hm', rfl, rfl⟩

/-- **A choice is a well-defined optimum.** Among attempts at different places there is a winner
unless all of them failed. It does not depend on the order of the attempts, no match has fewer errors
or as few and is longer, and attempts that are worse in this respect make no difference. Among the
others, and of these those with the preferred label if there is one, it is the first whose turn it
is. -/
theorem best_optimal (registry : ConflictRegistry) (owner : String) {as : List Attempt}
    (hdistinct : (as.map (·.index)).Nodup) :
    (best registry owner as = none ↔ ∀ a ∈ as, a.found? = none) ∧
    (∀ as', as.Perm as' → best registry owner as' = best registry owner as) ∧
    (∀ m, best registry owner as = some m → ∀ a ∈ as, ∀ m' ∈ a.found?,
      m.errors < m'.errors ∨ m.errors = m'.errors ∧ m'.stop ≤ m.stop) ∧
    (∀ l a r, as = l ++ a :: r → (∃ m ∈ a.found?, ∃ b ∈ as, ∃ m' ∈ b.found?,
        m'.errors < m.errors ∨ m'.errors = m.errors ∧ m.stop < m'.stop) →
      best registry owner (l ++ r) = best registry owner as) ∧
    ∀ m, best registry owner as = some m ↔
      ∃ c ∈ Candidate.favoured registry owner (candidates as), c.found = m ∧
        ∀ d ∈ Candidate.favoured registry owner (candidates as), c.turn ≤ d.turn := by
  have hdistinct' := nodup_candidates hdistinct
  have hwinner : ∀ m, best registry owner as = some m ↔
      ∃ c, LeastBy Candidate.turn (Candidate.favoured registry owner (candidates as)) c ∧
        c.found = m := fun m => Candidate.best_eq_some_iff hdistinct'
  refine ⟨?_, ?_, ?_, ?_, ?_⟩
  · rw [← candidates_eq_nil]
    unfold best
    constructor
    · intro hnone
      cases hc : candidates as with
      | nil => rfl
      | cons c cs =>
        have hsome := Candidate.isSome_best registry owner c cs
        rw [← hc, hnone] at hsome
        cases hsome
    · intro hnil
      rw [hnil, Candidate.best_nil]
  · intro as' hperm
    apply Candidate.best_congr
    · exact nodup_candidates ((hperm.map _).nodup_iff.1 hdistinct)
    · exact hdistinct'
    · intro d
      simp only [Candidate.mem_leaders, LeastBy, (hperm.filterMap _).mem_iff, candidates]
  · intro m hm a ha m' hm'
    obtain ⟨c, hc, rfl⟩ := (hwinner m).1 hm
    have hleads := Candidate.mem_leaders.1 (Candidate.mem_of_mem_favoured hc.1)
    have hmem : (⟨a.index, a.label, m'⟩ : Candidate) ∈ candidates as :=
      mem_candidates.2 ⟨a, ha, hm', rfl, rfl⟩
    exact Match.standing_le.1 (hleads.2 _ hmem)
  · rintro l a r rfl ⟨m, hm, b, hb, m', hm', hlt⟩
    exact best_remove hdistinct hm hb hm' (Match.standing_lt.2 hlt)
  · intro m
    rw [hwinner]
    constructor
    · rintro ⟨c, ⟨hc, hleast⟩, hfound⟩
      exact ⟨c, hc, hfound, hleast⟩
    · rintro ⟨c, hc, hfound, hleast⟩
      exact ⟨c, ⟨hc, hleast⟩, hfound⟩

/-- A match of the first characters of a text by a reference. -/
def opening (stop : Nat) (lead layered : Bool) : Match :=
  ⟨0, stop, [(Node.leaf "name" 0 stop true, [])], 0, lead, layered⟩

/-- Keys are preferred to values, though a value starts with a literal and uses base alternatives only;
without that preference the value wins. A shorter item makes no difference, nor does the order. -/
theorem best_optimal_pairs :
    let key : Attempt := ⟨2, some "key", some (opening 4 false true)⟩
    let value : Attempt := ⟨0, some "value", some (opening 4 true false)⟩
    let item : Attempt := ⟨3, some "item", some (opening 3 true false)⟩
    let failed : Attempt := ⟨1, none, none⟩
    let registry : ConflictRegistry := [⟨["key", "value"], some "key", ""⟩]
    ([item, value, failed, key].map (·.index)).Nodup ∧
    best registry "pair" [item, value, failed, key] = some (opening 4 false true) ∧
    best registry "pair" [key, failed, value, item] = some (opening 4 false true) ∧
    best registry "pair" [value, failed, key] = some (opening 4 false true) ∧
    best [] "pair" [item, value, failed, key] = some (opening 4 true false) := by
  intro key value item failed registry
  have hdistinct : ([item, value, failed, key].map (·.index)).Nodup := by decide
  have hwins : best registry "pair" [item, value, failed, key] = some (opening 4 false true) := by
    decide
  obtain ⟨_, hperm, _, hremove, _⟩ := best_optimal registry "pair" hdistinct
  refine ⟨hdistinct, hwins, ?_, ?_, by decide⟩
  · rw [← hwins]
    exact hperm _ (List.reverse_perm [item, value, failed, key]).symm
  · rw [← hwins]
    apply hremove [] item [value, failed, key] rfl
    exact ⟨opening 3 true false, rfl, key, by simp, opening 4 false true, rfl, by decide⟩

end Attempt

end LayeredGrammar
