import LayeredGrammar.Proofs.Engine.Loops
import LayeredGrammar.Proofs.Grammar.Alternatives

/-!
# Parsing terminates

A rule may ask for itself again at the position where it stands, directly or through other rules, so
that nothing in the text bounds how deeply rules nest. What does is the memo: a rule that is being
matched is not entered again, so the keys of the rules inside each other are pairwise distinct, and
there are only so many of them: a rule, a position of the text, and a least precedence that is zero
or belongs to an alternative (`Session.keySpace`).

* `Session.guardedRule` — matching rules with the keys that are being matched at hand and an alarm
  that goes off when they are not distinct or too many.
* `Session.parse_terminates` — the alarm never goes off, a limit on nested rules that is as large as
  the key space is never reached, and all loops end by themselves.
-/

namespace LayeredGrammar

/-- The least precedences that alternatives of a table ask for at their end, each once. -/
def ParseTable.rightMins (t : ParseTable) : List Int :=
  (t.rules.flatMap fun r =>
    (r.2.plain ++ r.2.prefixed ++ r.2.postfixed ++ r.2.leftRec).map (·.rightMin)).eraseDups

theorem ParseTable.mem_rightMins {t : ParseTable} {rule : String} {alts : RuleAlternatives}
    {a : Alternative} (ht : t.rules.get? rule = some alts)
    (ha : (a ∈ alts.prefixed ∨ a ∈ alts.plain) ∨ a ∈ alts.postfixed ∨ a ∈ alts.leftRec) :
    a.rightMin ∈ t.rightMins := by
  unfold rightMins
  rw [List.mem_eraseDups, List.mem_flatMap]
  refine ⟨(rule, alts), NameTable.mem_of_get? ht, List.mem_map.2 ⟨a, ?_, rfl⟩⟩
  simp only [List.mem_append]
  rcases ha with (ha | ha) | ha | ha
  · exact Or.inl (Or.inl (Or.inr ha))
  · exact Or.inl (Or.inl (Or.inl ha))
  · exact Or.inl (Or.inr ha)
  · exact Or.inr ha

namespace Session

open Engine (Coupled Coupling)

variable {s : Session}

/-! ## The key space -/

/-- How many rules can be inside each other at most. -/
def depthBound (s : Session) : Nat :=
  s.table.rules.length * (s.size + 1) * (1 + s.table.rightMins.length)

/-- The keys that can be asked for on the way to a tree. -/
def keySpace (s : Session) : List MemoKey :=
  s.table.rules.names.flatMap fun rule => (List.range (s.size + 1)).flatMap fun pos =>
    (0 :: s.table.rightMins).map fun minPrec => ⟨rule, pos, minPrec⟩

theorem mem_keySpace {k : MemoKey} : k ∈ s.keySpace ↔
    k.rule ∈ s.table.rules.names ∧ k.pos ≤ s.size ∧ k.minPrec ∈ 0 :: s.table.rightMins := by
  unfold keySpace
  constructor
  · intro h
    obtain ⟨rule, hrule, h⟩ := List.mem_flatMap.1 h
    obtain ⟨pos, hpos, h⟩ := List.mem_flatMap.1 h
    obtain ⟨minPrec, hminPrec, rfl⟩ := List.mem_map.1 h
    have := List.mem_range.1 hpos
    exact ⟨hrule, by show pos ≤ s.size; omega, hminPrec⟩
  · rintro ⟨hrule, hpos, hminPrec⟩
    refine List.mem_flatMap.2 ⟨k.rule, hrule, List.mem_flatMap.2 ⟨k.pos, ?_, ?_⟩⟩
    · exact List.mem_range.2 (by omega)
    · exact List.mem_map.2 ⟨k.minPrec, hminPrec, rfl⟩

theorem length_keySpace (s : Session) : s.keySpace.length = s.depthBound := by
  unfold keySpace depthBound
  simp only [List.length_flatMap, List.length_map, List.length_cons, List.map_const',
    List.sum_replicate_nat, List.length_range, NameTable.names]
  rw [Nat.mul_assoc, Nat.add_comm 1]

/-! ## What is asked for -/

/-- A production refers to rules and tokens only. -/
def Closed (s : Session) (p : Production) : Prop :=
  ∀ n, .ref n ∈ p.walk → n ∈ s.table.rules.names ∨ n ∈ s.grammar.tokens.names

/-- A task inside the text and the grammar. -/
def Task.Inside (s : Session) : Task → Prop
  | .production p pos => s.Closed p ∧ pos ≤ s.size
  | .items ps run => (∀ p ∈ ps, s.Closed p) ∧ run.cursor ≤ s.size
  | .rounds content _ _ _ run => s.Closed content ∧ run.cursor ≤ s.size
  | .element owner minPrec e pos => owner ∈ s.table.rules.names ∧
      minPrec ∈ 0 :: s.table.rightMins ∧ s.Closed e.body ∧ pos ≤ s.size
  | .elements owner rightMin es run => owner ∈ s.table.rules.names ∧
      rightMin ∈ s.table.rightMins ∧ (∀ e ∈ es, s.Closed e.body) ∧ run.cursor ≤ s.size
  | .growth _ _ left => left.stop ≤ s.size
  | .rule key => key.pos ≤ s.size

theorem cursor_push_le {run : Run} {m : Match} (hm : m.Proper run.cursor s.size)
    (h : run.cursor ≤ s.size) : (run.push m).cursor ≤ s.size := by
  have := hm.stop_le
  rw [Run.cursor_push]
  split
  · exact h
  · omega

/-- The elements of an alternative, or the last of them, are a task inside the grammar. -/
theorem inside_elements (hb : s.table.Built) {rule : String} {alts : RuleAlternatives}
    {a : Alternative} {es : List Element} {run : Run} (ht : s.table.rules.get? rule = some alts)
    (ha : (a ∈ alts.prefixed ∨ a ∈ alts.plain) ∨ a ∈ alts.postfixed ∨ a ∈ alts.leftRec)
    (hes : ∀ e ∈ es, e ∈ a.elements) (hle : run.cursor ≤ s.size) :
    Task.Inside s (.elements rule a.rightMin es run) := by
  have hoffers : s.table.Offers rule a := by
    rcases ha with ha | ha
    · exact (hb.offers_seed ht ha).1
    · exact (hb.offers_growing ht ha).1
  refine ⟨NameTable.mem_names_of_get? ht, ParseTable.mem_rightMins ht ha, ?_, hle⟩
  intro e he n hn
  exact hb.closed_of_offers hoffers (hes e he) (Production.mem_references.2 hn)

theorem minPrec_mem {es : List Element} {rightMin : Int} (h : rightMin ∈ s.table.rightMins) :
    (if es.isEmpty then rightMin else 0) ∈ 0 :: s.table.rightMins := by
  split
  · exact List.mem_cons_of_mem _ h
  · exact List.mem_cons_self

/-- A task inside the text and the grammar asks only for keys of the key space. -/
theorem Asks.mem_keySpace (hb : s.table.Built) {t : Task} {k : MemoKey} (h : s.Asks t k)
    (ht : t.Inside s) : k ∈ s.keySpace := by
  induction h with
  | @ref name pos hnone =>
    refine Session.mem_keySpace.2 ⟨?_, ht.2, List.mem_cons_self⟩
    exact (ht.1 name List.mem_cons_self).resolve_right (NameTable.get?_eq_none.1 hnone)
  | seq _ ih =>
    refine ih ⟨fun p hp n hn => ht.1 n ?_, ht.2⟩
    exact List.mem_cons_of_mem _ (Production.mem_walkAll.2 ⟨p, hp, hn⟩)
  | choice hp _ ih =>
    refine ih ⟨fun n hn => ht.1 n ?_, ht.2⟩
    exact List.mem_cons_of_mem _ (Production.mem_walkAll.2 ⟨_, hp, hn⟩)
  | rep _ ih => exact ih ⟨fun n hn => ht.1 n (List.mem_cons_of_mem _ hn), ht.2⟩
  | opt _ ih => exact ih ⟨fun n hn => ht.1 n (List.mem_cons_of_mem _ hn), ht.2⟩
  | field _ ih => exact ih ⟨fun n hn => ht.1 n (List.mem_cons_of_mem _ hn), ht.2⟩
  | renamed _ ih => exact ih ⟨fun n hn => ht.1 n (List.mem_cons_of_mem _ hn), ht.2⟩
  | prec _ ih => exact ih ⟨fun n hn => ht.1 n (List.mem_cons_of_mem _ hn), ht.2⟩
  | itemsHead _ ih => exact ih ⟨ht.1 _ List.mem_cons_self, ht.2⟩
  | itemsTail hm _ ih =>
    exact ih ⟨fun p hp => ht.1 p (List.mem_cons_of_mem _ hp), cursor_push_le hm.proper ht.2⟩
  | roundsHead _ ih => exact ih ht
  | roundsTail hm hs _ ih =>
    have hnext : s.NextRound _ false _ _ := Or.inl ⟨_, hm, hs, rfl⟩
    exact ih ⟨ht.1, hnext.cursor_le.2⟩
  | roundsRegion hr _ ih => exact ih ⟨ht.1, (errorSpan_advances hr).2.2.2⟩
  | selfElement he => exact Session.mem_keySpace.2 ⟨ht.1, ht.2.2.2, ht.2.1⟩
  | bodyElement he _ ih => exact ih ht.2.2
  | elementsHead _ ih =>
    exact ih ⟨ht.1, minPrec_mem ht.2.1, ht.2.2.1 _ List.mem_cons_self, ht.2.2.2⟩
  | elementsTail hm _ ih =>
    exact ih ⟨ht.1, ht.2.1, fun e he => ht.2.2.1 e (List.mem_cons_of_mem _ he),
      cursor_push_le hm.proper ht.2.2.2⟩
  | growthHead hget ha _ ih =>
    exact ih (inside_elements hb hget (Or.inr ha) (fun e he => List.mem_of_mem_drop he) ht)
  | growthTail hget ha hm hs _ ih =>
    have hright := (hm.proper (Run.proper_begin _ _)).stop_le
    rw [Run.origin_begin] at hright
    have ht : Match.stop _ ≤ s.size := ht
    refine ih ?_
    show (extended _ _ _).stop ≤ s.size
    rw [stop_extended]
    omega
  | ruleSeed hget ha _ ih => exact ih (inside_elements hb hget (Or.inl ha) (fun e he => he) ht)
  | @ruleGrowth key _ a seed _ hget ha hm _ ih =>
    have hseed := (hm.proper (Run.proper_begin _ _)).stop_le
    rw [Run.origin_begin] at hseed
    have ht : key.pos ≤ s.size := ht
    refine ih ?_
    show (dress a seed).stop ≤ s.size
    rw [stop_dress]
    omega

/-! ## Rules inside each other -/

/-- Match a rule with the keys that are being matched at hand, latest first: `alarm` takes over
before a rule is entered that makes a key come up twice, or makes more than `most` of them. -/
def guardedRule (s : Session) (most : Nat) (alarm : Engine (Option Match)) :
    Nat → List MemoKey → RuleMatcher
  | 0, _, rule, pos, minPrec => Engine.remembered ⟨rule, pos, minPrec⟩ (throw .tooDeep)
  | limit + 1, active, rule, pos, minPrec =>
    let keys := ⟨rule, pos, minPrec⟩ :: active
    Engine.remembered ⟨rule, pos, minPrec⟩
      (if keys.Nodup ∧ keys.length ≤ most then
        s.matchFresh (guardedRule s most alarm limit keys) ⟨rule, pos, minPrec⟩
      else alarm)

/-- Two runs with the same sound memo, in which the given keys are being matched. The limit stops
them only if it is smaller than the key space: `total` is what is left of it and what is used up. -/
def entering (s : Session) (total : Nat) (active : List MemoKey) : Coupling where
  going μ ν := μ = ν ∧ s.Sound μ ∧ ∀ k ∈ active, μ[k]? = some .active
  stopped μ ν := μ = ν ∧ total < s.depthBound
  lenient := False

/-- Keys of the key space that are pairwise distinct are not more than the key space has. -/
theorem length_le_depthBound {keys : List MemoKey} (hn : keys.Nodup)
    (hs : ∀ k ∈ keys, k ∈ s.keySpace) : keys.length ≤ s.depthBound := by
  rw [← length_keySpace]
  exact hn.length_le_of_subset hs

/-- A rule that is not remembered is not being matched, so it can be entered. -/
theorem nodup_cons_of_none {active : List MemoKey} {k : MemoKey} {μ : Memo} (hn : active.Nodup)
    (hactive : ∀ j ∈ active, μ[j]? = some .active) (hk : μ[k]? = none) : (k :: active).Nodup := by
  refine List.nodup_cons.2 ⟨fun hmem => ?_, hn⟩
  rw [hactive k hmem] at hk
  cases hk

/-- **The alarm never goes off**: with and without it, a rule of the key space is matched alike. -/
theorem guardedRule_alike (hb : s.table.Built) (alarm : Engine (Option Match)) :
    ∀ (limit : Nat) (active : List MemoKey) (k : MemoKey), active.Nodup →
    (∀ j ∈ active, j ∈ s.keySpace) → k ∈ s.keySpace →
    s.Alike (s.entering (limit + active.length) active)
      (s.guardedRule s.depthBound alarm limit active) (s.matchRule limit) k := by
  intro limit
  induction limit with
  | zero =>
    rintro active k hn hspace hk μ ν ⟨rfl, hμ, hactive⟩
    refine Engine.remembered_ends ⟨rfl, hμ, hactive⟩ nofun
      (fun found hmemo m hm => hμ k m (hm ▸ hmemo)) ?_
    intro hmemo
    have hlen := length_le_depthBound (nodup_cons_of_none hn hactive hmemo)
      (List.forall_mem_cons.2 ⟨hk, hspace⟩)
    rw [List.length_cons] at hlen
    exact Or.inr ⟨μ, rfl, rfl, by omega⟩
  | succ limit ih =>
    rintro active k hn hspace hk μ ν ⟨rfl, hμ, hactive⟩
    refine Engine.remembered_ends ⟨rfl, hμ, hactive⟩ nofun
      (fun found hmemo m hm => hμ k m (hm ▸ hmemo)) ?_
    intro hmemo
    have hn' := nodup_cons_of_none hn hactive hmemo
    have hspace' : ∀ j ∈ k :: active, j ∈ s.keySpace := List.forall_mem_cons.2 ⟨hk, hspace⟩
    have hlen := length_le_depthBound hn' hspace'
    have hactive' : ∀ j ∈ k :: active, (μ.insert k .active)[j]? = some .active := by
      intro j hj
      rw [Memo.getElem?_insert_eq]
      split
      · rfl
      · rename_i hne
        exact hactive j ((List.mem_cons.1 hj).resolve_left fun h => hne h.symm)
    rw [if_pos ⟨hn', hlen⟩]
    refine matchFresh_ends (answer_coupled fun k' hk' =>
      ih (k :: active) k' hn' hspace' (hk'.mem_keySpace hb (Session.mem_keySpace.1 hk).2.1))
      ⟨rfl, hμ.insert_active k, hactive'⟩ ?_ ?_ id
    · rintro μ' ν' found ⟨rfl, hμ', hactive''⟩ hfound
      refine ⟨rfl, hμ'.insert_known hfound, ?_⟩
      intro j hj
      have hne : k ≠ j := fun h => (List.nodup_cons.1 hn').1 (h ▸ hj)
      rw [Memo.getElem?_insert_eq, if_neg hne]
      exact hactive'' j (List.mem_cons_of_mem _ hj)
    · rintro μ' ν' ⟨rfl, hlt⟩
      rw [List.length_cons] at hlt
      exact ⟨rfl, by omega⟩

theorem start_mem_keySpace (hb : s.table.Built) {pos : Nat} (hpos : pos ≤ s.size) :
    (⟨s.grammar.start, pos, 0⟩ : MemoKey) ∈ s.keySpace := by
  refine Session.mem_keySpace.2 ⟨?_, hpos, List.mem_cons_self⟩
  rw [hb.names_rules]
  exact hb.start

/-- Reading a text with the keys at hand and without. -/
theorem parseBy_guardedRule (hb : s.table.Built) (alarm : Engine (Option Match)) (limit : Nat) :
    Engine.Ends (s.entering limit []) (fun _ => True)
      (s.parseBy (s.guardedRule s.depthBound alarm limit []) {}) (s.parse limit {}) := by
  have hcoupled := parseBy_coupled fun pos hpos =>
    guardedRule_alike hb alarm limit [] _ .nil nofun (start_mem_keySpace hb hpos)
  exact (hcoupled.mono fun _ _ => trivial) _ _ ⟨rfl, sound_empty, nofun⟩

/-! ## Termination -/

/-- All loops of the engine move on with every pass, and end by themselves: beyond one pass for each
position of the text, the number of passes they are allowed does not matter. -/
structure LoopsEnd (s : Session) : Prop where
  repeatPass : ∀ {recovering expected content run next μ μ'},
    s.repeatPass recovering expected content run μ = .ok (some next) μ' → run.cursor < next.cursor
  growPass : ∀ {call rule minPrec alts left m μ μ'},
    s.growPass call rule minPrec alts left μ = .ok (some m) μ' → left.stop < m.stop
  regionPass : ∀ {depth cursor stop next},
    s.regionPass depth cursor = some (stop, next) → cursor < stop
  parsePass : ∀ {call pos items read next μ μ'},
    s.parsePass call pos items μ = .ok (read, some next) μ' → pos < next
  repeatFrom : ∀ {limit owner content recovering n count run μ}, s.size < n →
    run.cursor ≤ s.size → s.Sound μ →
    s.repeatFrom recovering (s.table.expectedFor content)
        (s.matchProduction (s.matchRule limit) owner content) n count run μ =
      s.repeatFrom recovering (s.table.expectedFor content)
        (s.matchProduction (s.matchRule limit) owner content) (s.size + 1) count run μ
  grow : ∀ {limit rule minPrec alts n left μ}, s.table.rules.get? rule = some alts → s.size < n →
    left.stop ≤ s.size → s.Sound μ →
    s.grow (s.matchRule limit) rule minPrec alts n left μ =
      s.grow (s.matchRule limit) rule minPrec alts (s.size + 1) left μ
  regionEnd : ∀ {n depth cursor}, s.size < n →
    s.regionEnd n depth cursor = s.regionEnd (s.size + 1) depth cursor
  parseFrom : ∀ {limit n pos items μ}, s.size < n → s.Sound μ →
    s.parseFrom (s.matchRule limit) n pos items μ =
      s.parseFrom (s.matchRule limit) (s.size + 1) pos items μ

theorem loopsEnd (s : Session) : s.LoopsEnd where
  repeatPass := repeatPass_advances
  growPass := growPass_advances
  regionPass h := (regionPass_advances h).1
  parsePass h := (parsePass_advances h).1
  repeatFrom hn hle hμ := eq_of_soundly (repeatFrom_settled _ _ _ _ hle (by omega) (by omega)) hμ
  grow ht hn hle hμ := eq_of_soundly (grow_settled ht _ _ _ hle (by omega) (by omega)) hμ
  regionEnd hn := regionEnd_settled _ _ _ _ (by omega) (by omega)
  parseFrom hn hμ := eq_of_soundly (parseFrom_settled _ _ _ _ (by omega) (by omega)) hμ

/-- Within a limit as large as the key space a text has a tree, and it is the same for all such
limits. -/
theorem parse_eq_ok (hb : s.table.Built) :
    ∃ root, ∀ limit, s.depthBound ≤ limit → ∃ μ, s.parse limit {} = .ok root μ := by
  have hbound := parseBy_guardedRule hb (pure none) s.depthBound
  cases hrun : s.parse s.depthBound {} with
  | error e μ =>
    rw [hrun] at hbound
    cases hguarded : s.parseBy (s.guardedRule s.depthBound (pure none) s.depthBound []) {} with
    | ok root μ' =>
      rw [hguarded] at hbound
      obtain ⟨_, h, _⟩ := hbound
      cases h
    | error e' μ' =>
      rw [hguarded] at hbound
      obtain ⟨_, _, _, hlt⟩ := hbound.resolve_left id
      exact absurd hlt (Nat.lt_irrefl _)
  | ok root μ =>
    refine ⟨root, fun limit hle => ?_⟩
    have hmono := parseBy_coupled fun pos _ => matchRule_mono hle ⟨s.grammar.start, pos, 0⟩
    obtain ⟨μ', hμ', _⟩ := hmono.of_ok ⟨rfl, sound_empty⟩ hrun
    exact ⟨μ', hμ'⟩

/-- **Parsing terminates for every grammar that builds and every text.** The keys of the rules that
are inside each other are pairwise distinct and at most `depthBound` many, a limit that is not
smaller is never reached, and every pass of a loop moves on. -/
theorem parse_terminates {layers : List Layer} {table : ParseTable}
    (hb : (ParseTable.ofLayers layers).outcome = .ok table) (recover : Bool) (text : List Char) :
    let s : Session := ⟨table, recover, text.toArray⟩
    (∀ limit alarm, s.parseBy (s.guardedRule s.depthBound alarm limit []) {} = s.parse limit {}) ∧
    (∀ strict, ∃ result, result ≠ .error .tooDeep ∧
      ∀ limit, s.depthBound ≤ limit → table.parse recover strict text limit = result) ∧
    s.LoopsEnd := by
  intro s
  have hb : s.table.Built := ParseTable.built hb
  refine ⟨?_, ?_, s.loopsEnd⟩
  · intro limit alarm
    exact (parseBy_guardedRule hb alarm limit).eq (fun _ _ h => h.1) (fun _ _ h => h.1) id
  · intro strict
    obtain ⟨root, hroot⟩ := parse_eq_ok hb
    have hsame : ∀ limit, s.depthBound ≤ limit →
        table.parse recover strict text limit = table.parse recover strict text s.depthBound := by
      intro limit hle
      obtain ⟨μ, hμ⟩ := hroot limit hle
      obtain ⟨μ', hμ'⟩ := hroot s.depthBound (Nat.le_refl _)
      unfold ParseTable.parse
      rw [hμ, hμ']
    refine ⟨_, ?_, hsame⟩
    obtain ⟨μ, hμ⟩ := hroot s.depthBound (Nat.le_refl _)
    unfold ParseTable.parse
    rw [hμ]
    simp only
    split <;> nofun

/-- Two rules that ask for each other where they stand; one of them may be empty, and repeats
something that may be empty. -/
def knotLayer : Layer where
  name := "Knot"
  start := some (some "left")
  word := some none
  members :=
    [("left", .rule none (.choice [.seq [.ref "right", .lit "x"], .lit "y"])),
     ("right", .rule none (.choice [.ref "left", .rep (.opt (.lit "z")) 0 true]))]

/-- A grammar with indirect left recursion and a text it reads. -/
theorem parse_terminates_knot : ∃ table, (ParseTable.ofLayers [knotLayer]).outcome = .ok table ∧
    let s : Session := ⟨table, true, #['z', 'x', 'x']⟩
    (∀ limit alarm, s.parseBy (s.guardedRule s.depthBound alarm limit []) {} = s.parse limit {}) ∧
    (∀ strict, ∃ result, result ≠ .error .tooDeep ∧
      ∀ limit, s.depthBound ≤ limit → table.parse true strict ['z', 'x', 'x'] limit = result) ∧
    s.LoopsEnd := by
  have hbuilds : ((ParseTable.ofLayers [knotLayer]).outcome.toOption.any fun _ => true) = true := by
    decide +kernel
  obtain ⟨table, htable, _⟩ := Traced.exists_of_any hbuilds
  exact ⟨table, htable, parse_terminates htable true ['z', 'x', 'x']⟩

end Session

end LayeredGrammar
