import LayeredGrammar.Proofs.Catalog.Bodies
import LayeredGrammar.Proofs.Catalog.Operators
import LayeredGrammar.Proofs.Engine.Origins
import LayeredGrammar.Proofs.Engine.Readings
import LayeredGrammar.Proofs.FieldStability

/-!
# Where error nodes come from

In the trees of the ready-made grammars an error node is an error region (`Session.IsRegion`) or a
single token on the top level that no region can start with (`Session.IsSkipped`). Without recovery
there is one error node at most, and it takes in the rest of the text
(`ParseTable.parse_errorPlaces`).

Error nodes inside matches are regions, because nothing else has their kind
(`Session.sourced_error`). On the top level tokens are skipped as well, but only where the start rule
gave up; and it is a recovering repetition, so it gives up only where no region can start
(`Session.exists_unit`). `Session.placed_parsePass` is the step of the loop that skips them.
-/

namespace LayeredGrammar

namespace Session

open Catalog

variable {s : Session} {height : MemoKey → Nat} {n : Node} {pos : Nat}

/-! ## Regions and skipped tokens -/

/-- A node that covers the error region found at some position, whose first token may start one. -/
def IsRegion (s : Session) (n : Node) : Prop :=
  (∃ p ≤ n.start, s.skip p = n.start ∧ s.errorSpan p = some (n.start, n.stop)) ∧
    ∃ token, s.rawToken? n.start = some token ∧ isCloser token = false ∧
      token ∉ s.grammar.recoveryStops

/-- A node that covers a single token, a closing bracket or a recovery stop. -/
def IsSkipped (s : Session) (n : Node) : Prop :=
  ∃ token, s.rawToken? n.start = some token ∧ n.stop = s.rawTokenEnd n.start ∧
    (isCloser token = true ∨ token ∈ s.grammar.recoveryStops)

theorem isStop_iff {token : String} :
    s.isStop token = true ↔ isCloser token = true ∨ token ∈ s.grammar.recoveryStops := by
  unfold isStop
  rw [Bool.or_eq_true, List.contains_iff_mem]

theorem isRegion_of_errorSpan {start stop : Nat} (h : s.errorSpan pos = some (start, stop))
    (expected : List String) : s.IsRegion (.error start stop expected) := by
  have hle : pos ≤ start := (errorSpan_advances h).1
  have hstart : start = s.skip pos := (errorSpan_start h).1
  refine ⟨⟨pos, hle, hstart.symm, h⟩, ?_⟩
  show ∃ token, s.rawToken? start = some token ∧ _
  rw [hstart]
  unfold errorSpan at h
  cases htoken : s.rawToken? (s.skip pos) with
  | none => simp [htoken] at h
  | some token =>
    simp only [htoken] at h
    split at h
    · cases h
    · rename_i hstop
      rw [isStop_iff, not_or, Bool.not_eq_true] at hstop
      exact ⟨token, rfl, hstop.1, hstop.2⟩

/-- Where text is left and no region can start, there is a token to skip. -/
theorem isSkipped_of_errorSpan (h : s.errorSpan pos = none) (hlt : s.skip pos < s.size)
    (expected : List String) :
    s.IsSkipped (.error (s.skip pos) (s.rawTokenEnd (s.skip pos)) expected) := by
  have htoken : s.rawToken? (s.skip pos) =
      some (s.slice (s.skip pos) (s.rawTokenEnd (s.skip pos))) := by
    unfold rawToken?
    rw [if_pos hlt]
  refine ⟨_, htoken, rfl, isStop_iff.1 ?_⟩
  unfold errorSpan at h
  simp only [htoken] at h
  split at h
  · assumption
  · cases h

/-! ## Inside matches -/

/-- With recovery, an error node is a region; without it there is none. -/
def Regional (s : Session) (n : Node) : Prop :=
  n.isError = true → s.recover = true ∧ s.IsRegion n

theorem regional_of_kind (h : n.kind ≠ Node.errorKind) : s.Regional n :=
  fun herror => absurd (eq_of_beq herror) h

/-- Only error regions have the kind of error nodes: what holds of them and of all nodes of other
kinds holds throughout. -/
theorem sourced_errors (ht : Shipped s.table) {P : Node → Prop}
    (plain : ∀ n : Node, n.kind ≠ Node.errorKind → P n)
    (region : s.recover = true → ∀ {pos start stop}, s.errorSpan pos = some (start, stop) →
      ∀ expected, P (.error start stop expected)) : s.Sourced P (· = Node.errorKind) where
  built := ht.built
  plain := plain
  literals := by
    rintro _ hmem rfl
    exact (ht.ownKind_apart (by decide)).1 hmem
  tokens := by
    rintro _ hmem rfl
    exact (ht.ownKind_apart (by decide)).2.1 hmem
  kinds := by
    rintro _ hmem rfl
    exact (ht.ownKind_apart (by decide)).2.2 hmem
  region := region
  rule := by
    intro key alts a seed m htable ha _ _ hkind
    exact absurd hkind (ht.rule_ne_error (ht.built.offers_seed htable ha).1)

theorem sourced_error (ht : Shipped s.table) : s.Sourced s.Regional (· = Node.errorKind) :=
  sourced_errors ht (fun _ => regional_of_kind)
    fun hrecover _ _ _ hspan expected _ => ⟨hrecover, isRegion_of_errorSpan hspan expected⟩

/-- Error nodes inside the matches of rules are regions. -/
theorem regional_rule (ht : Shipped s.table) (key : MemoKey) (m : Match)
    (h : s.Yields (.rule key) m) : m.Throughout s.Regional :=
  h.throughout (sourced_error ht)

/-! ## The start rule -/

theorem startsWithSelf_unit {t : ParseTable} (ht : Shipped t) {a : Alternative}
    (ha : t.Offers "translation_unit" a) : a.startsWithSelf = false := by
  unfold Alternative.startsWithSelf
  rw [(ht.unit ha).2]
  rfl

/-- What the start rule starts with ends where no region can start. -/
theorem exists_unit_seed (height : MemoKey → Nat) (ht : Shipped s.table)
    (hrecover : s.recover = true) {a : Alternative} (ha : s.table.Offers "translation_unit" a)
    (pos : Nat) : ∃ seed,
      s.inRow (s.truth height) "translation_unit" a.rightMin a.elements pos = some seed ∧
      s.errorSpan seed.stop = none := by
  have ht' : s.Truthful (s.truth height) := truthful_truth
  obtain ⟨m, hm, hspan⟩ :=
    readProduction_recovers ht' hrecover "translation_unit" (.ref "_top_level_item") pos
  refine ⟨((Run.begin pos).push m).toMatch, ?_, ?_⟩
  · show s.readElements (s.truth height) _ _ a.elements (.begin pos) = _
    rw [(ht.unit ha).2, readElements_cons ht' _ _ rfl]
    show (s.readProduction (s.truth height) _ _ pos).bind _ = _
    rw [hm]
    rfl
  · have hproper : m.Proper (Run.begin pos).cursor s.size := (yields_readProduction ht' hm).proper
    show s.errorSpan ((Run.begin pos).push m).cursor = none
    rw [cursor_push_eq hproper]
    exact hspan

/-- **The start rule always matches, and gives up only where no region can start.** -/
theorem exists_unit (ht : Shipped s.table) (hfall : s.Falling height) (hrecover : s.recover = true)
    (pos : Nat) : ∃ m, s.truth height ⟨s.grammar.start, pos, 0⟩ = some m ∧ pos ≤ m.stop ∧
      s.errorSpan m.stop = none := by
  have hstart : s.grammar.start = "translation_unit" := ht.settings.1
  obtain ⟨alts, a, htable, ha⟩ := ht.exists_seed (hstart ▸ ht.built.start)
    fun b hb => startsWithSelf_unit ht hb
  have hoffers := (ht.built.offers_seed htable (List.mem_append.1 ha)).1
  obtain ⟨seed, hseed, _⟩ := exists_unit_seed height ht hrecover hoffers pos
  obtain ⟨m, hm⟩ := truth_isSome (k := ⟨"translation_unit", pos, 0⟩) hfall htable ha hseed
  have hproper : m.Proper pos s.size := (yields_truth _ _ hm).proper
  have hle : pos ≤ m.stop := hproper.le_stop
  -- the alternative that won need not be the one that was found above
  obtain ⟨alts', b, seed', left, hgrows, rfl⟩ := truth_grows hfall hm
  have hleft : left = dress b seed' :=
    hgrows.left_eq ht.built fun c hc => startsWithSelf_unit ht hc
  obtain ⟨seed'', hseed'', hspan⟩ := exists_unit_seed height ht hrecover
    (ht.built.offers_seed hgrows.table hgrows.mem).1 pos
  obtain rfl : seed' = seed'' := Option.some.inj (hgrows.begins.symm.trans hseed'')
  rw [hstart]
  refine ⟨_, hm, hle, ?_⟩
  rwa [Match.stop_finish, hleft, stop_dress]

/-! ## Whole texts -/

/-- A node on the top level: a token that was skipped, or one with regions only. -/
def Placed (s : Session) (n : Node) : Prop :=
  Node.Throughout s.Regional [n] ∨ s.IsSkipped n ∧ n.children = []

theorem placed_of_throughout {ns : List Node} (h : Node.Throughout s.Regional ns) :
    ∀ n ∈ ns, s.Placed n :=
  fun _ hn => .inl (Node.Throughout.single_iff.2 (h.of_mem hn))

/-- **One round of reading a text**: what is added to the top level is a match of the start rule,
then a token that is skipped. -/
theorem placed_parsePass (ht : Shipped s.table) (hfall : s.Falling height)
    (hrecover : s.recover = true) {items read : List Item} {next : Option Nat} {μ μ' : Memo}
    (hrun : s.parsePass (tabled (s.truth height)) pos items μ = .ok (read, next) μ')
    (hitems : ∀ x ∈ items, s.Placed x.1) : ∀ x ∈ read, s.Placed x.1 := by
  obtain ⟨m, hm, hle, hspan⟩ := exists_unit ht hfall hrecover pos
  have hfound : ∀ x ∈ (readOn s.grammar.start items pos (some m)).1, s.Placed x.1 := by
    have hroot := throughout_rootItems (regional_rule ht _ m (yields_truth _ _ hm)) s.grammar.start
    intro x hx
    rcases List.mem_append.1 hx with hx | hx
    · exact placed_of_throughout hroot x.1 (List.mem_map_of_mem (List.mem_reverse.1 hx))
    · exact hitems x hx
  have hreached : (readOn s.grammar.start items pos (some m)).2 = m.stop := Nat.max_eq_right hle
  unfold parsePass at hrun
  obtain ⟨found, ν, hcall, hrun⟩ := Engine.bind_eq_ok hrun
  have hcall : s.truth height ⟨s.grammar.start, pos, 0⟩ = found := by
    cases hcall
    rfl
  rw [← hcall, hm] at hrun
  simp only [hrecover, if_true] at hrun
  split at hrun
  · cases hrun
    exact hfound
  · rename_i hlt
    cases hrun
    refine List.forall_mem_cons.2 ⟨.inr ⟨?_, rfl⟩, hfound⟩
    rw [hreached] at hlt ⊢
    exact isSkipped_of_errorSpan hspan (Nat.lt_of_not_le hlt) _

theorem placed_parseFrom (ht : Shipped s.table) (hfall : s.Falling height)
    (hrecover : s.recover = true) : ∀ (n pos : Nat) {items result : List Item} {μ μ' : Memo},
    s.parseFrom (tabled (s.truth height)) n pos items μ = .ok result μ' →
    (∀ x ∈ items, s.Placed x.1) → ∀ x ∈ result, s.Placed x.1
  | 0, _, _, _, _, _, hrun, hitems => by
    cases hrun
    exact hitems
  | n + 1, pos, items, result, μ, μ', hrun, hitems => by
    simp only [parseFrom] at hrun
    obtain ⟨⟨read, next⟩, ν, hpass, hrun⟩ := Engine.bind_eq_ok hrun
    have hread := placed_parsePass ht hfall hrecover hpass hitems
    cases next with
    | none =>
      cases hrun
      exact hread
    | some next => exact placed_parseFrom ht hfall hrecover n next hrun hread

/-- With recovery, every error node is a region or a token that was skipped on the top level. -/
theorem region_or_skipped (ht : Shipped s.table) (hfall : s.Falling height)
    (hrecover : s.recover = true) {limit : Nat} {root : Node} {μ : Memo}
    (h : s.parse limit {} = .ok root μ) : ∀ n ∈ Node.walkAll root.children, n.isError = true →
      s.IsRegion n ∨ n ∈ root.children ∧ s.IsSkipped n := by
  obtain ⟨ν, hν⟩ := parse_faithful hfall h
  unfold parseBy at hν
  obtain ⟨items, _, hitems, hν⟩ := Engine.bind_eq_ok hν
  cases hν
  have hplaced := placed_parseFrom ht hfall hrecover _ _ hitems nofun
  intro n hn herror
  obtain ⟨top, htop, hn⟩ := Node.mem_walkAll.1 hn
  obtain ⟨x, hx, rfl⟩ := List.mem_map.1 htop
  rcases hplaced x (List.mem_reverse.1 hx) with hregional | ⟨hskipped, hchildless⟩
  · exact .inl (hregional n (Node.mem_walkAll.2 ⟨_, List.mem_singleton_self _, hn⟩) herror).2
  · rw [Node.walk_eq, hchildless] at hn
    obtain rfl := List.mem_singleton.1 hn
    exact .inr ⟨htop, hskipped⟩

/-- Without recovery, nothing that was read has an error node, except the rest of the text. -/
theorem Reads.errors (hregional : ∀ key m, s.Yields (.rule key) m → m.Throughout s.Regional)
    (hrecover : s.recover = false) {pos : Nat} {items result : List Item}
    (h : s.Reads pos items result) (hitems : Node.Throughout s.Regional (items.map (·.1))) :
    Node.Throughout s.Regional (result.map (·.1)) ∨ ∃ start expected rest,
      result = (.error start s.size expected, []) :: rest ∧
        Node.Throughout s.Regional (rest.map (·.1)) := by
  cases h with
  | ended hf _ => exact .inl (throughout_readOn hregional hf hitems)
  | skipped _ _ _ hr _ =>
    rw [hrecover] at hr
    cases hr
  | dropped hf _ _ _ => exact .inr ⟨_, _, _, rfl, throughout_readOn hregional hf hitems⟩

theorem filter_isError_eq_nil (hrecover : s.recover = false) {ns : List Node}
    (h : Node.Throughout s.Regional ns) : (Node.walkAll ns).filter (·.isError) = [] := by
  refine List.filter_eq_nil_iff.2 fun n hn herror => ?_
  rw [(h n hn herror).1] at hrecover
  cases hrecover

/-- Without recovery, the only error node there can be is the last child of the root, and takes in
the rest of the text. -/
theorem filter_isError (ht : Shipped s.table) (hrecover : s.recover = false) {limit : Nat}
    {root : Node} {μ : Memo} (h : s.parse limit {} = .ok root μ) :
    (Node.walkAll root.children).filter (·.isError) = [] ∨
      ∃ last, (Node.walkAll root.children).filter (·.isError) = [last] ∧
        root.children.getLast? = some last ∧ last.stop = s.size := by
  obtain ⟨_, _, _, items, hreads, rfl⟩ :=
    (parseBy_coupled fun pos _ => matchRule_sound limit _).of_ok ⟨rfl, sound_empty⟩ h
  show (Node.walkAll (items.reverse.map (·.1))).filter (·.isError) = [] ∨ _
  rcases hreads.errors (regional_rule ht) hrecover .nil with
    hnone | ⟨start, expected, rest, rfl, hrest⟩
  · rw [← Node.Throughout.reverse_iff, ← List.map_reverse] at hnone
    exact .inl (filter_isError_eq_nil hrecover hnone)
  · refine .inr ⟨.error start s.size expected, ?_, ?_, rfl⟩
    · rw [← Node.Throughout.reverse_iff, ← List.map_reverse] at hrest
      show (Node.walkAll (List.map _ (List.reverse _))).filter _ = _
      rw [List.reverse_cons, List.map_append, Node.walkAll_append, List.filter_append,
        filter_isError_eq_nil hrecover hrest]
      rfl
    · show (List.map _ (List.reverse _)).getLast? = _
      rw [List.reverse_cons, List.map_append]
      exact List.getLast?_concat

end Session

/-- **Where error nodes come from.** In the trees of the ready-made grammars with recovery, every
error node is a region whose first token is neither a closing bracket nor a recovery stop, or a child
of the root that is a single such token. Without recovery there is one error node at most: the last
child of the root, up to the end of the text. -/
theorem ParseTable.parse_errorPlaces {table : ParseTable} (ht : Catalog.Shipped table)
    {recover strict : Bool} {text : List Char} {limit : Nat} {tree : Tree}
    (h : table.parse recover strict text limit = .ok tree) :
    (recover = true → ∀ n ∈ tree.root.walk, n.isError = true →
      Session.IsRegion ⟨table, recover, text.toArray⟩ n ∨
        n ∈ tree.root.children ∧ Session.IsSkipped ⟨table, recover, text.toArray⟩ n) ∧
    (recover = false → (tree.root.walk.filter (·.isError)).length ≤ 1 ∧
      ∀ n ∈ tree.root.walk, n.isError = true →
        tree.root.children.getLast? = some n ∧ n.stop = text.length) := by
  obtain ⟨μ, hroot⟩ := parse_eq_ok h
  have hstart : tree.root.isError = false := by
    obtain ⟨hkind, _⟩ := Session.throughout_parse (P := fun _ => True) (fun _ _ _ _ _ => trivial)
      (fun _ _ _ => trivial) hroot
    unfold Node.isError
    rw [hkind]
    show (table.grammar.start == _) = false
    rw [ht.settings.1]
    rfl
  refine ⟨fun hrecover n hn herror => ?_, fun hrecover => ?_⟩
  · rw [Node.walk_eq] at hn
    rcases List.mem_cons.1 hn with rfl | hn
    · rw [hstart] at herror
      cases herror
    · exact Session.region_or_skipped ht (Catalog.Shipped.falling ht) hrecover hroot n hn herror
  · have hwalk : tree.root.walk.filter (·.isError) =
        (Node.walkAll tree.root.children).filter (·.isError) := by
      rw [Node.walk_eq, List.filter_cons, hstart]
      rfl
    have hmem : ∀ n ∈ tree.root.walk, n.isError = true →
        n ∈ (Node.walkAll tree.root.children).filter (·.isError) :=
      fun n hn herror => hwalk ▸ List.mem_filter.2 ⟨hn, herror⟩
    rw [hwalk]
    rcases Session.filter_isError ht hrecover hroot with hnone | ⟨last, hlast, hchild, hstop⟩
    · rw [hnone] at hmem ⊢
      exact ⟨by simp, fun n hn herror => nomatch hmem n hn herror⟩
    · rw [hlast] at hmem ⊢
      refine ⟨by simp, fun n hn herror => ?_⟩
      obtain rfl := List.mem_singleton.1 (hmem n hn herror)
      exact ⟨hchild, hstop.trans (List.size_toArray ..)⟩

set_option maxRecDepth 100000 in
/-- The C grammar reads a bracket that was never opened and an operator without operands. -/
theorem Catalog.exists_stray : ∃ table tree, cTable.outcome = .ok table ∧
    table.parse true false ['\x7d', '='] 12 = .ok tree ∧
    (tree.root.walk.filter (·.isError)).map Node.span = [(0, 1), (1, 2)] ∧
    tree.diagnostics.map (fun d => (d.start, d.found)) = [(0, "\x7d"), (1, "=")] := by
  have hrun : ((cBuilt.parse true false ['\x7d', '='] 12).toOption.any fun tree => decide (
      (tree.root.walk.filter (·.isError)).map Node.span = [(0, 1), (1, 2)] ∧
      tree.diagnostics.map (fun d => (d.start, d.found)) = [(0, "\x7d"), (1, "=")])) = true := by
    decide +kernel
  obtain ⟨tree, htree, hfound⟩ := Except.exists_of_any hrun
  exact ⟨cBuilt, tree, cTable_eq, htree, of_decide_eq_true hfound⟩

/-- A bracket that was never opened, which is skipped, and an operator without operands, which is a
region. -/
theorem ParseTable.parse_errorPlaces_stray : ∃ table tree, Catalog.cTable.outcome = .ok table ∧
    table.parse true false ['\x7d', '='] 12 = .ok tree ∧
    (tree.root.walk.filter (·.isError)).map Node.span = [(0, 1), (1, 2)] ∧
    ∀ n ∈ tree.root.walk, n.isError = true →
      Session.IsRegion ⟨table, true, #['\x7d', '=']⟩ n ∨
        n ∈ tree.root.children ∧ Session.IsSkipped ⟨table, true, #['\x7d', '=']⟩ n := by
  obtain ⟨table, tree, htable, htree, hspans, _⟩ := Catalog.exists_stray
  exact ⟨table, tree, htable, htree, hspans,
    (parse_errorPlaces (.inl htable) htree).1 rfl⟩

end LayeredGrammar
