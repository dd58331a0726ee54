import LayeredGrammar.Catalog.Schema
import LayeredGrammar.Proofs.Catalog.Buildable
import LayeredGrammar.Proofs.Catalog.Shipped
import LayeredGrammar.Proofs.Engine.Fields
import LayeredGrammar.Proofs.Termination
import LayeredGrammar.Proofs.Tiling

/-!
# Fields are stable

Whatever the text, a tree of the Objective-C grammar has no field violations: no node of a kind in the
field schema carries a field that the schema does not give it (`ParseTable.parse_fieldViolations`).

Only three hidden rules hand field names on (`Catalog.passedFields`), and with these every declared
alternative abides by the schema. What holds of the nodes of every match holds of the whole tree below
the root (`Session.throughout_parse`).
-/

namespace LayeredGrammar

namespace Session

variable {s : Session} {P : Node → Prop}

/-! ## Whole texts -/

theorem throughout_rootItems {m : Match} (h : m.Throughout P) (start : String) :
    Node.Throughout P ((rootItems start m).map (·.1)) := by
  have hitems : ∀ items : List Item, Node.Throughout P (items.map (·.1)) →
      Node.Throughout P ((rootItems start { m with items := items }).map (·.1)) := by
    intro items
    induction items with
    | nil => exact fun h => h
    | cons x items ih =>
      intro h
      obtain ⟨node, names⟩ := x
      obtain ⟨hnode, hbelow, hrest⟩ := Node.Throughout.cons_iff.1 h
      have hcons : rootItems start { m with items := (node, names) :: items } =
          (if node.kind = start then node.children.zipIdx.map fun x => (x.1, node.fieldNamesOf x.2)
            else [(node, names)]) ++ rootItems start { m with items := items } := rfl
      rw [hcons, List.map_append, Node.Throughout.append_iff]
      refine ⟨?_, ih hrest⟩
      split
      · rw [List.map_map]
        exact (List.zipIdx_map_fst _ _).symm ▸ hbelow
      · exact Node.Throughout.single_iff.2 ⟨hnode, hbelow⟩
  exact hitems m.items h

theorem throughout_readOn (hrule : ∀ key m, s.Yields (.rule key) m → m.Throughout P) {pos : Nat}
    {items : List Item} {found : Option Match}
    (hf : ∀ m ∈ found, s.Yields (.rule ⟨s.grammar.start, pos, 0⟩) m)
    (h : Node.Throughout P (items.map (·.1))) :
    Node.Throughout P ((readOn s.grammar.start items pos found).1.map (·.1)) := by
  cases found with
  | none => exact h
  | some m =>
    have hm := throughout_rootItems (hrule _ m (hf m rfl)) s.grammar.start
    simp only [readOn, List.map_append, List.map_reverse, Node.Throughout.append_iff,
      Node.Throughout.reverse_iff]
    exact ⟨hm, h⟩

/-- What holds of the nodes of every match and of error regions holds of all that is read. -/
theorem Reads.throughout (hrule : ∀ key m, s.Yields (.rule key) m → m.Throughout P)
    (herror : ∀ start stop expected, P (Node.error start stop expected)) {pos : Nat}
    {items result : List Item} (h : s.Reads pos items result)
    (hitems : Node.Throughout P (items.map (·.1))) : Node.Throughout P (result.map (·.1)) := by
  induction h with
  | ended hf _ => exact throughout_readOn hrule hf hitems
  | skipped hf _ _ _ _ ih =>
    refine ih (Node.Throughout.cons_iff.2 ⟨herror _ _ _, .nil, ?_⟩)
    exact throughout_readOn hrule hf hitems
  | dropped hf _ _ _ =>
    exact Node.Throughout.cons_iff.2 ⟨herror _ _ _, .nil, throughout_readOn hrule hf hitems⟩

/-- What holds of the nodes of every match and of error regions holds below the root. -/
theorem throughout_parse (hrule : ∀ key m, s.Yields (.rule key) m → m.Throughout P)
    (herror : ∀ start stop expected, P (Node.error start stop expected)) {limit : Nat} {root : Node}
    {μ : Memo} (h : s.parse limit {} = .ok root μ) :
    root.kind = s.grammar.start ∧ Node.Throughout P root.children := by
  obtain ⟨_, _, _, items, hreads, rfl⟩ :=
    (parseBy_coupled fun pos _ => matchRule_sound limit _).of_ok ⟨rfl, sound_empty⟩ h
  have hnodes := hreads.throughout hrule herror .nil
  refine ⟨rfl, ?_⟩
  show Node.Throughout P (items.reverse.map (·.1))
  rw [List.map_reverse, Node.Throughout.reverse_iff]
  exact hnodes

end Session

/-! ## The Objective-C grammar -/

namespace Catalog

/-- The field names that hidden rules hand on. -/
def passedFields : NameTable (List String) :=
  [("_declaration_specifiers", ["type"]), ("_name", ["name"]),
   ("_superclass_reference", ["superclass"])]

set_option maxRecDepth 100000 in
theorem abides_declared :
    (declared.all fun d => d.2.abides fieldSchema passedFields d.1) = true := by decide +kernel

/-- Both ready-made grammars abide by the field schema. -/
theorem Shipped.abides {t : ParseTable} (h : Shipped t) : t.Abides fieldSchema passedFields := by
  intro rule body p hb hp
  exact List.all_eq_true.1 abides_declared _ (h.mem_declared hb hp)

/-- A tree all of whose nodes abide by the schema has no violations. -/
theorem fieldViolations_eq_nil {root : Node} (h : ∀ n ∈ root.walk, n.Abides fieldSchema) :
    fieldViolations root = [] := by
  refine List.flatMap_eq_nil_iff.2 fun n hn => ?_
  cases hschema : fieldSchema.get? n.kind with
  | none => rfl
  | some allowed =>
    simp only [List.map_eq_nil_iff, List.filter_eq_nil_iff]
    intro name hname
    obtain ⟨f, hf, rfl⟩ := List.mem_map.1 (List.mem_eraseDups.1 hname)
    simp [h n hn allowed hschema f hf]

end Catalog

/-- **Fields are stable.** Whatever the text and whether or not errors are recovered from or allowed,
no node of a tree of the Objective-C grammar carries a field that the schema does not give its
kind. -/
theorem ParseTable.parse_fieldViolations {table : ParseTable}
    (ht : Catalog.objcTable.outcome = .ok table) {recover strict : Bool} {text : List Char}
    {limit : Nat} {tree : Tree} (h : table.parse recover strict text limit = .ok tree) :
    Catalog.fieldViolations tree.root = [] := by
  have hshipped : Catalog.Shipped table := Or.inr ht
  obtain ⟨μ, hroot⟩ := parse_eq_ok h
  have hrule : ∀ key m, Session.Yields ⟨table, recover, text.toArray⟩ (.rule key) m →
      m.Throughout (Node.Abides Catalog.fieldSchema) := by
    intro key m hm
    exact (hm.abides hshipped.built hshipped.abides).nodes
  obtain ⟨hkind, hnodes⟩ := Session.throughout_parse hrule
    (fun _ _ _ => Node.abides_of_no_fields rfl) hroot
  refine Catalog.fieldViolations_eq_nil fun n hn => ?_
  rw [Node.walk_eq] at hn
  rcases List.mem_cons.1 hn with rfl | hn
  · refine Node.abides_of_unlisted ?_
    rw [hkind]
    show Catalog.fieldSchema.has table.grammar.start = false
    rw [hshipped.settings.1]
    decide
  · exact hnodes n hn

/-- A protocol. The grammar builds, and within the depth bound every text has a tree. -/
theorem ParseTable.parse_fieldViolations_protocol : ∃ table tree limit,
    Catalog.objcTable.outcome = .ok table ∧
    table.parse true false "@protocol P @end".toList limit = .ok tree ∧
    Catalog.fieldViolations tree.root = [] := by
  obtain ⟨table, htable⟩ := Catalog.exists_objcTable
  let s : Session := ⟨table, true, "@protocol P @end".toList.toArray⟩
  obtain ⟨root, hroot⟩ := Session.parse_eq_ok (s := s) (built htable)
  obtain ⟨μ, hrun⟩ := hroot s.depthBound (Nat.le_refl _)
  have htree : table.parse true false "@protocol P @end".toList s.depthBound =
      .ok ⟨root, "@protocol P @end".toList⟩ := by
    unfold parse
    rw [hrun]
  exact ⟨table, _, _, htable, htree, parse_fieldViolations htable htree⟩

end LayeredGrammar
