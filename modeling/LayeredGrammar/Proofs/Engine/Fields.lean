import LayeredGrammar.Proofs.Engine.Formed
import LayeredGrammar.Proofs.Engine.Outline

/-!
# Where field names end up

A field names the items of its content, and a hidden rule hands its items on with their names, so the
fields of a node can come from rules far below it. `Production.fieldsLeft` collects the names that the
items of a production can carry, given what hidden rules hand on.

A schema says for some node kinds which fields they may carry. A table abides by it if the kinds of the
schema are made by rules only, and no alternative of such a rule leaves another name
(`ParseTable.Abides`). Then no match has a node that violates the schema (`Session.Yields.abides`).
-/

namespace LayeredGrammar

/-- The fields that node kinds may carry; kinds that are not listed may carry any. -/
abbrev FieldSchema := NameTable (List String)

/-- A node carries no field that the schema does not give its kind. -/
def Node.Abides (schema : FieldSchema) (n : Node) : Prop :=
  ∀ allowed, schema.get? n.kind = some allowed → ∀ f ∈ n.fields, f.1 ∈ allowed

/-- The field names that a rule hands on with its items: a rule with a node of its own none. -/
def handedOn (passed : NameTable (List String)) (rule : String) : List String :=
  if Match.isHidden rule then (passed.get? rule).getD [] else []

/-- Whether items of a rule may carry a field name before the rule has made its node of them. -/
def mayCarry (schema : FieldSchema) (passed : NameTable (List String)) (rule name : String) : Bool :=
  if Match.isHidden rule then (handedOn passed rule).contains name
  else (schema.get? rule).all (·.contains name)

/-! ## Names that productions leave -/

namespace Production

mutual

/-- The field names that the items of a production can carry, given what hidden rules hand on. -/
def fieldsLeft (passed : NameTable (List String)) : Production → List String
  | .lit _ => []
  | .ref name => handedOn passed name
  | .seq items => fieldsLeftByAll passed items
  | .choice members => fieldsLeftByAll passed members
  | .rep p _ _ => fieldsLeft passed p
  | .opt p => fieldsLeft passed p
  | .blank => []
  | .field name p => name :: fieldsLeft passed p
  | .renamed p _ => fieldsLeft passed p
  | .prec _ p _ _ => fieldsLeft passed p

/-- The field names that the items of several productions can carry. -/
def fieldsLeftByAll (passed : NameTable (List String)) : List Production → List String
  | [] => []
  | p :: ps => fieldsLeft passed p ++ fieldsLeftByAll passed ps

end

theorem fieldsLeft_subset {passed : NameTable (List String)} {p : Production}
    {ps : List Production} (hp : p ∈ ps) : p.fieldsLeft passed ⊆ fieldsLeftByAll passed ps := by
  induction ps with
  | nil => cases hp
  | cons q ps ih =>
    rw [fieldsLeftByAll]
    rcases List.mem_cons.1 hp with rfl | hp
    · exact List.subset_append_left _ _
    · exact List.subset_append_of_subset_right _ (ih hp)

end Production

/-- The field names that the items of an element of a rule's alternative can carry. -/
def Element.fieldsLeft (passed : NameTable (List String)) (rule : String) (e : Element) :
    List String :=
  match e.selfFields with
  | some names => handedOn passed rule ++ names
  | none => e.body.fieldsLeft passed

namespace Production

/-- Whether an alternative of a rule abides by a schema: none of the kinds it gives is listed, and its
items carry only what those of the rule may carry, unless it puts them under a node. -/
def abides (schema : FieldSchema) (passed : NameTable (List String)) (rule : String)
    (p : Production) : Bool :=
  let a := Alternative.ofProduction rule 0 false p
  p.kinds.all (!schema.has ·) &&
    (a.kind.isSome ||
      (a.elements.flatMap (·.fieldsLeft passed rule)).all (mayCarry schema passed rule))

end Production

/-- A table all of whose alternatives abide by a schema. -/
def ParseTable.Abides (t : ParseTable) (schema : FieldSchema) (passed : NameTable (List String)) :
    Prop :=
  ∀ rule body p, t.grammar.rules.get? rule = some body → p ∈ body.alternatives →
    p.abides schema passed rule = true

/-! ## Matches -/

/-- A match whose items carry only certain names and whose nodes abide by a schema. -/
structure Match.Abides (schema : FieldSchema) (may : String → Prop) (m : Match) : Prop where
  names : ∀ x ∈ m.items, ∀ name ∈ x.2, may name
  nodes : m.Throughout (Node.Abides schema)

/-- A run whose items carry only certain names and whose nodes abide by a schema. -/
structure Run.Abides (schema : FieldSchema) (may : String → Prop) (r : Run) : Prop where
  names : ∀ x ∈ r.items, ∀ name ∈ x.2, may name
  nodes : r.Throughout (Node.Abides schema)

variable {schema : FieldSchema} {passed : NameTable (List String)} {may may' : String → Prop}

namespace Node

/-- A kind that is not listed may carry any field. -/
theorem abides_of_unlisted {n : Node} (h : schema.has n.kind = false) : n.Abides schema := by
  intro allowed hallowed
  exact absurd (NameTable.mem_names_of_get? hallowed) (NameTable.has_eq_false.1 h)

theorem abides_of_no_fields {n : Node} (h : n.fields = []) : n.Abides schema := by
  intro allowed _ f hf
  rw [h] at hf
  cases hf

/-- The fields of a node over items are the names of the items. -/
theorem exists_of_mem_fields {kind : String} {items : List Item} {start stop : Nat}
    {f : String × Nat} (h : f ∈ (Node.ofItems kind items start stop).fields) :
    ∃ x ∈ items, f.1 ∈ x.2 := by
  obtain ⟨⟨x, i⟩, hx, hf⟩ := List.mem_flatMap.1 h
  obtain ⟨name, hname, rfl⟩ := List.mem_map.1 hf
  exact ⟨x, List.fst_mem_of_mem_zipIdx hx, hname⟩

end Node

namespace Match.Abides

variable {m left right : Match}

theorem mono (h : m.Abides schema may) (hmay : ∀ name, may name → may' name) :
    m.Abides schema may' :=
  ⟨fun x hx name hname => hmay name (h.names x hx name hname), h.nodes⟩

theorem empty (pos : Nat) : (Match.empty pos).Abides schema may := ⟨nofun, .nil⟩

theorem withFields (h : m.Abides schema may) {names : List String} (hnames : ∀ n ∈ names, may n) :
    (m.withFields names).Abides schema may := by
  refine ⟨fun x hx name hname => ?_, (Match.throughout_withFields names).2 h.nodes⟩
  obtain ⟨⟨node, own⟩, hown, rfl⟩ := List.mem_map.1 hx
  rcases List.mem_append.1 hname with hname | hname
  · exact h.names _ hown name hname
  · exact hnames name hname

theorem join (hl : left.Abides schema may) (hr : right.Abides schema may) :
    (left.join right).Abides schema may := by
  refine ⟨fun x hx => ?_, Match.throughout_join.2 ⟨hl.nodes, hr.nodes⟩⟩
  rcases List.mem_append.1 hx with hx | hx
  · exact hl.names x hx
  · exact hr.names x hx

/-- Under a node the items lose their names to it. -/
theorem wrap (h : m.Abides schema may) {kind : String}
    (hnode : (Node.ofItems kind m.items m.start m.stop).Abides schema) :
    (m.wrap kind).Abides schema may' := by
  refine ⟨fun x hx name hname => ?_, Match.throughout_wrap h.nodes hnode⟩
  cases List.mem_singleton.1 hx
  cases hname

theorem rename (h : m.Abides schema may) (content : Production) {kind : String}
    (hkind : schema.has kind = false) : (m.rename content kind).Abides schema may := by
  refine ⟨?_, Match.throughout_rename h.nodes (Node.abides_of_unlisted hkind)
    fun _ _ _ => Node.abides_of_unlisted hkind⟩
  obtain ⟨node, names, hitems, _, heq⟩ | heq := Match.rename_cases content kind m <;> rw [heq]
  · intro x hx
    cases List.mem_singleton.1 hx
    exact h.names (node, names) (hitems ▸ List.mem_singleton.2 rfl)
  · have hwrap : (m.wrap kind).Abides schema may := h.wrap (Node.abides_of_unlisted hkind)
    exact hwrap.names

/-- The node of a rule takes the names that items of the rule may carry. -/
theorem finish {rule : String} (h : m.Abides schema (mayCarry schema passed rule · = true)) :
    (m.finish rule).Abides schema (· ∈ handedOn passed rule) := by
  have hnode : isHidden rule = false →
      (Node.ofItems rule m.items m.start m.stop).Abides schema := by
    intro hvisible allowed hallowed f hf
    obtain ⟨x, hx, hname⟩ := Node.exists_of_mem_fields hf
    have hmay := h.names x hx _ hname
    unfold mayCarry at hmay
    rw [hvisible, if_neg Bool.false_ne_true,
      show schema.get? rule = some allowed from hallowed] at hmay
    exact List.contains_iff_mem.1 hmay
  refine ⟨?_, Match.throughout_finish h.nodes hnode fun _ _ _ _ _ => Node.abides_of_no_fields rfl⟩
  cases hhidden : isHidden rule with
  | true =>
    intro x hx name hname
    have hmay := h.names x (by rwa [Match.finish, hhidden, if_pos rfl] at hx) name hname
    unfold mayCarry at hmay
    rw [hhidden, if_pos rfl] at hmay
    exact List.contains_iff_mem.1 hmay
  | false =>
    intro x hx name hname
    obtain ⟨n, hitems, _⟩ := Match.items_finish hhidden m
    rw [hitems] at hx
    cases List.mem_singleton.1 hx
    cases hname

theorem dress (h : m.Abides schema may) {a : Alternative}
    (hkind : ∀ kind, a.kind = some kind → schema.has kind = false)
    (hmay : a.kind = none → ∀ name, may name → may' name) :
    (Session.dress a m).Abides schema may' := by
  have hnodes := Match.throughout_dress h.nodes fun kind hk => Node.abides_of_unlisted (hkind kind hk)
  refine ⟨fun x hx name hname => ?_, hnodes⟩
  cases hk : a.kind with
  | none =>
    rw [Match.items_dress_of_none hk] at hx
    exact hmay hk name (h.names x hx name hname)
  | some kind =>
    rw [Match.items_dress hk] at hx
    cases List.mem_singleton.1 hx
    cases hname

end Match.Abides

namespace Run.Abides

variable {r : Run} {m : Match}

theorem begin (pos : Nat) : (Run.begin pos).Abides schema may := ⟨nofun, Run.throughout_begin pos⟩

theorem take (h : r.Abides schema may) (hm : m.Abides schema may) :
    (r.take m).Abides schema may := by
  refine ⟨fun x hx => ?_, h.nodes.take hm.nodes⟩
  rcases List.mem_append.1 hx with hx | hx
  · exact hm.names x (List.mem_reverse.1 hx)
  · exact h.names x hx

theorem push (h : r.Abides schema may) (hm : m.Abides schema may) :
    (r.push m).Abides schema may := by
  unfold Run.push
  split
  · exact ⟨h.names, h.nodes⟩
  · exact h.take hm

theorem pushError (h : r.Abides schema may) (start stop : Nat) (expected : List String) :
    (r.pushError start stop expected).Abides schema may := by
  refine ⟨fun x hx => ?_, h.nodes.pushError (Node.abides_of_no_fields rfl)⟩
  rcases List.mem_cons.1 hx with rfl | hx
  · exact nofun
  · exact h.names x hx

theorem toMatch (h : r.Abides schema may) : r.toMatch.Abides schema may :=
  ⟨fun x hx => h.names x (List.mem_reverse.1 hx), h.nodes.toMatch⟩

end Run.Abides

/-! ## What the engine finds -/

namespace Session

variable {s : Session}

/-- None of the kinds that a production gives is listed in a schema. -/
def Unlisted (schema : FieldSchema) (p : Production) : Prop :=
  ∀ kind ∈ p.kinds, schema.has kind = false

theorem Unlisted.below {p q : Production} (h : Unlisted schema p)
    (hq : ∀ r ∈ q.walk, r ∈ p.walk) : Unlisted schema q :=
  fun kind hkind => h kind (Production.kinds_subset hq hkind)

/-- What a match should be for each kind of task, where the productions of the task give kinds that
the schema does not list. -/
def Task.Abides (schema : FieldSchema) (passed : NameTable (List String)) : Task → Match → Prop
  | .production p _, m => Unlisted schema p → m.Abides schema (· ∈ p.fieldsLeft passed)
  | .items ps run, m => ∀ may : String → Prop, (∀ p ∈ ps, Unlisted schema p) →
      (∀ p ∈ ps, ∀ name ∈ p.fieldsLeft passed, may name) → run.Abides schema may →
      m.Abides schema may
  | .rounds content _ _ _ run, m => Unlisted schema content →
      run.Abides schema (· ∈ content.fieldsLeft passed) →
      m.Abides schema (· ∈ content.fieldsLeft passed)
  | .element owner _ e _, m => Unlisted schema e.body →
      m.Abides schema (· ∈ e.fieldsLeft passed owner)
  | .elements owner _ es run, m => ∀ may : String → Prop, (∀ e ∈ es, Unlisted schema e.body) →
      (∀ e ∈ es, ∀ name ∈ e.fieldsLeft passed owner, may name) → run.Abides schema may →
      m.Abides schema may
  | .growth owner _ left, m => left.Abides schema (mayCarry schema passed owner · = true) →
      m.Abides schema (mayCarry schema passed owner · = true)
  | .rule key, m => m.Abides schema (· ∈ handedOn passed key.rule)

/-- The field names that elements of an alternative may leave: any under a node of the alternative,
else those that items of the rule may carry. -/
def MayLeave (schema : FieldSchema) (passed : NameTable (List String)) (rule : String)
    (a : Alternative) (name : String) : Prop :=
  a.kind = none → mayCarry schema passed rule name = true

/-- What is checked of an alternative that a table offers. -/
theorem abides_of_offers (ht : s.table.Abides schema passed) {rule : String} {a : Alternative}
    (h : s.table.Offers rule a) : (∀ e ∈ a.elements, Unlisted schema e.body) ∧
      (∀ kind, a.kind = some kind → schema.has kind = false) ∧
      ∀ e ∈ a.elements, ∀ name ∈ e.fieldsLeft passed rule, MayLeave schema passed rule a name := by
  obtain ⟨body, index, layered, p, hb, hp, rfl⟩ := h
  have habides := ht rule body p hb hp
  unfold Production.abides at habides
  rw [Bool.and_eq_true, Bool.or_eq_true, List.all_eq_true] at habides
  obtain ⟨hkinds, hleft⟩ := habides
  have hkinds : Unlisted schema p := fun kind hkind => by simpa using hkinds kind hkind
  refine ⟨fun e he => hkinds.below fun q hq => Alternative.walk_of_element he hq,
    fun kind hk => hkinds kind (Alternative.kind_mem hk), fun e he name hname hk => ?_⟩
  have hnone : ¬((Alternative.ofProduction rule 0 false p).kind.isSome = true) := by
    rw [show (Alternative.ofProduction rule 0 false p).kind = none from hk]
    exact Bool.false_ne_true
  exact List.all_eq_true.1 (hleft.resolve_left hnone) name
    (List.mem_flatMap.2 ⟨e, he, hname⟩)

/-- The field names around the reference that an alternative starts with. -/
theorem mem_fieldsLeft_of_leadFields {a : Alternative} {rule name : String}
    (h : name ∈ a.leadFields) : ∃ e ∈ a.elements, name ∈ e.fieldsLeft passed rule := by
  unfold Alternative.leadFields at h
  cases hes : a.elements with
  | nil =>
    rw [hes] at h
    cases h
  | cons e es =>
    refine ⟨e, List.mem_cons_self, ?_⟩
    rw [hes] at h
    unfold Element.fieldsLeft
    cases hself : e.selfFields with
    | none => simp [hself] at h
    | some names =>
      simp only [List.head?_cons, Option.bind_some, hself, Option.getD_some] at h
      exact List.mem_append_right _ h

/-- **No match violates the schema**: its items carry only names that its production leaves, and its
nodes only fields that the schema gives their kinds. -/
theorem Yields.abides (hb : s.table.Built) (ht : s.table.Abides schema passed) {t : Task} {m : Match}
    (h : s.Yields t m) : t.Abides schema passed m := by
  induction h with
  | lit h =>
    obtain ⟨l, _, _, rfl⟩ := matchLiteral_eq_some h
    intro _
    refine ⟨fun x hx => ?_, Node.Throughout.single_iff.2 ⟨Node.abides_of_no_fields rfl, .nil⟩⟩
    cases List.mem_singleton.1 hx
    exact nofun
  | token _ h =>
    obtain ⟨stop, _, _, _, rfl⟩ := matchToken_eq_some h
    intro _
    refine ⟨fun x hx => ?_, Node.Throughout.single_iff.2 ⟨Node.abides_of_no_fields rfl, .nil⟩⟩
    cases List.mem_singleton.1 hx
    exact nofun
  | ref _ _ ih => exact fun _ => ih
  | seq _ ih =>
    intro hk
    refine ih _ (fun p hp => hk.below fun q hq => ?_)
      (fun p hp name hname => Production.fieldsLeft_subset hp hname) (.begin _)
    exact List.mem_cons_of_mem _ (Production.mem_walkAll.2 ⟨p, hp, hq⟩)
  | choice hp _ ih =>
    intro hk
    have hbelow := hk.below fun q hq =>
      List.mem_cons_of_mem _ (Production.mem_walkAll.2 ⟨_, hp, hq⟩)
    exact (ih hbelow).mono fun name hname => Production.fieldsLeft_subset hp hname
  | rep _ ih => exact fun hk => ih (hk.below fun q => List.mem_cons_of_mem _) (.begin _)
  | opt _ ih => exact fun hk => ih (hk.below fun q => List.mem_cons_of_mem _)
  | omitted => exact fun _ => .empty _
  | blank => exact fun _ => .empty _
  | @field name content _ _ _ ih =>
    intro hk
    have hinner := ih (hk.below fun q => List.mem_cons_of_mem _)
    refine (hinner.mono fun _ => List.mem_cons_of_mem name).withFields fun n hn => ?_
    cases List.mem_singleton.1 hn
    exact List.mem_cons_self
  | @renamed content kind _ _ _ ih =>
    intro hk
    have hkind := hk kind (Production.mem_kinds.2 ⟨content, List.mem_cons_self⟩)
    exact (ih (hk.below fun q => List.mem_cons_of_mem _)).rename content hkind
  | prec _ ih => exact fun hk => ih (hk.below fun q => List.mem_cons_of_mem _)
  | itemsDone => exact fun _ _ _ hr => hr.toMatch
  | itemsNext _ _ ih ih' =>
    intro may hk hmay hr
    obtain ⟨hk, hks⟩ := List.forall_mem_cons.1 hk
    obtain ⟨hmay, hmays⟩ := List.forall_mem_cons.1 hmay
    exact ih' may hks hmays (hr.push ((ih hk).mono hmay))
  | roundsDone _ => exact fun _ hr => hr.toMatch
  | round _ _ _ ih ih' => exact fun hk hr => ih' hk (hr.take (ih hk))
  | region _ _ ih' => exact fun hk hr => ih' hk (hr.pushError _ _ _)
  | @selfElement rule minPrec e pos names m he _ ih =>
    intro _
    have hleft : e.fieldsLeft passed rule = handedOn passed rule ++ names := by
      unfold Element.fieldsLeft
      rw [he]
    rw [hleft]
    refine (ih.mono fun name hname => ?_).withFields fun name hname => ?_
    · exact List.mem_append_left _ hname
    · exact List.mem_append_right _ hname
  | @bodyElement rule minPrec e pos m he _ ih =>
    intro hk
    have hleft : e.fieldsLeft passed rule = e.body.fieldsLeft passed := by
      unfold Element.fieldsLeft
      rw [he]
    rw [hleft]
    exact ih hk
  | elementsDone => exact fun _ _ _ hr => hr.toMatch
  | elementsNext _ _ ih ih' =>
    intro may hk hmay hr
    obtain ⟨hk, hks⟩ := List.forall_mem_cons.1 hk
    obtain ⟨hmay, hmays⟩ := List.forall_mem_cons.1 hmay
    exact ih' may hks hmays (hr.push ((ih hk).mono hmay))
  | grown => exact fun h => h
  | @grow rule minPrec alts a left right m htable ha _ _ _ _ ih ih' =>
    intro hleft
    obtain ⟨hk, hkind, hmay⟩ := abides_of_offers ht (hb.offers_growing htable ha).1
    have hright := ih (MayLeave schema passed rule a) (fun e he => hk e (List.mem_of_mem_drop he))
      (fun e he => hmay e (List.mem_of_mem_drop he)) (.begin _)
    have hlead : (left.withFields a.leadFields).Abides schema (MayLeave schema passed rule a) := by
      refine (hleft.mono fun name hname _ => hname).withFields fun name hname => ?_
      obtain ⟨e, he, hname⟩ := mem_fieldsLeft_of_leadFields hname
      exact hmay e he name hname
    exact ih' ((hlead.join hright).dress hkind fun hnone name hname => hname hnone)
  | rule htable ha _ _ ih ih' =>
    obtain ⟨hk, hkind, hmay⟩ := abides_of_offers ht (hb.offers_seed htable ha).1
    have hseed := ih _ hk hmay (.begin _)
    exact (ih' (hseed.dress hkind fun hnone name hname => hname hnone)).finish

end Session

end LayeredGrammar
