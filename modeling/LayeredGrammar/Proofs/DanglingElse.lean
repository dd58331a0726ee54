import LayeredGrammar.Proofs.Catalog.Bodies
import LayeredGrammar.Proofs.Catalog.Operators
import LayeredGrammar.Proofs.Engine.Bare
import LayeredGrammar.Proofs.Engine.Guarded
import LayeredGrammar.Proofs.Engine.Origins
import LayeredGrammar.Proofs.Engine.Outline
import LayeredGrammar.Proofs.Engine.Readings
import LayeredGrammar.Proofs.FieldStability

/-!
# Dangling `else`

In the trees of the ready-made grammars an `else` belongs to the nearest `if` statement that can have
it: no `if` statement without an alternative ends where the consequence of one with an alternative
ends (`ParseTable.parse_elseNearest`).

The `else` clause of an `if` statement is tried where its consequence ends, and what is found there
depends on nothing but the position (`Session.elseAt`). So of all `if` statements whose consequences
end at one position, either all have an `else` clause or none has (`Session.Attached`,
`Session.guarded_attached`).
-/

namespace LayeredGrammar

/-! ## Children that fields name -/

namespace Node

theorem mem_children_of_mem_under {n c : Node} {name : String} (h : c ∈ n.under name) :
    c ∈ n.children := by
  obtain ⟨i, _, hi⟩ := exists_of_mem_under h
  exact List.mem_of_getElem? hi

/-- What is below something below a node is below the node. -/
theorem walk_trans : ∀ (n : Node) {c m : Node}, c ∈ n.walk → m ∈ c.walk → m ∈ n.walk
  | n, c, m, hc, hm => by
    rw [walk_eq] at hc
    rcases List.mem_cons.1 hc with rfl | hc
    · exact hm
    · obtain ⟨child, hchild, hc⟩ := mem_walkAll.1 hc
      have hlt : sizeOf child < sizeOf n := by
        cases n
        have := List.sizeOf_lt_of_mem hchild
        simp only [mk.sizeOf_spec] at this ⊢
        omega
      rw [walk_eq]
      exact List.mem_cons_of_mem _ (mem_walkAll.2 ⟨child, hchild, walk_trans child hc hm⟩)
termination_by n => sizeOf n

end Node

namespace Session

open Catalog

variable {s : Session} {answers : MemoKey → Option Match} {height : MemoKey → Nat} {pos : Nat}
  {m : Match}

/-! ## Statements -/

/-- A hidden rule that only refers to others leaves one node if they do. -/
theorem single_of_refs (hb : s.table.Built) {rule : String} (hrule : Match.isHidden rule = true)
    (hrefs : ∀ a, s.table.Offers rule a → a.kind = none ∧ ∃ name, a.elements = [⟨.ref name, none⟩] ∧
      ∀ {pos m}, s.Yields (.production (.ref name) pos) m → ∃ n, m.items = [(n, [])])
    (h : s.Yields (.production (.ref rule) pos) m) : ∃ n, m.items = [(n, [])] := by
  cases h with
  | token _ h =>
    obtain ⟨stop, _, _, _, rfl⟩ := matchToken_eq_some h
    exact ⟨_, rfl⟩
  | ref _ h =>
    cases h with
    | @rule _ _ a seed m htable ha hseed hgrown =>
      obtain ⟨hkind, name, helements, hsingle⟩ := hrefs a (hb.offers_seed htable ha).1
      rw [helements] at hseed
      have hitems : ∃ n, seed.items = [(n, [])] := by
        cases hseed with
        | elementsNext h h' =>
          cases h with
          | selfElement hself _ => cases hself
          | bodyElement _ h =>
            cases h'
            obtain ⟨n, hn⟩ := hsingle h
            exact ⟨n, (Run.items_push_begin pos _).trans hn⟩
      have hm : m = dress a seed := by
        refine hgrown.growth_eq hb fun b hoffers => ?_
        obtain ⟨_, _, helements', _⟩ := hrefs b hoffers
        unfold Alternative.startsWithSelf
        rw [helements']
        rfl
      obtain ⟨n, hn⟩ := hitems
      refine ⟨n, ?_⟩
      rw [Match.finish_of_hidden m hrule, hm, Match.items_dress_of_none hkind, hn]

/-- A statement is one node, and ends where that node ends. -/
theorem statement_node (ht : Shipped s.table)
    (h : s.Yields (.production (.ref "_statement") pos) m) :
    ∃ n, m.items = [(n, [])] ∧ n.stop = m.stop := by
  have hnonCase : ∀ {pos m}, s.Yields (.production (.ref "_non_case_statement") pos) m →
      ∃ n, m.items = [(n, [])] := by
    intro pos m h
    refine single_of_refs ht.built (by decide) (fun a ha => ?_) h
    obtain ⟨hkind, name, hname, helements⟩ := ht.nonCaseStatement ha
    refine ⟨hkind, name, helements, fun h => ?_⟩
    obtain ⟨n, hn, _⟩ := fits_ref hname h
    exact ⟨n, hn⟩
  have hsingle : ∃ n, m.items = [(n, [])] := by
    refine single_of_refs ht.built (by decide) (fun a ha => ?_) h
    obtain ⟨hkind, name, hname, helements⟩ := ht.statement ha
    refine ⟨hkind, name, helements, ?_⟩
    rcases List.mem_pair.1 hname with rfl | rfl
    · intro pos m h
      obtain ⟨n, hn, _⟩ := fits_ref (by decide) h
      exact ⟨n, hn⟩
    · exact hnonCase
  obtain ⟨n, hn⟩ := hsingle
  obtain ⟨hb, hr, hs, hskip, _⟩ := certified ht
  have htiled : m.Tiled s pos := by
    refine h.tiled hb hr hs hskip fun q hq => ?_
    obtain rfl := List.mem_singleton.1 hq
    decide
  have hlast := htiled.tiles.getLast_stop
  rw [hn] at hlast
  exact ⟨n, hn, hlast n rfl⟩

/-! ## `if` statements -/

/-- The `else` clause that an `if` statement finds at a position. -/
def elseAt (s : Session) (answers : MemoKey → Option Match) (pos : Nat) : Option Match :=
  s.readProduction answers "if_statement" elseClause pos

/-- The items of an `if` statement up to its consequence. -/
def conditionalItems (word condition consequence : Node) : List Item :=
  [(word, []), (condition, ["condition"]), (consequence, ["consequence"])]

/-- A literal leaves one item without field names. -/
theorem items_of_lit (ht : s.Truthful answers) {owner value : String}
    (h : s.readProduction answers owner (.lit value) pos = some m) : ∃ n, m.items = [(n, [])] := by
  obtain ⟨⟨n, names⟩, hitems, hnames, _⟩ :=
    Yields.fits (.lit value) rfl (yields_readProduction ht h)
  obtain rfl : names = [] := hnames
  exact ⟨n, hitems⟩

/-- A statement in a field leaves one item. -/
theorem items_of_statement (hs : Shipped s.table) (ht : s.Truthful answers) {owner name : String}
    (h : s.readProduction answers owner (.field name (.ref "_statement")) pos = some m) :
    ∃ n, m.items = [(n, [name])] ∧ n.stop = m.stop := by
  rw [readProduction_field ht] at h
  obtain ⟨inner, hinner, rfl⟩ := Option.map_eq_some_iff.1 h
  obtain ⟨n, hitems, hstop⟩ := statement_node hs (yields_readProduction ht hinner)
  exact ⟨n, Match.items_withFields hitems [name], hstop⟩

/-- An `else` clause leaves the word and the alternative. -/
theorem items_of_elseAt (hs : Shipped s.table) (ht : s.Truthful answers)
    (h : s.elseAt answers pos = some m) :
    ∃ word alternative, m.items = [(word, []), (alternative, ["alternative"])] := by
  unfold elseAt elseClause at h
  rw [readProduction_seq, readItems_cons ht] at h
  obtain ⟨first, hfirst, h⟩ := Option.bind_eq_some_iff.1 h
  rw [readItems_cons ht] at h
  obtain ⟨second, hsecond, h⟩ := Option.bind_eq_some_iff.1 h
  cases h
  obtain ⟨word, hword⟩ := items_of_lit ht hfirst
  obtain ⟨alternative, halternative, _⟩ := items_of_statement hs ht hsecond
  refine ⟨word, alternative, ?_⟩
  show List.reverse (Run.items _) = _
  rw [items_push, items_push, hword, halternative]
  rfl

/-- **What an `if` statement is made of.** The `else` clause is there if one is found where the
consequence ends; else the statement ends there. -/
theorem conditional_items (hs : Shipped s.table) (ht : s.Truthful answers) {rightMin : Int}
    {seed : Match} (h : s.inRow answers "if_statement" rightMin
      (conditionalParts.map (⟨·, none⟩)) pos = some seed) :
    ∃ word condition consequence,
      (s.elseAt answers consequence.stop = none ∧ seed.stop = consequence.stop ∧
        seed.items = conditionalItems word condition consequence) ∨
      ((s.elseAt answers consequence.stop).isSome = true ∧ ∃ word' alternative,
        seed.items = conditionalItems word condition consequence ++
          [(word', []), (alternative, ["alternative"])]) := by
  change s.readElements answers _ _ (conditionalParts.map (⟨·, none⟩)) (.begin pos) = _ at h
  simp only [conditionalParts, List.map_cons, List.map_nil] at h
  rw [readElements_cons ht _ _ rfl] at h
  obtain ⟨m₁, h₁, h⟩ := Option.bind_eq_some_iff.1 h
  rw [readElements_cons ht _ _ rfl] at h
  obtain ⟨m₂, h₂, h⟩ := Option.bind_eq_some_iff.1 h
  rw [readElements_cons ht _ _ rfl] at h
  obtain ⟨m₃, h₃, h⟩ := Option.bind_eq_some_iff.1 h
  rw [readElements_cons ht _ _ rfl] at h
  obtain ⟨m₄, h₄, h⟩ := Option.bind_eq_some_iff.1 h
  cases h
  obtain ⟨word, hword⟩ := items_of_lit ht h₁
  obtain ⟨⟨condition, names⟩, hcondition, hnames, _⟩ := Yields.fits
    (.field "condition" (.ref "parenthesized_expression")) rfl (yields_readProduction ht h₂)
  obtain rfl : names = ["condition"] := hnames
  obtain ⟨consequence, hconsequence, hstop⟩ := items_of_statement hs ht h₃
  -- what has been read up to the `else` clause
  have hcursor : ((((Run.begin pos).push m₁).push m₂).push m₃).cursor = consequence.stop := by
    rw [cursor_push_eq (yields_readProduction ht h₃).proper, hstop]
  have hitems : ((((Run.begin pos).push m₁).push m₂).push m₃).items.reverse =
      conditionalItems word condition consequence := by
    rw [items_push, items_push, items_push, hword, hcondition, hconsequence]
    rfl
  rw [readProduction_opt ht, hcursor] at h₄
  refine ⟨word, condition, consequence, ?_⟩
  cases helse : s.elseAt answers consequence.stop with
  | none =>
    have hempty : m₄ = .empty consequence.stop := by
      unfold elseAt at helse
      rw [helse] at h₄
      exact (Option.some.inj h₄).symm
    rw [hempty]
    exact .inl ⟨rfl, hcursor, hitems⟩
  | some clause =>
    have hclause : m₄ = clause := by
      unfold elseAt at helse
      rw [helse] at h₄
      exact (Option.some.inj h₄).symm
    obtain ⟨word', alternative, halternative⟩ := items_of_elseAt hs ht helse
    refine .inr ⟨rfl, word', alternative, ?_⟩
    show List.reverse (Run.items _) = _
    rw [hclause, items_push, hitems, halternative]

/-! ## Nodes -/

/-- An `if` statement has an `else` clause if one is found where its consequence ends. -/
def Attached (s : Session) (answers : MemoKey → Option Match) (n : Node) : Prop :=
  n.kind = "if_statement" → n.children ≠ [] →
    (n.under "alternative" ≠ [] ∧
      ∀ c ∈ n.under "consequence", (s.elseAt answers c.stop).isSome = true) ∨
    (n.under "alternative" = [] ∧ s.elseAt answers n.stop = none)

theorem attached_of_conditional (hs : Shipped s.table) (ht : s.Truthful answers) {rightMin : Int}
    {seed : Match} (h : s.inRow answers "if_statement" rightMin
      (conditionalParts.map (⟨·, none⟩)) pos = some seed) (start : Nat) :
    s.Attached answers (.ofItems "if_statement" seed.items start seed.stop) := by
  intro _ _
  obtain ⟨word, condition, consequence, hparts⟩ := conditional_items hs ht h
  rcases hparts with ⟨helse, hstop, hitems⟩ | ⟨helse, word', alternative, hitems⟩
  · refine .inr ⟨?_, ?_⟩
    · rw [hitems]
      rfl
    · show s.elseAt answers seed.stop = none
      rw [hstop]
      exact helse
  · refine .inl ⟨?_, ?_⟩
    · rw [hitems]
      exact List.cons_ne_nil alternative []
    · rw [hitems]
      intro c hc
      obtain rfl : c = consequence := List.mem_singleton.1 hc
      exact helse

theorem startsWithSelf_conditional {t : ParseTable} (hs : Shipped t) {a : Alternative}
    (ha : t.Offers "if_statement" a) : a.startsWithSelf = false := by
  unfold Alternative.startsWithSelf
  rw [(hs.conditional ha).2]
  rfl

/-- **Of `if` statements whose consequences end at one position, all have an `else` clause or none
has.** -/
theorem guarded_attached (hs : Shipped s.table) (hfall : s.Falling height) :
    s.Guarded height (s.Attached (s.truth height)) (· = "if_statement") where
  plain _ hkind := fun h => absurd h hkind
  leaf _ _ _ _ := fun _ hne => absurd rfl hne
  error := by decide
  built := hs.built
  falling := hfall
  elements := by
    rintro rule a ha e he _ hkind rfl
    exact (hs.ownKind_apart (by decide)).2.2 (ha.kinds_element he hkind)
  start := by
    show s.table.grammar.start ≠ "if_statement"
    rw [hs.settings.1]
    decide
  seed := by
    rintro k alts a seed left hgrows _ hkind rfl
    have hoffers := (hs.built.offers_seed hgrows.table hgrows.mem).1
    exact absurd (hoffers.kind_mem hkind) (hs.ownKind_apart (by decide)).2.2
  growth := by
    rintro k alts a seed left left' b right hgrows _ hb _ _ _ hkind rfl
    have hoffers := (hs.built.offers_growing hgrows.table (List.mem_append.1 hb)).1
    exact absurd (hoffers.kind_mem hkind) (hs.ownKind_apart (by decide)).2.2
  rule := by
    intro k alts a seed left hgrows hrule
    have hoffers := (hs.built.offers_seed hgrows.table hgrows.mem).1
    have hleft : left = dress a seed := by
      refine hgrows.left_eq hs.built fun b hb => ?_
      rw [hrule] at hb
      exact startsWithSelf_conditional hs hb
    rw [hrule] at hoffers
    obtain ⟨hkind, helements⟩ := hs.conditional hoffers
    have hbegins := hgrows.begins
    rw [hrule, helements] at hbegins
    rw [hrule, hleft, Match.items_dress_of_none hkind, stop_dress]
    exact attached_of_conditional hs truthful_truth hbegins _

/-- `if` statements have children: they are more than a literal. -/
theorem sourced_conditional (hs : Shipped s.table) :
    s.Sourced (fun n => n.kind = "if_statement" → n.children ≠ []) (· = "if_statement") where
  built := hs.built
  plain _ hkind := fun h => absurd h hkind
  literals := by
    rintro _ hmem rfl
    exact (hs.ownKind_apart (by decide)).1 hmem
  tokens := by
    rintro _ hmem rfl
    exact (hs.ownKind_apart (by decide)).2.1 hmem
  kinds := by
    rintro _ hmem rfl
    exact (hs.ownKind_apart (by decide)).2.2 hmem
  region := fun _ _ _ _ _ _ hkind =>
    absurd hkind (show Node.errorKind ≠ "if_statement" by decide)
  rule := by
    intro key alts a seed m htable ha hseed hgrown hrule
    have hoffers := (hs.built.offers_seed htable ha).1
    obtain ⟨hb, hr, hshaped, _, _⟩ := certified hs
    have hm : m = dress a seed := by
      refine hgrown.growth_eq hb fun b hb' => ?_
      rw [hrule] at hb'
      exact startsWithSelf_conditional hs hb'
    obtain ⟨rest, hitems, hne, hbare⟩ := hseed.unbare hb hr hshaped hoffers.knows
    rw [hrule] at hoffers
    obtain ⟨hkind, helements⟩ := hs.conditional hoffers
    rw [helements] at hne hbare
    have hrest : m.items = rest := by
      rw [hm, Match.items_dress_of_none hkind, hitems]
      rfl
    rw [hrest]
    refine ⟨fun _ hnil => ?_, fun node names hsingle hnamed => ?_⟩
    · exact hne (by decide) (List.map_eq_nil_iff.1 hnil)
    · exact absurd ⟨_, hsingle, hnamed⟩ (hbare (by decide))

end Session

/-- **An `else` belongs to the nearest `if`.** In the trees of the ready-made grammars, whether or
not errors are recovered from or allowed, no `if` statement without an alternative that is the
consequence of one with an alternative, or lies below it, ends where that consequence ends. -/
theorem ParseTable.parse_elseNearest {table : ParseTable} (ht : Catalog.Shipped table)
    {recover strict : Bool} {text : List Char} {limit : Nat} {tree : Tree}
    (h : table.parse recover strict text limit = .ok tree) :
    ∀ n ∈ tree.root.walk, n.kind = "if_statement" → n.under "alternative" ≠ [] →
      ∀ c ∈ n.under "consequence", ∀ m ∈ c.walk, m.kind = "if_statement" →
        m.under "alternative" = [] → m.stop ≠ c.stop := by
  obtain ⟨μ, hroot⟩ := parse_eq_ok h
  let s : Session := ⟨table, recover, text.toArray⟩
  have hattached := (Session.guarded_attached (s := s) ht (Catalog.Shipped.falling ht)).parse hroot
  obtain ⟨hstart, hbelow⟩ := Session.throughout_parse (s := s)
    (fun _ _ hm => hm.throughout (Session.sourced_conditional ht))
    (fun _ _ _ hkind => absurd hkind (show Node.errorKind ≠ "if_statement" by decide)) hroot
  have hchildren : ∀ m ∈ tree.root.walk, m.kind = "if_statement" → m.children ≠ [] := by
    intro m hm hkind
    rw [Node.walk_eq] at hm
    rcases List.mem_cons.1 hm with rfl | hm
    · rw [hstart, show s.grammar.start = _ from ht.settings.1] at hkind
      exact absurd hkind (by decide)
    · exact hbelow m hm hkind
  intro n hn hif halternative c hc m hm hif' hnone hstop
  have hcmem : c ∈ n.walk := by
    rw [Node.walk_eq]
    refine List.mem_cons_of_mem _ (Node.mem_walkAll.2 ⟨c, n.mem_children_of_mem_under hc, ?_⟩)
    rw [Node.walk_eq]
    exact List.mem_cons_self
  have hmmem : m ∈ tree.root.walk := Node.walk_trans _ hn (Node.walk_trans _ hcmem hm)
  -- the clause that `n` took would have been found where `m` ends
  rcases hattached n hn hif (hchildren n hn hif) with ⟨_, htaken⟩ | ⟨habsent, _⟩
  · rcases hattached m hmmem hif' (hchildren m hmmem hif') with ⟨hpresent, _⟩ | ⟨_, hleft⟩
    · exact hpresent hnone
    · have hfound := htaken c hc
      rw [← hstop, hleft] at hfound
      cases hfound
  · exact halternative habsent

set_option maxRecDepth 100000 in
/-- An `if` statement without an alternative in a loop that is the consequence of one with an
alternative: it ends in front of the condition of the loop. -/
theorem ParseTable.parse_elseNearest_loop : ∃ table tree, Catalog.cTable.outcome = .ok table ∧
    table.parse false false "if(a)do if(b);while(c);else;".toList 24 = .ok tree ∧
    ∃ n ∈ tree.root.walk, n.kind = "if_statement" ∧ n.under "alternative" ≠ [] ∧
      ∃ c ∈ n.under "consequence", ∃ m ∈ c.walk, m.kind = "if_statement" ∧
        m.under "alternative" = [] ∧ m.stop ≠ c.stop := by
  have hrun : ((Catalog.cBuilt.parse false false
      "if(a)do if(b);while(c);else;".toList 24).toOption.any fun tree =>
        decide (∃ n ∈ tree.root.walk, n.kind = "if_statement" ∧ n.under "alternative" ≠ [] ∧
          ∃ c ∈ n.under "consequence", ∃ m ∈ c.walk, m.kind = "if_statement" ∧
            m.under "alternative" = [])) = true := by
    decide +kernel
  obtain ⟨tree, htree, hnested⟩ := Except.exists_of_any hrun
  obtain ⟨n, hn, hif, hpresent, c, hc, m, hm, hif', habsent⟩ := of_decide_eq_true hnested
  have hstop :=
    parse_elseNearest (.inl Catalog.cTable_eq) htree n hn hif hpresent c hc m hm hif' habsent
  exact ⟨_, tree, Catalog.cTable_eq, htree, n, hn, hif, hpresent, c, hc, m, hm, hif', habsent, hstop⟩

end LayeredGrammar
