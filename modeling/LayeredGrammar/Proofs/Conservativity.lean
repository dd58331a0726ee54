import LayeredGrammar.Proofs.Engine.Layering
import LayeredGrammar.Proofs.Engine.Widening
import LayeredGrammar.Proofs.Tiling

/-!
# Layers that leave trees alone

A layer that adds rules, and alternatives that start with literals of its own, changes nothing for a
text in which none of its literals stands: every text keeps its tree, with error recovery or without
(`ParseTable.parse_keeps_tree`). Only what was expected at an error region may change, also where the
region got the kind of a hidden rule's reference (`Grammar.masks`).

The alternatives of the layer are tried, but they are barred in the sense of `Session.Widens`.
-/

namespace LayeredGrammar

/-! ## Layers that start with markers -/

namespace Production

/-- The literal that a production is or, as a sequence, starts with. -/
def marker? : Production → Option String
  | .lit value | .seq (.lit value :: _) => some value
  | _ => none

/-- The rule or token that a production is a reference to. -/
def target? : Production → Option String
  | .ref name => some name
  | _ => none

theorem of_marker?_eq_some {p : Production} {value : String} (h : p.marker? = some value) :
    p = .lit value ∨ ∃ rest, p = .seq (.lit value :: rest) := by
  unfold marker? at h
  split at h
  · cases h
    exact Or.inl rfl
  · cases h
    exact Or.inr ⟨_, rfl⟩
  · cases h

theorem of_target?_eq_some {p : Production} {name : String} (h : p.target? = some name) :
    p = .ref name := by
  unfold target? at h
  split at h
  · cases h
    rfl
  · cases h

/-- Whether a production starts with a literal that a grammar does not have. -/
def Marked (p : Production) (g : Grammar) : Prop := ∃ value ∈ p.marker?, value ∉ g.literals

instance (p : Production) (g : Grammar) : Decidable (p.Marked g) :=
  inferInstanceAs (Decidable (∃ value ∈ p.marker?, value ∉ g.literals))

end Production

namespace Layer

/-- Whether a layer has a rule of the given name all of whose alternatives start with literals that
a grammar does not have. -/
def HasMarkedRule (x : Layer) (g : Grammar) (rule : String) : Prop :=
  ∃ entry ∈ x.bodies, entry.1 = rule ∧ ∀ p ∈ entry.2.alternatives, p.Marked g

instance (x : Layer) (g : Grammar) (rule : String) : Decidable (x.HasMarkedRule g rule) :=
  inferInstanceAs
    (Decidable (∃ entry ∈ x.bodies, entry.1 = rule ∧ ∀ p ∈ entry.2.alternatives, p.Marked g))

/-- A layer of new rules and of extensions, without settings and preferences, whose extensions start
with literals that the grammar below does not have, or are rules of the layer that do. -/
structure Marked (x : Layer) (g : Grammar) : Prop where
  onlyExtends : x.onlyExtends = true
  reading : x.KeepsReading
  stops : x.recoveryStops = []
  conflicts : ∀ c ∈ x.conflicts, c.prefer = none
  bodies : ∀ entry ∈ x.bodies, entry.1 ∉ g.rules.names
  extensions : ∀ entry ∈ x.extensions, ∀ p ∈ Production.alternativesAll entry.2,
    p.Marked g ∨ ∃ rule ∈ p.target?, x.HasMarkedRule g rule

instance (x : Layer) (g : Grammar) : Decidable (x.Marked g) :=
  decidable_of_iff
    (x.onlyExtends = true ∧ (x.start = none ∧ x.word = none ∧ x.extras = none ∧ x.reserved = []) ∧
      x.recoveryStops = [] ∧ (∀ c ∈ x.conflicts, c.prefer = none) ∧
      (∀ entry ∈ x.bodies, entry.1 ∉ g.rules.names) ∧
      ∀ entry ∈ x.extensions, ∀ p ∈ Production.alternativesAll entry.2,
        p.Marked g ∨ ∃ rule ∈ p.target?, x.HasMarkedRule g rule)
    ⟨fun ⟨ho, ⟨h₁, h₂, h₃, h₄⟩, hs, hc, hb, he⟩ => ⟨ho, ⟨h₁, h₂, h₃, h₄⟩, hs, hc, hb, he⟩,
      fun ⟨ho, ⟨h₁, h₂, h₃, h₄⟩, hs, hc, hb, he⟩ => ⟨ho, ⟨h₁, h₂, h₃, h₄⟩, hs, hc, hb, he⟩⟩

end Layer

namespace Session

variable {s s' : Session} {barred : String → Prop} {rule : String} {reached : Nat → Prop}

/-- An alternative that starts with a literal that is not found is barred. -/
theorem barred_of_marked {g : Grammar} {pos : Nat}
    (hg : ∀ value, value ∉ g.literals → s'.matchLiteral value pos = none) {p : Production}
    (hp : p.Marked g) (index : Nat) (layered : Bool) :
    s'.Barred barred pos (.ofProduction rule index layered p) := by
  obtain ⟨value, hmarker, hvalue⟩ := hp
  obtain rfl | ⟨rest, rfl⟩ := Production.of_marker?_eq_some hmarker
  · exact ⟨_, _, rfl, rfl, Or.inl ⟨value, rfl, hg value hvalue⟩⟩
  · exact ⟨_, _, rfl, rfl, Or.inl ⟨value, rfl, hg value hvalue⟩⟩

theorem plain_of_marked {g : Grammar} {p : Production} (hp : p.Marked g) (index : Nat)
    (layered : Bool) : Plain (.ofProduction rule index layered p) := by
  obtain ⟨value, hmarker, _⟩ := hp
  obtain rfl | ⟨rest, rfl⟩ := Production.of_marker?_eq_some hmarker
  · exact ⟨rfl, rfl⟩
  · exact ⟨rfl, rfl⟩

theorem elements_ref {name : String} (hne : name ≠ rule) (index : Nat) (layered : Bool) :
    (Alternative.ofProduction rule index layered (.ref name)).elements = [⟨.ref name, none⟩] := by
  have hself : (Production.ref name).selfFields? rule = none :=
    if_neg fun h => hne (Production.ref.inj h)
  show [Element.mk (.ref name) ((Production.ref name).selfFields? rule)] = _
  rw [hself]

theorem plain_ref {name : String} (hne : name ≠ rule) (index : Nat) (layered : Bool) :
    Plain (.ofProduction rule index layered (.ref name)) := by
  refine ⟨?_, rfl⟩
  unfold Alternative.startsWithSelf
  rw [elements_ref hne]
  rfl

/-- A literal that the grammar of one session does not have is not found by another one that scans
the text in the same way. -/
theorem matchLiteral_eq_none (hb : s.table.Built) (h : ScansAlike s s' reached) {value : String}
    (hv : value ∉ s.grammar.literals) {pos : Nat} (hpos : reached pos) :
    s'.matchLiteral value pos = none := by
  rw [h.matchLiteral value hpos]
  cases hm : s.matchLiteral value pos with
  | none => rfl
  | some m =>
    obtain ⟨l, hl, rfl, _⟩ := matchLiteral_eq_some hm
    exact absurd (literal_mem hb hl) hv

/-- The alternatives of a marked rule of a layer are barred. -/
theorem barred_of_hasMarkedRule {x : Layer} (hb : s.table.Built) (hb' : s'.table.Built)
    (hstack : Grammar.Stacked x s.grammar s'.grammar) (hscan : ScansAlike s s' reached)
    {name : String} (hname : x.HasMarkedRule s.grammar name) {alts : RuleAlternatives}
    (halts : s'.table.rules.get? name = some alts) {a : Alternative}
    (ha : a ∈ alts.prefixed ++ alts.plain) {pos : Nat} (hpos : reached pos) :
    s'.Barred barred pos a := by
  obtain ⟨⟨name, body⟩, hbody, rfl, hmarked⟩ := hname
  rw [get?_rules hb', hstack.added name body hbody] at halts
  cases halts
  obtain ⟨hmem, _⟩ := RuleAlternatives.mem_of_seed (List.mem_append.1 ha)
  obtain ⟨⟨p, i⟩, hp, rfl⟩ := List.mem_map.1 hmem
  exact barred_of_marked (fun value hv => matchLiteral_eq_none hb hscan hv hpos)
    (hmarked p (List.fst_mem_of_mem_zipIdx hp)) i _

/-- **A marked layer widens the session below it**, for a text in which none of its own literals
stands. -/
theorem widens_of_marked {x : Layer} (hx : x.Marked s.grammar) (hb : s.table.Built)
    (hb' : s'.table.Built) (hstack : Grammar.Stacked x s.grammar s'.grammar)
    (htext : s'.text = s.text) (hrecover : s'.recover = s.recover)
    (hnew : ∀ value ∈ s'.grammar.literals, value ∉ s.grammar.literals →
      ¬value.toList <:+: s'.text.toList) :
    Widens (s.upToExpected fun _ => True) s s' (x.HasMarkedRule s.grammar) := by
  have hstops : ∀ token, s'.isStop token = s.isStop token := by
    intro token
    have hsame : ∀ t, t ∈ s'.grammar.recoveryStops ↔ t ∈ s.grammar.recoveryStops := by
      intro t
      rw [hstack.stops t, hx.stops]
      simp
    unfold isStop
    rw [Bool.eq_iff_iff]
    simp [hsame token]
  have hscan : ScansAlike s s' fun _ => True :=
    ⟨confined_everywhere, htext, hstack.extras, hstack.tokens, hstack.word, hstack.reserved,
      fun _ => literalAt_eq hb hb' htext hstack.literals_subset fun _ =>
        literal_mem_of_absent hb' hnew,
      fun _ _ => hstops _⟩
  refine ⟨upToExpected_lawful hscan hrecover hstack.start ?_, hb.start, trivial, ?_, ?_⟩
  · intro owner labels _
    rw [hstack.conflicts]
    refine ConflictRegistry.preferred_append (fun c hc p hp => ?_) owner
    rw [hx.conflicts c hc] at hp
    cases hp
  · intro rule hrule
    refine widened_of_stacked hb hb' hstack (fun alternatives hmem p hp index layered => ?_) hrule
    rcases hx.extensions _ hmem p hp with hmarked | ⟨name, htarget, hname⟩
    · refine ⟨fun pos hpos => ?_, plain_of_marked hmarked index layered⟩
      exact barred_of_marked (fun value hv => matchLiteral_eq_none hb hscan hv hpos) hmarked index
        layered
    · obtain rfl := Production.of_target?_eq_some htarget
      have hne : name ≠ rule := by
        rintro rfl
        obtain ⟨entry, hentry, rfl, _⟩ := hname
        exact hx.bodies entry hentry hrule
      exact ⟨fun _ _ => ⟨_, _, elements_ref hne index layered, rfl, Or.inr ⟨name, rfl, hname⟩⟩,
        plain_ref hne index layered⟩
  · intro name hname
    refine ⟨?_, ?_, fun alts halts a ha pos hpos => ?_⟩
    · obtain ⟨entry, hentry, rfl, _⟩ := hname
      exact hx.bodies entry hentry
    · obtain ⟨⟨name, body⟩, hbody, rfl, _⟩ := hname
      rw [NameTable.get?_eq_none]
      exact hb'.apart name (NameTable.mem_names_of_get? (hstack.added name body hbody))
    · exact barred_of_hasMarkedRule hb hb' hstack hscan hname halts ha hpos

end Session

/-! ## Trees -/

/-- **A layer that starts with markers keeps every tree.** Let a stack of layers build a grammar, and
let it build another one with one more layer on top that only adds rules under new names and
alternatives that start with literals of its own, directly or through such a rule. On every text in
which no literal stands that only the larger grammar has, the trees of the two grammars have the same
nodes, with error recovery or without; only what was expected may differ, at nodes without children
that are error regions or have a kind that masks one. -/
theorem ParseTable.parse_keeps_tree {layers : List Layer} {x : Layer} {table table' : ParseTable}
    (ht : (ParseTable.ofLayers layers).outcome = .ok table)
    (ht' : (ParseTable.ofLayers (layers ++ [x])).outcome = .ok table')
    (hx : x.Marked table.grammar) {text : List Char}
    (htext : ∀ value ∈ table'.grammar.literals, value ∉ table.grammar.literals →
      ¬value.toList <:+: text) {recover strict strict' : Bool} {limit limit' : Nat}
    {tree tree' : Tree} (h : table.parse recover strict text limit = .ok tree)
    (h' : table'.parse recover strict' text limit' = .ok tree') :
    tree.root.forget table.grammar.masks = tree'.root.forget table.grammar.masks := by
  have hstack := Grammar.stacked (ParseTable.ofLayers_eq_ok ht).1 (ParseTable.ofLayers_eq_ok ht').1
    hx.onlyExtends hx.reading fun name p hp => hx.bodies (name, p) hp
  obtain ⟨μ, hroot⟩ := parse_eq_ok h
  obtain ⟨ν, hroot'⟩ := parse_eq_ok h'
  have hwidens : Session.Widens
      (Session.upToExpected ⟨table, recover, text.toArray⟩ fun _ => True)
      ⟨table, recover, text.toArray⟩ ⟨table', recover, text.toArray⟩
      (x.HasMarkedRule table.grammar) :=
    Session.widens_of_marked hx (ParseTable.built ht) (ParseTable.built ht') hstack rfl rfl htext
  exact hwidens.parse_tracks hroot hroot'

/-- Items in a list, which has a kind of its own: also if all of it is an error region. -/
def itemsLayer : Layer where
  name := "Items"
  start := some (some "source")
  word := some none
  extensionPoints := ["item"]
  members :=
    [("source", .rule none (.renamed (.ref "_items") "body")),
     ("_items", .rule none (.rep (.ref "item") 0 true)),
     ("item", .rule none (.lit "a"))]

/-- More items, with markers of their own. -/
def markedItemsLayer : Layer where
  name := "MarkedItems"
  members :=
    [("item", .extension none [.lit "zz", .ref "pair"]),
     ("pair", .rule none (.seq [.lit "+", .ref "item", .ref "item"]))]

/-- Two items around an error region: the larger grammar expects more in its place. -/
theorem ParseTable.parse_keeps_tree_items : ∃ table table' tree tree',
    (ParseTable.ofLayers [itemsLayer]).outcome = .ok table ∧
    (ParseTable.ofLayers ([itemsLayer] ++ [markedItemsLayer])).outcome = .ok table' ∧
    table.parse true false ['a', 'b', 'a'] 9 = .ok tree ∧
    table'.parse true false ['a', 'b', 'a'] 9 = .ok tree' ∧ tree.root ≠ tree'.root ∧
    tree.root.forget table.grammar.masks = tree'.root.forget table.grammar.masks := by
  have hrun : ((ParseTable.ofLayers [itemsLayer]).outcome.toOption.any fun table =>
      (ParseTable.ofLayers ([itemsLayer] ++ [markedItemsLayer])).outcome.toOption.any fun table' =>
      (table.parse true false ['a', 'b', 'a'] 9).toOption.any fun tree =>
      (table'.parse true false ['a', 'b', 'a'] 9).toOption.any fun tree' =>
        decide (markedItemsLayer.Marked table.grammar ∧
          (∀ value ∈ table'.grammar.literals, value ∉ table.grammar.literals →
            ¬value.toList <:+: ['a', 'b', 'a']) ∧ tree.root ≠ tree'.root)) = true := by
    decide +kernel
  obtain ⟨table, ht, hrun⟩ := Traced.exists_of_any hrun
  obtain ⟨table', ht', hrun⟩ := Traced.exists_of_any hrun
  obtain ⟨tree, h, hrun⟩ := Except.exists_of_any hrun
  obtain ⟨tree', h', hrun⟩ := Except.exists_of_any hrun
  obtain ⟨hmarked, htext, hne⟩ := of_decide_eq_true hrun
  exact ⟨table, table', tree, tree', ht, ht', h, h', hne,
    parse_keeps_tree ht ht' hmarked htext h h'⟩

/-- What was expected may differ at a node that is no error region: one that an error region became
by getting another kind. -/
theorem ParseTable.parse_changes_body : ∃ table table' tree tree',
    (ParseTable.ofLayers [itemsLayer]).outcome = .ok table ∧
    (ParseTable.ofLayers ([itemsLayer] ++ [markedItemsLayer])).outcome = .ok table' ∧
    markedItemsLayer.Marked table.grammar ∧
    (∀ value ∈ table'.grammar.literals, value ∉ table.grammar.literals →
      ¬value.toList <:+: ['b']) ∧
    table.parse true false ['b'] 9 = .ok tree ∧
    table'.parse true false ['b'] 9 = .ok tree' ∧
    tree.root.walk.map (fun n => (n.kind, n.expected)) =
      [("source", []), ("body", ["'a'"])] ∧
    tree'.root.walk.map (fun n => (n.kind, n.expected)) =
      [("source", []), ("body", ["'+'", "'a'", "'zz'"])] := by
  have hrun : ((ParseTable.ofLayers [itemsLayer]).outcome.toOption.any fun table =>
      (ParseTable.ofLayers ([itemsLayer] ++ [markedItemsLayer])).outcome.toOption.any fun table' =>
      (table.parse true false ['b'] 9).toOption.any fun tree =>
      (table'.parse true false ['b'] 9).toOption.any fun tree' =>
        decide (markedItemsLayer.Marked table.grammar ∧
          (∀ value ∈ table'.grammar.literals, value ∉ table.grammar.literals →
            ¬value.toList <:+: ['b']) ∧
          tree.root.walk.map (fun n => (n.kind, n.expected)) =
            [("source", []), ("body", ["'a'"])] ∧
          tree'.root.walk.map (fun n => (n.kind, n.expected)) =
            [("source", []), ("body", ["'+'", "'a'", "'zz'"])])) = true := by
    decide +kernel
  obtain ⟨table, ht, hrun⟩ := Traced.exists_of_any hrun
  obtain ⟨table', ht', hrun⟩ := Traced.exists_of_any hrun
  obtain ⟨tree, h, hrun⟩ := Except.exists_of_any hrun
  obtain ⟨tree', h', hrun⟩ := Except.exists_of_any hrun
  obtain ⟨hmarked, htext, hwalk, hwalk'⟩ := of_decide_eq_true hrun
  exact ⟨table, table', tree, tree', ht, ht', hmarked, htext, h, h', hwalk, hwalk'⟩

end LayeredGrammar
