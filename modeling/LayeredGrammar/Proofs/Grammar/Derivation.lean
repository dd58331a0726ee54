import LayeredGrammar.Proofs.Grammar.Alternatives

/-!
# What a grammar derives

`Grammar.Derives` reads a production as a context-free expression: it derives strings of symbols, a
symbol being a literal or a token. Field names, node kinds and precedences do not count.

The engine works on alternatives instead, in which the precedence, the node kind and the choices at
the top of a body are taken apart. Nothing is lost by that: what the elements of an alternative
derive in a row, the rule derives (`ParseTable.Offers.derives`).
-/

namespace LayeredGrammar

/-- What a text is made of. -/
inductive Symbol where
  | literal (value : String)
  | token (name : String)
  deriving DecidableEq, Repr

/-- The strings of symbols that a production derives in a grammar. -/
inductive Grammar.Derives (g : Grammar) : Production → List Symbol → Prop
  | lit {value} : Derives g (.lit value) [.literal value]
  | token {name} (h : name ∈ g.tokens.names) : Derives g (.ref name) [.token name]
  | rule {name body w} (hb : g.rules.get? name = some body) (h : Derives g body w) :
    Derives g (.ref name) w
  | seqNil : Derives g (.seq []) []
  | seqCons {p ps u v} (h : Derives g p u) (h' : Derives g (.seq ps) v) :
    Derives g (.seq (p :: ps)) (u ++ v)
  | choice {members p w} (hp : p ∈ members) (h : Derives g p w) : Derives g (.choice members) w
  | rep {content} {least : Int} {recover} {copies : List (List Symbol)}
    (hl : least ≤ copies.length) (h : ∀ w ∈ copies, Derives g content w) :
    Derives g (.rep content least recover) copies.flatten
  | opt {content w} (h : Derives g content w) : Derives g (.opt content) w
  | omitted {content} : Derives g (.opt content) []
  | blank : Derives g .blank []
  | field {name content w} (h : Derives g content w) : Derives g (.field name content) w
  | renamed {content kind w} (h : Derives g content w) : Derives g (.renamed content kind) w
  | prec {value content assoc unary w} (h : Derives g content w) :
    Derives g (.prec value content assoc unary) w

namespace Grammar.Derives

variable {g : Grammar} {p : Production} {u v w : List Symbol}

/-- A repetition that derives at least `least` copies derives one more. -/
theorem rep_cons {least : Int} {recover recover' : Bool} (h : g.Derives p u)
    (h' : g.Derives (.rep p (least - 1) recover) v) : g.Derives (.rep p least recover') (u ++ v) := by
  cases h' with
  | @rep _ _ _ copies hl hcopies =>
    have hlen : least ≤ (u :: copies).length := by
      rw [List.length_cons]
      omega
    show g.Derives (.rep p least recover') (u :: copies).flatten
    refine .rep hlen ?_
    intro w hw
    rcases List.mem_cons.1 hw with rfl | hw
    · exact h
    · exact hcopies w hw

theorem of_seq_single (h : g.Derives (.seq [p]) w) : g.Derives p w := by
  cases h with
  | seqCons hp hnil =>
    cases hnil
    rwa [List.append_nil]

theorem seq_single (h : g.Derives p w) : g.Derives (.seq [p]) w := by
  have h := Derives.seqCons h .seqNil
  rwa [List.append_nil] at h

/-- What a reference inside field names derives, the whole derives. -/
theorem of_unfield (h : g.Derives p.unfield.2 w) : g.Derives p w := by
  induction p using Production.unfield.induct with
  | case1 name p ih => exact .field (ih h)
  | case2 p hp =>
    cases p with
    | field name p => exact absurd rfl (hp name p)
    | _ => exact h

mutual

/-- What an alternative of a body derives, the body derives. -/
theorem of_alternative : ∀ (body : Production) {a : Production} {w : List Symbol},
    a ∈ body.alternatives → g.Derives a w → g.Derives body w
  | .choice members, a, w, ha, h => by
    obtain ⟨p, hp, hw⟩ := of_alternativesAll members ha h
    exact .choice hp hw
  | .lit _, _, _, ha, h | .ref _, _, _, ha, h | .seq _, _, _, ha, h | .rep _ _ _, _, _, ha, h
  | .opt _, _, _, ha, h | .blank, _, _, ha, h | .field _ _, _, _, ha, h
  | .renamed _ _, _, _, ha, h | .prec _ _ _ _, _, _, ha, h => by
    cases List.mem_singleton.1 ha
    exact h

theorem of_alternativesAll : ∀ (members : List Production) {a : Production} {w : List Symbol},
    a ∈ Production.alternativesAll members → g.Derives a w → ∃ p ∈ members, g.Derives p w
  | [], _, _, ha, _ => by cases ha
  | p :: ps, a, w, ha, h => by
    rcases List.mem_append.1 ha with ha | ha
    · exact ⟨p, List.mem_cons_self, of_alternative p ha h⟩
    · obtain ⟨q, hq, hw⟩ := of_alternativesAll ps ha h
      exact ⟨q, List.mem_cons_of_mem _ hq, hw⟩

end

end Grammar.Derives

/-! ## Alternatives -/

namespace Alternative

variable {g : Grammar} {rule : String} {p : Production} {w : List Symbol}

theorem derives_spine {index : Nat} {layered : Bool} :
    g.Derives (ofProduction rule index layered p).spine w = g.Derives p w := by
  refine spine_transport (g.Derives · w) ?_ ?_ ?_
  · exact fun q => propext ⟨.of_seq_single, .seq_single⟩
  · exact fun q kind => propext ⟨fun h => by cases h; assumption, .renamed⟩
  · exact fun value q assoc unary => propext ⟨fun h => by cases h; assumption, .prec⟩

end Alternative

/-! ## Tables -/

namespace ParseTable

variable {t : ParseTable} {rule : String} {alts : RuleAlternatives}

/-- What an alternative of a rule derives, the rule derives. -/
theorem Offers.derives {a : Alternative} {w : List Symbol} (h : t.Offers rule a)
    (hw : t.grammar.Derives a.spine w) : t.grammar.Derives (.ref rule) w := by
  obtain ⟨body, _, _, p, hb, hp, rfl⟩ := h
  rw [Alternative.derives_spine] at hw
  exact .rule hb (.of_alternative body hp hw)

end ParseTable

end LayeredGrammar
