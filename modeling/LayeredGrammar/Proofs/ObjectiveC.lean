import LayeredGrammar.Proofs.Catalog.Shipped
import LayeredGrammar.Proofs.Conservativity
import LayeredGrammar.Proofs.Engine.Progress
import LayeredGrammar.Proofs.Engine.Resting

/-!
# C programs under the Objective-C grammar

The Objective-C layer adds alternatives that start with literals of its own, but also two that start
like C: message expressions with a bracket, and types with protocols with an identifier. A text keeps
its C tree under the Objective-C grammar if at no token boundary a literal stands that C does not
have, nor a message expression or a type with protocols (`ParseTable.parse_keeps_c_tree`). The first
condition is needed, for the keywords of Objective-C are names in C.

What the layer adds is tried at every boundary, and rests there in the sense of `Session.Resting`.
-/

namespace LayeredGrammar

/-! ## Layers that can be told apart -/

namespace Production

/-- The token that a production with a leading literal may ask for next, and the literal that it asks
for after that. -/
def guard? : Production → Option (String × String)
  | .seq [.lit _, .field _ (.opt (.ref token)), .field _ (.seq (.lit value :: _))] =>
    some (token, value)
  | _ => none

theorem of_guard?_eq_some {p : Production} {token value : String}
    (h : p.guard? = some (token, value)) : ∃ first name body rest,
      p = .seq [.lit first, .field name (.opt (.ref token)),
        .field body (.seq (.lit value :: rest))] := by
  unfold guard? at h
  split at h
  · cases h
    exact ⟨_, _, _, _, rfl⟩
  · cases h

end Production

/-- A layer of new rules and of extensions that can be told apart from a grammar, except for the given
rules: what it adds asks for a literal that the grammar does not have, before it takes in more than
tokens. -/
structure Layer.Apart (x : Layer) (g : Grammar) (readings : List String) : Prop where
  onlyExtends : x.onlyExtends = true
  reading : x.KeepsReading
  bodies : ∀ entry ∈ x.bodies, entry.1 ∉ g.rules.names
  preferences : ∀ c ∈ x.conflicts, ∀ name ∈ c.prefer, ¬g.Knows name
  stops : ∀ token ∈ x.recoveryStops, 1 < token.toList.length ∧
    ∃ c ∈ token.toList.head?, g.Shuns c
  extensions : ∀ entry ∈ x.extensions, ∀ p ∈ Production.alternativesAll entry.2,
    (∃ name ∈ p.target?, name ∈ x.bodies.map (·.1) ∧
      (x.HasMarkedRule g name ∨ name ∈ readings)) ∨
    ∃ e ∈ p.guard?, e.1 ∈ g.tokens.names ∧ e.2 ∉ g.literals

namespace Session

open Engine (Tracks)

variable {s s' : Session} {height : MemoKey → Nat} {reached : Nat → Prop} {rule : String}
  {x : Layer} {readings : List String}

/-- A session finds a match of a rule at a position, if it has room for enough rules. -/
def Finds (s : Session) (rule : String) (pos : Nat) : Prop :=
  ∃ limit m μ, s.matchRule limit rule pos 0 {} = .ok (some m) μ

theorem truth_of_not_finds (hfall : s'.Falling height) {pos : Nat} (h : ¬s'.Finds rule pos) :
    s'.truth height ⟨rule, pos, 0⟩ = none := by
  obtain ⟨limit, μ, hrun⟩ := matchRule_truth hfall ⟨rule, pos, 0⟩
  cases htruth : s'.truth height ⟨rule, pos, 0⟩ with
  | none => rfl
  | some m =>
    rw [htruth] at hrun
    exact absurd ⟨limit, m, μ, hrun⟩ h

/-- A rule whose alternatives all start with literals that are not found has no answer. -/
theorem truth_of_barred (hfall : s'.Falling height) {k : MemoKey}
    (h : ∀ alts, s'.table.rules.get? k.rule = some alts →
      ∀ a ∈ alts.prefixed ++ alts.plain, s'.Barred (fun _ => False) k.pos a) :
    s'.truth height k = none := by
  obtain ⟨μ, hμ⟩ := answer_truth hfall k {}
  have hidle : Tracks (fun _ _ => True) (pure ()) (s'.answer (tabled (s'.truth height)) k)
      fun _ found => found = none :=
    answer_idle fun alts ht a ha => (h alts ht a ha).idle nofun nofun k.rule
  exact (hidle {} {} trivial () _ {} μ rfl hμ).2

/-! ## Alternatives that rest -/

/-- A reference to a rule without answers rests. -/
theorem restsAt_ref {name : String} (hne : name ≠ rule)
    (htoken : s'.grammar.tokens.get? name = none)
    (h : ∀ pos, reached pos → s'.truth height ⟨name, pos, 0⟩ = none) (index : Nat)
    (layered : Bool) :
    s'.RestsAt height reached rule (.ofProduction rule index layered (.ref name)) := by
  intro pos hpos
  unfold inRow
  rw [elements_ref hne]
  simp only [matchElements, matchElement, matchProduction, htoken]
  show matchOf ((pure (s'.truth height ⟨name, pos, 0⟩) >>= _ : Engine (Option Match)) {}) = none
  rw [h pos hpos]
  rfl

/-- The optional token before a literal ends at a position of the set. -/
theorem reached_of_optional_token (hc : s'.Confined reached) {token field : String}
    (ht : (s'.grammar.tokens.get? token).isSome = true) {pos : Nat} (hpos : reached pos) {m : Match}
    (h : s'.Yields (.production (.field field (.opt (.ref token))) pos) m) : reached m.stop := by
  obtain ⟨t, ht⟩ := Option.isSome_iff_exists.1 ht
  cases h with
  | field h =>
    cases h with
    | omitted => exact hpos
    | opt h =>
      cases h with
      | token ht' h =>
        obtain ⟨stop, hm, _, _, rfl⟩ := matchToken_eq_some h
        exact hc.token hpos ht' hm
      | ref hnone _ =>
        rw [ht] at hnone
        cases hnone

/-- The cursor of a run stays in a set if what it takes in ends there. -/
theorem reached_push {run : Run} {m : Match} (hr : reached run.cursor) (hm : reached m.stop) :
    reached (run.push m).cursor := by
  rw [Run.cursor_push]
  split
  · exact hr
  · exact hm

theorem Yields.of_elements_cons {rightMin : Int} {e : Element} {es : List Element} {run : Run}
    {m : Match} (h : s.Yields (.elements rule rightMin (e :: es) run) m)
    (he : e.selfFields = none) : ∃ first, s.Yields (.production e.body run.cursor) first ∧
      s.Yields (.elements rule rightMin es (run.push first)) m := by
  cases h with
  | elementsNext h h' =>
    cases h with
    | selfElement hself _ =>
      rw [he] at hself
      cases hself
    | bodyElement _ h => exact ⟨_, h, h'⟩

/-- An alternative with a literal that is not found, after another literal and at most a token,
rests. -/
theorem restsAt_guard (hc : s'.Confined reached) {p : Production} {token value : String}
    (hp : p.guard? = some (token, value))
    (ht : (s'.grammar.tokens.get? token).isSome = true)
    (h : ∀ pos, reached pos → s'.matchLiteral value pos = none) (index : Nat) (layered : Bool) :
    s'.RestsAt height reached rule (.ofProduction rule index layered p) := by
  intro pos hpos
  obtain ⟨first, name, body, rest, rfl⟩ := Production.of_guard?_eq_some hp
  refine Option.eq_none_iff_forall_ne_some.2 fun m hm => ?_
  obtain ⟨m₁, h₁, hyields⟩ := (yields_inRow truthful_truth hm).of_elements_cons rfl
  obtain ⟨m₂, h₂, hyields⟩ := hyields.of_elements_cons rfl
  obtain ⟨m₃, h₃, _⟩ := hyields.of_elements_cons rfl
  have hstop : reached m₁.stop := by
    cases h₁ with
    | lit h₁ =>
      obtain ⟨l, hl, _, rfl⟩ := matchLiteral_eq_some h₁
      exact hc.literal hpos hl
  have hcursor : reached ((Run.begin pos).push m₁).cursor := reached_push hpos hstop
  have hcursor' : reached (((Run.begin pos).push m₁).push m₂).cursor :=
    reached_push hcursor (reached_of_optional_token hc ht hcursor h₂)
  -- the third element starts with the literal
  cases h₃ with
  | field h₃ =>
    cases h₃ with
    | seq h₃ =>
      cases h₃ with
      | itemsNext h₃ _ =>
        cases h₃ with
        | lit h₃ =>
          rw [Run.cursor_begin, h _ hcursor'] at h₃
          cases h₃

/-! ## Sessions with a layer more -/

/-- A layer that can be told apart does not change how a text is scanned, unless literals of its own
are found. -/
theorem scansAlike_of_apart (hx : x.Apart s.grammar readings) (hb : s.table.Built)
    (hb' : s'.table.Built) (hstack : Grammar.Stacked x s.grammar s'.grammar)
    (htext : s'.text = s.text) (hliterals : ∀ pos, s.Boundary pos → ∀ l,
      s'.literalAt (s.skip pos) = some l → l.text ∈ s.grammar.literals) :
    ScansAlike s s' s.Boundary where
  confined := confined_boundary
  text := htext
  extras := hstack.extras
  tokens := hstack.tokens
  word := hstack.word
  reserved := hstack.reserved
  literalAt hpos := literalAt_eq hb hb' htext hstack.literals_subset (hliterals _ hpos)
  stops := by
    intro pos token hpos htoken
    have hnew : token ∉ x.recoveryStops := by
      intro hmem
      obtain ⟨hlen, c, hhead, hc⟩ := hx.stops token hmem
      rw [rawToken?_of_shuns hb hc htoken hhead] at hlen
      exact absurd hlen (Nat.lt_irrefl 1)
    have hsame : token ∈ s'.grammar.recoveryStops ↔ token ∈ s.grammar.recoveryStops := by
      rw [hstack.stops token]
      exact or_iff_left hnew
    unfold isStop
    rw [Bool.eq_iff_iff]
    simp [hsame]

/-- **What a layer adds rests**, at boundaries where neither a literal of its own is found nor one of
the rules that cannot be told apart. -/
theorem resting_of_apart (hx : x.Apart s.grammar readings) (hb : s.table.Built)
    (hb' : s'.table.Built) (hstack : Grammar.Stacked x s.grammar s'.grammar)
    (htext : s'.text = s.text) (hrecover : s'.recover = s.recover) (hfall : s.Falling height)
    (hfall' : s'.Falling height) (hliterals : ∀ pos, s.Boundary pos → ∀ l,
      s'.literalAt (s.skip pos) = some l → l.text ∈ s.grammar.literals)
    (hreadings : ∀ pos, s.Boundary pos → ∀ name ∈ readings, ¬s'.Finds name pos) :
    Resting (s.upToExpected s.Boundary) s s' height := by
  have hscan := scansAlike_of_apart hx hb hb' hstack htext hliterals
  refine ⟨upToExpected_lawful hscan hrecover hstack.start ?_, hb.start, trivial, hfall, hfall', ?_⟩
  · intro owner labels hlabels
    rw [hstack.conflicts]
    refine ConflictRegistry.preferred_append (fun c hc name hname hmem => ?_) owner
    exact hx.preferences c hc name hname (hlabels _ hmem name rfl)
  · intro rule hrule
    refine widened_of_stacked hb hb' hstack (fun alternatives hmem p hp index layered => ?_) hrule
    rcases hx.extensions _ hmem p hp with
      ⟨name, htarget, hbody, hname⟩ | ⟨⟨token, value⟩, hguard, ht, hv⟩
    · obtain rfl := Production.of_target?_eq_some htarget
      obtain ⟨⟨name, body⟩, hentry, rfl⟩ := List.mem_map.1 hbody
      have hnew := hx.bodies _ hentry
      have hne : name ≠ rule := fun heq => hnew (heq ▸ hrule)
      have htoken : s'.grammar.tokens.get? name = none := by
        rw [NameTable.get?_eq_none]
        exact hb'.apart name (NameTable.mem_names_of_get? (hstack.added name body hentry))
      refine ⟨restsAt_ref hne htoken (fun pos hpos => ?_) index layered, plain_ref hne index layered⟩
      rcases hname with hmarked | hreading
      · exact truth_of_barred hfall' fun alts halts a ha =>
          barred_of_hasMarkedRule hb hb' hstack hscan hmarked halts ha hpos
      · exact truth_of_not_finds hfall' (hreadings pos hpos name hreading)
    · have htoken : (s'.grammar.tokens.get? token).isSome = true := by
        rw [Option.isSome_iff_ne_none, Ne, NameTable.get?_eq_none, not_not, hstack.tokens]
        exact ht
      refine ⟨restsAt_guard hscan.confined' hguard htoken
        (fun pos hpos => matchLiteral_eq_none hb hscan hv hpos) index layered, ?_⟩
      obtain ⟨_, _, _, _, rfl⟩ := Production.of_guard?_eq_some hguard
      exact ⟨rfl, rfl⟩

end Session

/-! ## Trees -/

namespace Catalog

/-- The rules of the Objective-C layer that start like C. -/
def sharedReadings : List String := ["message_expression", "protocol_type_specifier"]

set_option maxRecDepth 100000 in
/-- The Objective-C layer can be told apart from C, except for two rules, and no hidden rule of C is
given a kind. -/
theorem apart_objectiveC {table : ParseTable} (ht : cTable.outcome = .ok table) :
    ObjectiveC.layer.Apart table.grammar sharedReadings ∧ table.grammar.masks = [] := by
  cases ht.symm.trans cTable_eq
  have hmasks : cGrammar.masks = [] := by decide +kernel
  have hcheck :
      (∀ entry ∈ ObjectiveC.layer.bodies, entry.1 ∉ cGrammar.rules.names) ∧
      (∀ c ∈ ObjectiveC.layer.conflicts, ∀ name ∈ c.prefer, ¬cGrammar.Knows name) ∧
      (∀ token ∈ ObjectiveC.layer.recoveryStops, 1 < token.toList.length ∧
        (token.toList.head?.any fun c => decide (cGrammar.Shuns c)) = true) ∧
      ∀ entry ∈ ObjectiveC.layer.extensions, ∀ p ∈ Production.alternativesAll entry.2,
        (∃ name ∈ p.target?, name ∈ ObjectiveC.layer.bodies.map (·.1) ∧
          (ObjectiveC.layer.HasMarkedRule cGrammar name ∨ name ∈ sharedReadings)) ∨
        ∃ e ∈ p.guard?, e.1 ∈ cGrammar.tokens.names ∧ e.2 ∉ cGrammar.literals := by
    decide +kernel
  obtain ⟨hbodies, hpreferences, hstops, hextensions⟩ := hcheck
  refine ⟨⟨by decide, ⟨rfl, rfl, rfl, rfl⟩, hbodies, hpreferences, fun token htoken => ?_,
    hextensions⟩, hmasks⟩
  obtain ⟨hlength, hhead⟩ := hstops token htoken
  obtain ⟨c, hc, hshuns⟩ := (Option.any_eq_true _ _).1 hhead
  exact ⟨hlength, c, hc, of_decide_eq_true hshuns⟩

end Catalog

/-- **C programs keep their trees under the Objective-C grammar**, as long as no literal that C does
not have is found at a token boundary, and no message expression or type with protocols either. Only
what was expected at error regions may differ. -/
theorem ParseTable.parse_keeps_c_tree {table table' : ParseTable}
    (ht : Catalog.cTable.outcome = .ok table) (ht' : Catalog.objcTable.outcome = .ok table')
    {recover : Bool} {text : List Char}
    (hliterals : ∀ pos, Session.Boundary ⟨table, recover, text.toArray⟩ pos → ∀ l,
      Session.literalAt ⟨table', recover, text.toArray⟩
        (Session.skip ⟨table, recover, text.toArray⟩ pos) = some l →
      l.text ∈ table.grammar.literals)
    (hreadings : ∀ pos, Session.Boundary ⟨table, recover, text.toArray⟩ pos →
      ∀ name ∈ Catalog.sharedReadings, ¬Session.Finds ⟨table', recover, text.toArray⟩ name pos)
    {strict strict' : Bool} {limit limit' : Nat} {tree tree' : Tree}
    (h : table.parse recover strict text limit = .ok tree)
    (h' : table'.parse recover strict' text limit' = .ok tree') :
    tree.root.forget [] = tree'.root.forget [] := by
  obtain ⟨hx, hmasks⟩ := Catalog.apart_objectiveC ht
  have hstack := Grammar.stacked (ParseTable.ofLayers_eq_ok ht).1 (ParseTable.ofLayers_eq_ok ht').1
    hx.onlyExtends hx.reading fun name p hp => hx.bodies (name, p) hp
  have hshipped : Catalog.Shipped table := Or.inl ht
  have hshipped' : Catalog.Shipped table' := Or.inr ht'
  obtain ⟨μ, hroot⟩ := parse_eq_ok h
  obtain ⟨ν, hroot'⟩ := parse_eq_ok h'
  have hfall : Session.Falling ⟨table, recover, text.toArray⟩
      (Session.height ⟨table, recover, text.toArray⟩ Catalog.cornerRank 7) :=
    Catalog.Shipped.falling hshipped
  -- the heights of the two sessions are the same, for they are those of the text
  have hfall' : Session.Falling ⟨table', recover, text.toArray⟩
      (Session.height ⟨table, recover, text.toArray⟩ Catalog.cornerRank 7) :=
    Catalog.Shipped.falling (s := ⟨table', recover, text.toArray⟩) hshipped'
  have hresting : Session.Resting (Session.upToExpected ⟨table, recover, text.toArray⟩
      (Session.Boundary ⟨table, recover, text.toArray⟩)) ⟨table, recover, text.toArray⟩
      ⟨table', recover, text.toArray⟩
      (Session.height ⟨table, recover, text.toArray⟩ Catalog.cornerRank 7) :=
    Session.resting_of_apart hx hshipped.built hshipped'.built hstack rfl rfl hfall hfall' hliterals
      hreadings
  exact hmasks ▸ hresting.parse_tracks hroot hroot'

end LayeredGrammar
