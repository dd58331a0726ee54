import LayeredGrammar.Proofs.Engine.Boundaries
import LayeredGrammar.Proofs.Engine.Coupling
import Mathlib.Data.List.Forall2

/-!
# Matches of two sessions that correspond

A pairing says which nodes of two sessions correspond, for instance those that differ only in what
was expected at an error region. It extends to items, matches, runs and candidates of a choice:
everything else about them has to be equal. `Pairing.Lawful` lists what a pairing must respect at
the places where nodes are made, and from that every way the engine puts matches together keeps the
correspondence, up to the winner of a choice (`Pairing.Lawful.best`).

`Engine.Tracks` is the matching notion for computations. Unlike `Engine.Coupled` it lets values
differ, and it says nothing if the limit on nested rules stops one of the two.
-/

namespace LayeredGrammar

/-! ## Computations side by side -/

namespace Engine

variable {α β γ δ : Type} {link : Memo → Memo → Prop}

/-- Two computations that, from linked memos, end with linked memos and related values if both end
with a value. -/
def Tracks (link : Memo → Memo → Prop) (x : Engine α) (y : Engine β) (rel : α → β → Prop) : Prop :=
  ∀ μ ν, link μ ν → ∀ a b μ' ν', x μ = .ok a μ' → y ν = .ok b ν' → link μ' ν' ∧ rel a b

namespace Tracks

variable {x : Engine α} {y : Engine β} {rel : α → β → Prop} {rel' : γ → δ → Prop}

theorem pure {a : α} {b : β} (h : rel a b) :
    Tracks link (Pure.pure a : Engine α) (Pure.pure b : Engine β) rel := by
  intro μ ν hlink a' b' μ' ν' hx hy
  cases hx
  cases hy
  exact ⟨hlink, h⟩

theorem bind {f : α → Engine γ} {g : β → Engine δ} (hx : Tracks link x y rel)
    (hf : ∀ a b, rel a b → Tracks link (f a) (g b) rel') :
    Tracks link (x >>= f) (y >>= g) rel' := by
  intro μ ν hlink c d μ'' ν'' hc hd
  obtain ⟨a, μ', ha, hc⟩ := bind_eq_ok hc
  obtain ⟨b, ν', hb, hd⟩ := bind_eq_ok hd
  obtain ⟨hlink', hab⟩ := hx μ ν hlink a b μ' ν' ha hb
  exact hf a b hab μ' ν' hlink' c d μ'' ν'' hc hd

theorem mono {rel' : α → β → Prop} (hx : Tracks link x y rel) (h : ∀ a b, rel a b → rel' a b) :
    Tracks link x y rel' := by
  intro μ ν hlink a b μ' ν' ha hb
  obtain ⟨hlink', hab⟩ := hx μ ν hlink a b μ' ν' ha hb
  exact ⟨hlink', h a b hab⟩

/-- Values that are there are related in a weaker way too. -/
theorem weaken {x : Engine (Option α)} {y : Engine (Option β)} {rel rel' : α → β → Prop}
    (hx : Tracks link x y (Option.Rel rel)) (h : ∀ a b, rel a b → rel' a b) :
    Tracks link x y (Option.Rel rel') := by
  refine hx.mono fun a b hab => ?_
  cases hab with
  | none => exact .none
  | some hab => exact .some (h _ _ hab)

end Tracks

end Engine

namespace Match

theorem rename_eq_wrap {m : Match} {content : Production} {kind : String}
    (h : ∀ x, m.items ≠ [x]) : m.rename content kind = m.wrap kind := by
  unfold Match.rename
  split
  · rename_i node names hitems
    exact absurd hitems (h (node, names))
  · rfl

/-- What is expected at the nodes of a match; what is below them is left aside. -/
def expected (m : Match) : List (List String) := m.items.map (·.1.expected)

/-- What a rule that is not hidden makes of a match is no error region. -/
theorem expected_finish (m : Match) {rule : String} (hvisible : isHidden rule = false) :
    (m.finish rule).expected = [[]] := by
  obtain ⟨hhidden, _⟩ | ⟨_, heq | ⟨node, names, _, _, heq⟩⟩ := finish_cases rule m
  · rw [hvisible] at hhidden
    cases hhidden
  · rw [heq]
    rfl
  · rw [heq]
    rfl

theorem finish_eq_wrap_of_items {m : Match} {rule : String} (hvisible : isHidden rule = false)
    (h : ∀ x, m.items ≠ [x]) : m.finish rule = m.wrap rule := by
  unfold Match.finish
  rw [hvisible, if_neg Bool.false_ne_true]
  split
  · rename_i node names hitems
    exact absurd hitems (h (node, names))
  · rfl

end Match

/-! ## Corresponding lists -/

theorem isEmpty_eq_of_forall₂ {α β : Type} {rel : α → β → Prop} {xs : List α} {ys : List β}
    (h : List.Forall₂ rel xs ys) : xs.isEmpty = ys.isEmpty := by
  cases h <;> rfl

/-- Of two corresponding lists both have a single element or neither has. -/
theorem single_or_not {α β : Type} {rel : α → β → Prop} {xs : List α} {ys : List β}
    (h : List.Forall₂ rel xs ys) : (∃ x y, xs = [x] ∧ ys = [y] ∧ rel x y) ∨
      (∀ x, xs ≠ [x]) ∧ ∀ y, ys ≠ [y] := by
  cases h with
  | nil => exact Or.inr ⟨nofun, nofun⟩
  | cons hxy h =>
    cases h with
    | nil => exact Or.inl ⟨_, _, rfl, rfl, hxy⟩
    | cons _ _ => exact Or.inr ⟨nofun, nofun⟩

theorem optionRel_map {α β γ δ : Type} {rel : α → β → Prop} {rel' : γ → δ → Prop} {f : α → γ}
    {g : β → δ} {x : Option α} {y : Option β} (h : Option.Rel rel x y)
    (hf : ∀ a b, rel a b → rel' (f a) (g b)) : Option.Rel rel' (x.map f) (y.map g) := by
  cases h with
  | none => exact .none
  | some h => exact .some (hf _ _ h)

/-! ## Pairings -/

/-- A correspondence between the nodes of two sessions, with the names it is about. -/
structure Pairing where
  /-- The nodes that correspond. -/
  node : Node → Node → Prop
  /-- The rules that both sessions know. -/
  scope : String → Prop
  /-- The positions that the sessions come to. -/
  reached : Nat → Prop
  /-- The kinds that nodes over items may have. -/
  parents : String → Prop
  /-- The kinds that single nodes may be given instead of their own. -/
  renames : String → Prop
  /-- Those of them that a hidden rule's node may be given, which can be an error region. -/
  masks : String → Prop
  /-- The labels that alternatives of a choice may have. -/
  label : Option String → Prop

namespace Pairing

/-- Items with corresponding nodes and the same names. -/
def item (b : Pairing) (x y : Item) : Prop := b.node x.1 y.1 ∧ x.2 = y.2

/-- Matches with corresponding items that are equal otherwise. -/
structure Matches (b : Pairing) (m m' : Match) : Prop where
  start : m.start = m'.start
  stop : m.stop = m'.stop
  items : List.Forall₂ b.item m.items m'.items
  errors : m.errors = m'.errors
  lead : m.lead = m'.lead
  layered : m.layered = m'.layered
  reached : b.reached m.stop

/-- Corresponding answers to a request for a rule: unless it is hidden, the same is expected at the
nodes it leaves. -/
structure Answers (b : Pairing) (rule : String) (m m' : Match) : Prop extends b.Matches m m' where
  expected : Match.isHidden rule = false → m.expected = m'.expected

/-- Runs with corresponding items that are equal otherwise. -/
structure Runs (b : Pairing) (r r' : Run) : Prop where
  origin : r.origin = r'.origin
  cursor : r.cursor = r'.cursor
  start : r.start = r'.start
  items : List.Forall₂ b.item r.items r'.items
  errors : r.errors = r'.errors
  lead : r.lead = r'.lead
  layered : r.layered = r'.layered
  reached : b.reached r.cursor

/-- Candidates with corresponding matches that are equal otherwise. -/
structure Candidates (b : Pairing) (c c' : Candidate) : Prop where
  index : c.index = c'.index
  label : c.label = c'.label
  found : b.Matches c.found c'.found
  known : b.label c.label

/-- What a pairing must respect: the sessions scan the text in the same way at the positions they
come to, corresponding nodes look the same, and nodes that are made in corresponding ways
correspond. -/
structure Lawful (b : Pairing) (s s' : Session) : Prop where
  confined : s.Confined b.reached
  size : s.size = s'.size
  recover : s.recover = s'.recover
  literal : ∀ value pos, b.reached pos → s.matchLiteral value pos = s'.matchLiteral value pos
  tokens : ∀ name, s.grammar.tokens.get? name = s'.grammar.tokens.get? name
  token : ∀ name t pos, s.matchToken name t pos = s'.matchToken name t pos
  errorSpan : ∀ pos, b.reached pos → s.errorSpan pos = s'.errorSpan pos
  skip : ∀ pos, s.skip pos = s'.skip pos
  rawTokenEnd : ∀ pos, b.reached pos → s.rawTokenEnd (s.skip pos) = s'.rawTokenEnd (s.skip pos)
  start : s.grammar.start = s'.grammar.start
  preferred : ∀ owner labels, (∀ l ∈ labels, b.label l) →
    s.grammar.conflicts.preferred owner labels = s'.grammar.conflicts.preferred owner labels
  kind : ∀ n n', b.node n n' → n.kind = n'.kind
  named : ∀ n n', b.node n n' → n.named = n'.named
  span : ∀ n n', b.node n n' → n.start = n'.start ∧ n.stop = n'.stop
  fields : ∀ n n', b.node n n' → n.fields = n'.fields
  children : ∀ n n', b.node n n' → List.Forall₂ b.node n.children n'.children
  expected : ∀ n n', b.node n n' → n.named = false → n.expected = n'.expected
  leaf : ∀ kind start stop named, b.node (.leaf kind start stop named) (.leaf kind start stop named)
  error : ∀ start stop content, b.node (.error start stop (s.table.expectedFor content))
    (.error start stop (s'.table.expectedFor content))
  rootError : ∀ start stop, b.node (.error start stop s.table.rootExpected)
    (.error start stop s'.table.rootExpected)
  ofItems : ∀ kind start stop items items', b.parents kind → List.Forall₂ b.item items items' →
    b.node (.ofItems kind items start stop) (.ofItems kind items' start stop)
  rename : ∀ kind n n', b.renames kind → b.masks kind ∨ n.expected = n'.expected → b.node n n' →
    b.node { n with kind := kind, named := true } { n' with kind := kind, named := true }

/-! ## Matches and runs -/

variable {b : Pairing} {m m' : Match} {r r' : Run}

theorem matches_empty {pos : Nat} (hpos : b.reached pos) : b.Matches (.empty pos) (.empty pos) :=
  ⟨rfl, rfl, .nil, rfl, rfl, rfl, hpos⟩

theorem runs_begin {pos : Nat} (hpos : b.reached pos) : b.Runs (.begin pos) (.begin pos) :=
  ⟨rfl, rfl, rfl, .nil, rfl, rfl, rfl, hpos⟩

namespace Matches

theorem withFields (h : b.Matches m m') (names : List String) :
    b.Matches (m.withFields names) (m'.withFields names) := by
  refine ⟨h.start, h.stop, ?_, h.errors, h.lead, h.layered, h.reached⟩
  unfold Match.withFields
  rw [List.forall₂_map_left_iff, List.forall₂_map_right_iff]
  refine h.items.imp fun x y hxy => ⟨hxy.1, ?_⟩
  show x.2 ++ names = y.2 ++ names
  rw [hxy.2]

theorem join {left left' : Match} (hl : b.Matches left left') (hm : b.Matches m m') :
    b.Matches (left.join m) (left'.join m') := by
  refine ⟨hl.start, hm.stop, List.rel_append hl.items hm.items, ?_, hl.lead, ?_, hm.reached⟩
  · show left.errors + m.errors = left'.errors + m'.errors
    rw [hl.errors, hm.errors]
  · show (left.layered || m.layered) = (left'.layered || m'.layered)
    rw [hl.layered, hm.layered]

/-- Matches whose items are replaced by one that corresponds. -/
theorem single (h : b.Matches m m') {x x' : Item} (hx : b.item x x') :
    b.Matches { m with items := [x] } { m' with items := [x'] } :=
  ⟨h.start, h.stop, .cons hx .nil, h.errors, h.lead, h.layered, h.reached⟩

end Matches

namespace Runs

theorem take (h : b.Runs r r') (hm : b.Matches m m') : b.Runs (r.take m) (r'.take m') := by
  have hitems := List.rel_append (List.rel_reverse hm.items) h.items
  refine ⟨h.origin, hm.stop, ?_, hitems, ?_, ?_, ?_, hm.reached⟩
  · show some (r.start.getD m.start) = some (r'.start.getD m'.start)
    rw [h.start, hm.start]
  · show r.errors + m.errors = r'.errors + m'.errors
    rw [h.errors, hm.errors]
  · show (if r.start.isSome then r.lead else m.lead) = if r'.start.isSome then r'.lead else m'.lead
    rw [h.start, h.lead, hm.lead]
  · show (r.layered || m.layered) = (r'.layered || m'.layered)
    rw [h.layered, hm.layered]

theorem push (h : b.Runs r r') (hm : b.Matches m m') : b.Runs (r.push m) (r'.push m') := by
  unfold Run.push
  rw [← isEmpty_eq_of_forall₂ hm.items]
  split
  · refine ⟨h.origin, h.cursor, h.start, h.items, ?_, h.lead, ?_, h.reached⟩
    · show r.errors + m.errors = r'.errors + m'.errors
      rw [h.errors, hm.errors]
    · show (r.layered || m.layered) = (r'.layered || m'.layered)
      rw [h.layered, hm.layered]
  · exact h.take hm

theorem pushError (h : b.Runs r r') {start stop : Nat} {expected expected' : List String}
    (hnode : b.node (.error start stop expected) (.error start stop expected'))
    (hstop : b.reached stop) :
    b.Runs (r.pushError start stop expected) (r'.pushError start stop expected') := by
  refine ⟨h.origin, rfl, ?_, .cons ⟨hnode, rfl⟩ h.items, ?_, h.lead, h.layered, hstop⟩
  · show some (r.start.getD start) = some (r'.start.getD start)
    rw [h.start]
  · show r.errors + 1 = r'.errors + 1
    rw [h.errors]

theorem toMatch (h : b.Runs r r') : b.Matches r.toMatch r'.toMatch := by
  refine ⟨?_, h.cursor, List.rel_reverse h.items, h.errors, h.lead, h.layered, h.reached⟩
  show r.start.getD r.origin = r'.start.getD r'.origin
  rw [h.start, h.origin]

end Runs

/-! ## Nodes of matches -/

namespace Lawful

variable {s s' : Session}

theorem wrap (hb : b.Lawful s s') (h : b.Matches m m') {kind : String} (hk : b.parents kind) :
    b.Matches (m.wrap kind) (m'.wrap kind) := by
  refine h.single ⟨?_, rfl⟩
  show b.node (.ofItems kind m.items m.start m.stop) (.ofItems kind m'.items m'.start m'.stop)
  rw [← h.start, ← h.stop]
  exact hb.ofItems kind m.start m.stop m.items m'.items hk h.items

/-- A single node keeps what is expected at it when it gets another kind, which only a reference can
give to an error region. -/
theorem matches_rename (hb : b.Lawful s s') (h : b.Matches m m') {content : Production}
    {kind : String} (hk : b.parents kind) (hr : b.renames kind)
    (href : content.refName?.isSome = true → b.masks kind ∨ m.expected = m'.expected) :
    b.Matches (m.rename content kind) (m'.rename content kind) := by
  have hwrap := hb.wrap h hk
  rcases single_or_not h.items with ⟨⟨node, names⟩, ⟨node', names'⟩, hm, hm', hnode, hnames⟩ | ⟨hm, hm'⟩
  · unfold Match.rename
    simp only [hm, hm', ← hb.named node node' hnode]
    split
    · rename_i hplace
      refine h.single ⟨hb.rename kind node node' hr ?_ hnode, hnames⟩
      rcases Bool.or_eq_true_iff.1 hplace with hplace | hunnamed
      · refine (href hplace).imp_right fun hsame => ?_
        simpa [Match.expected, hm, hm'] using hsame
      · exact Or.inr (hb.expected node node' hnode (by simpa using hunnamed))
    · exact hwrap
  · rw [Match.rename_eq_wrap hm, Match.rename_eq_wrap hm']
    exact hwrap

theorem matches_finish (hb : b.Lawful s s') (h : b.Matches m m') {rule : String}
    (hk : Match.isHidden rule = false → b.parents rule) :
    b.Matches (m.finish rule) (m'.finish rule) := by
  cases hhidden : Match.isHidden rule with
  | true =>
    simp only [Match.finish, hhidden, if_true]
    exact h
  | false =>
    have hwrap := hb.wrap h (hk hhidden)
    rcases single_or_not h.items with ⟨⟨node, names⟩, ⟨node', names'⟩, hm, hm', hnode, _⟩ | ⟨hm, hm'⟩
    · obtain ⟨hstart, hstop⟩ := hb.span node node' hnode
      simp only [Match.finish, hhidden, Bool.false_eq_true, if_false, hm, hm',
        ← hb.named node node' hnode, ← hstart, ← hstop]
      split
      · exact hwrap
      · exact h.single ⟨hb.leaf rule node.start node.stop true, rfl⟩
    · rw [Match.finish_eq_wrap_of_items hhidden hm, Match.finish_eq_wrap_of_items hhidden hm']
      exact hwrap

theorem finish (hb : b.Lawful s s') (h : b.Matches m m') {rule : String}
    (hk : Match.isHidden rule = false → b.parents rule) :
    b.Answers rule (m.finish rule) (m'.finish rule) :=
  ⟨hb.matches_finish h hk, fun hvisible =>
    (m.expected_finish hvisible).trans (m'.expected_finish hvisible).symm⟩

theorem dress (hb : b.Lawful s s') (h : b.Matches m m') {a : Alternative}
    (hk : ∀ kind, a.kind = some kind → b.parents kind) :
    b.Matches (Session.dress a m) (Session.dress a m') := by
  unfold Session.dress
  have hmarked : ∀ f : Bool, b.Matches (if f then { m with layered := true } else m)
      (if f then { m' with layered := true } else m') := by
    intro f
    cases f
    · exact h
    · exact ⟨h.start, h.stop, h.items, h.errors, h.lead, rfl, h.reached⟩
  cases hkind : a.kind with
  | none => exact hmarked _
  | some kind => exact hb.wrap (hmarked _) (hk kind hkind)

theorem extended (hb : b.Lawful s s') {left left' : Match} (hl : b.Matches left left')
    (h : b.Matches m m') {a : Alternative} (hk : ∀ kind, a.kind = some kind → b.parents kind) :
    b.Matches (Session.extended a left m) (Session.extended a left' m') :=
  hb.dress ((hl.withFields _).join h) hk

/-! ## Choices -/

theorem matches_literal (hb : b.Lawful s s') {value : String} {pos : Nat}
    (hpos : b.reached pos) :
    Option.Rel b.Matches (s.matchLiteral value pos) (s'.matchLiteral value pos) := by
  rw [← hb.literal value pos hpos]
  cases h : s.matchLiteral value pos with
  | none => exact .none
  | some m =>
    obtain ⟨l, hl, rfl, rfl⟩ := Session.matchLiteral_eq_some h
    exact .some ⟨rfl, rfl, .cons ⟨hb.leaf _ _ _ _, rfl⟩ .nil, rfl, rfl, rfl,
      hb.confined.literal hpos hl⟩

theorem matches_token (hb : b.Lawful s s') {name : String} {t : Token}
    (ht : s.grammar.tokens.get? name = some t) {pos : Nat} (hpos : b.reached pos) :
    Option.Rel (fun m m' => b.Matches m m' ∧ m.expected = m'.expected) (s.matchToken name t pos)
      (s'.matchToken name t pos) := by
  rw [← hb.token]
  cases h : s.matchToken name t pos with
  | none => exact .none
  | some m =>
    obtain ⟨stop, hm, _, _, rfl⟩ := Session.matchToken_eq_some h
    exact .some ⟨⟨rfl, rfl, .cons ⟨hb.leaf _ _ _ _, rfl⟩ .nil, rfl, rfl, rfl,
      hb.confined.token hpos ht hm⟩, rfl⟩

end Lawful

theorem Candidates.outdoes_eq {c c' d d' : Candidate} (hc : b.Candidates c c')
    (hd : b.Candidates d d') : c.outdoes d = c'.outdoes d' := by
  unfold Candidate.outdoes
  rw [hc.found.errors, hd.found.errors, hc.found.stop, hd.found.stop]

/-- Tests that agree on corresponding candidates leave corresponding ones. -/
theorem candidates_filter {p q : Candidate → Bool} {cs cs' : List Candidate}
    (h : ∀ c c', b.Candidates c c' → p c = q c') (hcs : List.Forall₂ b.Candidates cs cs') :
    List.Forall₂ b.Candidates (cs.filter p) (cs'.filter q) := by
  refine List.rel_filter ?_ hcs
  intro c c' hc
  show p c = true ↔ q c' = true
  rw [h c c' hc]

theorem candidates_any {p q : Candidate → Bool} {cs cs' : List Candidate}
    (h : ∀ c c', b.Candidates c c' → p c = q c') (hcs : List.Forall₂ b.Candidates cs cs') :
    cs.any p = cs'.any q := by
  induction hcs with
  | nil => rfl
  | cons hc _ ih => rw [List.any_cons, List.any_cons, h _ _ hc, ih]

theorem candidates_preferring {p q : Candidate → Bool} {cs cs' : List Candidate}
    (h : ∀ c c', b.Candidates c c' → p c = q c') (hcs : List.Forall₂ b.Candidates cs cs') :
    List.Forall₂ b.Candidates (Candidate.preferring p cs) (Candidate.preferring q cs') := by
  have hkept := candidates_filter h hcs
  have hempty := isEmpty_eq_of_forall₂ hkept
  unfold Candidate.preferring
  simp only [hempty]
  split
  · exact hcs
  · exact hkept

theorem candidates_earliest {cs cs' : List Candidate} (hcs : List.Forall₂ b.Candidates cs cs') :
    Option.Rel b.Candidates (Candidate.earliest? cs) (Candidate.earliest? cs') := by
  cases hcs with
  | nil => exact .none
  | cons hc hcs =>
    refine .some (List.rel_foldl ?_ hc hcs)
    intro c c' hc d d' hd
    show b.Candidates (if d.index < c.index then d else c) (if d'.index < c'.index then d' else c')
    rw [← hc.index, ← hd.index]
    split
    · exact hd
    · exact hc

theorem candidates_labels {cs cs' : List Candidate} (hcs : List.Forall₂ b.Candidates cs cs') :
    cs.map (·.label) = cs'.map (·.label) ∧ ∀ l ∈ cs.map (·.label), b.label l := by
  induction hcs with
  | nil => exact ⟨rfl, nofun⟩
  | cons hc _ ih =>
    rw [List.map_cons, List.map_cons, hc.label, ih.1]
    exact ⟨rfl, List.forall_mem_cons.2 ⟨hc.label ▸ hc.known, ih.1 ▸ ih.2⟩⟩

/-- Declared conflicts favour corresponding candidates. -/
theorem candidates_favoured {s s' : Session} (hb : b.Lawful s s') (owner : String)
    {cs cs' : List Candidate} (hcs : List.Forall₂ b.Candidates cs cs') :
    List.Forall₂ b.Candidates
      (match s.grammar.conflicts.preferred owner (cs.map (·.label)) with
        | some label => cs.filter (·.label == some label)
        | none => cs)
      (match s'.grammar.conflicts.preferred owner (cs'.map (·.label)) with
        | some label => cs'.filter (·.label == some label)
        | none => cs') := by
  obtain ⟨hlabels, hknown⟩ := candidates_labels hcs
  rw [← hlabels, ← hb.preferred owner _ hknown]
  split
  · exact candidates_filter (fun c c' hc => by rw [hc.label]) hcs
  · exact hcs

/-- **Corresponding choices have corresponding winners.** -/
theorem Lawful.best {s s' : Session} (hb : b.Lawful s s') (owner : String)
    {cs cs' : List Candidate} (hcs : List.Forall₂ b.Candidates cs cs') :
    Option.Rel b.Matches (Candidate.best s.grammar.conflicts owner cs)
      (Candidate.best s'.grammar.conflicts owner cs') := by
  have htied : List.Forall₂ b.Candidates (Candidate.leaders cs) (Candidate.leaders cs') := by
    refine candidates_filter (fun c c' hc => ?_) hcs
    rw [candidates_any (fun d d' hd => hd.outdoes_eq hc) hcs]
  have hled := candidates_preferring (fun c c' hc => hc.found.lead)
    (candidates_favoured hb owner htied)
  have hbase := candidates_preferring (fun c c' hc => congrArg (!·) hc.found.layered) hled
  exact optionRel_map (candidates_earliest hbase) fun _ _ hc => hc.found

end Pairing

end LayeredGrammar
