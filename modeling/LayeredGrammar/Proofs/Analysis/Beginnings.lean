import LayeredGrammar.Analysis.FirstSets
import LayeredGrammar.Analysis.Overlap
import LayeredGrammar.Proofs.Grammar.Alternatives

/-!
# How productions begin

`Begins` says which terminals a production can begin with, and whether it can be empty. First sets
hold nothing else (`FirstSets.begins_ofRules`), and what they hold need not be computed to see that
two productions begin in different ways: it is enough to look at the literals and names that they
can begin with (`Production.leaders`), given literals that only few rules begin with
(`Overlap.terminals_of_begins`).
-/

namespace LayeredGrammar

/-! ## Beginnings -/

/-- A production can begin with a terminal, or be empty, given the rules and the tokens that it may
refer to. -/
inductive Begins (rules : NameTable Production) (tokens : List String) :
    Production → Option Terminal → Prop
  | lit {value} : Begins rules tokens (.lit value) (some (litTerminal value))
  | token {name} (hn : name ∈ tokens) : Begins rules tokens (.ref name) (some name)
  | rule {name body t} (hn : name ∉ tokens) (hb : (name, body) ∈ rules)
    (h : Begins rules tokens body t) : Begins rules tokens (.ref name) t
  | done : Begins rules tokens (.seq []) none
  | first {p ps t} (h : Begins rules tokens p (some t)) : Begins rules tokens (.seq (p :: ps)) (some t)
  | later {p ps t} (h : Begins rules tokens p none) (h' : Begins rules tokens (.seq ps) t) :
    Begins rules tokens (.seq (p :: ps)) t
  | choice {members p t} (hp : p ∈ members) (h : Begins rules tokens p t) :
    Begins rules tokens (.choice members) t
  | rep {p least recover t} (h : Begins rules tokens p t) : Begins rules tokens (.rep p least recover) t
  | unrepeated {p recover} : Begins rules tokens (.rep p 0 recover) none
  | opt {p t} (h : Begins rules tokens p t) : Begins rules tokens (.opt p) t
  | omitted {p} : Begins rules tokens (.opt p) none
  | blank : Begins rules tokens .blank none
  | field {name p t} (h : Begins rules tokens p t) : Begins rules tokens (.field name p) t
  | renamed {p kind t} (h : Begins rules tokens p t) : Begins rules tokens (.renamed p kind) t
  | prec {value p assoc unary t} (h : Begins rules tokens p t) :
    Begins rules tokens (.prec value p assoc unary) t

namespace SequenceSet

/-- What a concatenation begins with. -/
theorem head?_of_mem_concat {a : Sequence} {s t : SequenceSet} (h : a ∈ s.concat t) :
    (∃ x ∈ s, x ≠ [] ∧ a.head? = x.head?) ∨ ([] ∈ s ∧ ∃ y ∈ t, a.head? = y.head?) := by
  rcases mem_concat.1 h with ⟨ha, hfull⟩ | ⟨x, hx, _, y, hy, rfl⟩
  · refine Or.inl ⟨a, ha, ?_, rfl⟩
    rintro rfl
    cases hfull
  · cases x with
    | nil =>
      refine Or.inr ⟨hx, y, hy, ?_⟩
      cases y <;> rfl
    | cons t x => exact Or.inl ⟨t :: x, hx, nofun, rfl⟩

end SequenceSet

namespace FirstSets

variable {rules : NameTable Production} {f : FirstSets} {a : Sequence} {p : Production}

/-! ## What is in a first set -/

/-- What a rule can begin with, as far as known. -/
def known (f : FirstSets) (name : String) : SequenceSet := (f.table.get? name).getD .empty

theorem mem_known {name : String} : a ∈ f.known name ↔ ∃ s, f.table.get? name = some s ∧ a ∈ s := by
  unfold known
  cases f.table.get? name with
  | none => simp
  | some s => simp

theorem mem_first_token {name : String} (hn : name ∈ f.tokens) :
    a ∈ f.first (.ref name) ↔ a = [name] := by
  rw [first, if_pos (List.contains_iff_mem.2 hn), SequenceSet.mem_singleton]

theorem mem_first_rule {name : String} (hn : name ∉ f.tokens) :
    a ∈ f.first (.ref name) ↔ a ∈ f.known name := by
  rw [first, if_neg fun h => hn (List.contains_iff_mem.1 h)]
  rfl

/-- A sequence goes on through items in a row: one that reaches the lookahead stays, a shorter one is
followed by what the next item begins with. -/
inductive Continues (f : FirstSets) : List Production → Sequence → Sequence → Prop
  | done {x} : Continues f [] x x
  | full {p ps x} (hx : SequenceSet.isFull x = true) : Continues f (p :: ps) x x
  | step {p ps x y a} (hx : SequenceSet.isFull x = false) (hy : y ∈ f.first p)
    (h : Continues f ps ((x ++ y).take lookahead) a) : Continues f (p :: ps) x a

theorem Continues.of_full {ps : List Production} {x : Sequence}
    (hx : SequenceSet.isFull x = true) (h : f.Continues ps x a) : a = x := by
  cases h with
  | done => rfl
  | full _ => rfl
  | step hx' _ _ => exact absurd hx (by rw [hx']; exact Bool.false_ne_true)

theorem mem_firstSeq {ps : List Production} {acc : SequenceSet} :
    a ∈ f.firstSeq ps acc ↔ ∃ x ∈ acc, f.Continues ps x a := by
  induction ps generalizing acc with
  | nil =>
    rw [firstSeq]
    constructor
    · exact fun h => ⟨a, h, .done⟩
    · rintro ⟨x, hx, ⟨⟩⟩
      exact hx
  | cons p ps ih =>
    rw [firstSeq]
    split
    · rename_i hfull
      have hall : ∀ x ∈ acc, SequenceSet.isFull x = true := List.all_eq_true.1 hfull
      constructor
      · exact fun h => ⟨a, h, .full (hall a h)⟩
      · rintro ⟨x, hx, h⟩
        exact h.of_full (hall x hx) ▸ hx
    · rw [ih]
      constructor
      · rintro ⟨x, hx, h⟩
        rcases SequenceSet.mem_concat.1 hx with ⟨hx, hfull⟩ | ⟨y, hy, hfull, z, hz, rfl⟩
        · cases h.of_full hfull
          exact ⟨a, hx, .full hfull⟩
        · exact ⟨y, hy, .step hfull hz h⟩
      · rintro ⟨x, hx, h⟩
        cases h with
        | full hfull =>
          refine ⟨a, SequenceSet.mem_concat.2 (Or.inl ⟨hx, hfull⟩), ?_⟩
          cases ps with
          | nil => exact .done
          | cons => exact .full hfull
        | step hfull hy h =>
          exact ⟨_, SequenceSet.mem_concat.2 (Or.inr ⟨x, hx, hfull, _, hy, rfl⟩), h⟩

theorem mem_first_seq {items : List Production} :
    a ∈ f.first (.seq items) ↔ f.Continues items [] a := by
  rw [first, mem_firstSeq]
  simp

theorem mem_first_choice {members : List Production} :
    a ∈ f.first (.choice members) ↔ ∃ p ∈ members, a ∈ f.first p := by
  rw [first]
  induction members with
  | nil => simp [firstAny]
  | cons p ps ih => simp [firstAny, ih]

theorem mem_first_rep {least : Int} {recover : Bool} :
    a ∈ f.first (.rep p least recover) ↔
      (least = 0 ∧ a = []) ∨ a ∈ (f.first p).concat ((f.first p).insert []) := by
  rw [first]
  split
  · rename_i hleast
    simp [hleast]
  · rename_i hleast
    simp [hleast]

theorem mem_first_opt : a ∈ f.first (.opt p) ↔ a = [] ∨ a ∈ f.first p := by
  rw [first, SequenceSet.mem_insert]

theorem known_update (f : FirstSets) (r : String × Production) (name : String) :
    (f.update r).known name = if name = r.1 then f.first r.2 else f.known name := by
  unfold known update
  rw [NameTable.get?_set]
  by_cases hn : name = r.1
  · rw [if_pos hn, if_pos hn]
    rfl
  · rw [if_neg hn, if_neg hn]

theorem known_empty (tokens : List String) (name : String) :
    known ⟨tokens, rules.map fun r => (r.1, .empty)⟩ name = .empty := by
  unfold known
  rw [NameTable.get?_map rules (fun _ _ => SequenceSet.empty)]
  cases rules.get? name with
  | none => rfl
  | some _ => rfl

/-! ## Sound first sets -/

/-- First sets that hold beginnings of the bodies of rules only. -/
def Sound (rules : NameTable Production) (f : FirstSets) : Prop :=
  ∀ name, ∀ a ∈ f.known name, ∃ body, (name, body) ∈ rules ∧ Begins rules f.tokens body a.head?

/-- What items in a row lead to begins as what was read before, or as the items if nothing was. -/
theorem Continues.begins {ps : List Production} {x : Sequence} (h : f.Continues ps x a)
    (hps : ∀ p ∈ ps, ∀ y ∈ f.first p, Begins rules f.tokens p y.head?) :
    (x ≠ [] → a.head? = x.head?) ∧ (x = [] → Begins rules f.tokens (.seq ps) a.head?) := by
  induction h with
  | done =>
    refine ⟨fun _ => rfl, ?_⟩
    rintro rfl
    exact .done
  | full hfull =>
    refine ⟨fun _ => rfl, ?_⟩
    rintro rfl
    cases hfull
  | @step p ps x y a _ hy _ ih =>
    rw [List.forall_mem_cons] at hps
    obtain ⟨hsame, hbegins⟩ := ih hps.2
    cases x with
    | cons t x => exact ⟨fun _ => hsame nofun, nofun⟩
    | nil =>
      refine ⟨fun hne => absurd rfl hne, fun _ => ?_⟩
      have hp := hps.1 y hy
      cases y with
      | nil => exact .later hp (hbegins rfl)
      | cons t y =>
        rw [hsame nofun]
        exact .first hp

/-- A first set holds beginnings of its production only. -/
theorem Sound.begins (hf : f.Sound rules) (p : Production) :
    ∀ a ∈ f.first p, Begins rules f.tokens p a.head? := by
  induction p using Production.induction_children with
  | step p ih =>
    intro a h
    cases p with
    | lit value =>
      rw [first, SequenceSet.mem_singleton] at h
      exact h ▸ .lit
    | ref name =>
      by_cases hn : name ∈ f.tokens
      · rw [mem_first_token hn] at h
        exact h ▸ .token hn
      · obtain ⟨body, hb, hbegins⟩ := hf name a ((mem_first_rule hn).1 h)
        exact .rule hn hb hbegins
    | seq items => exact ((mem_first_seq.1 h).begins ih).2 rfl
    | choice members =>
      obtain ⟨q, hq, h⟩ := mem_first_choice.1 h
      exact .choice hq (ih q hq a h)
    | rep q least recover =>
      have hq := ih q List.mem_cons_self
      rcases mem_first_rep.1 h with ⟨rfl, rfl⟩ | h
      · exact .unrepeated
      · rcases SequenceSet.head?_of_mem_concat h with ⟨x, hx, _, heq⟩ | ⟨hx, y, hy, heq⟩
        · exact heq ▸ .rep (hq x hx)
        · rcases SequenceSet.mem_insert.1 hy with rfl | hy
          · exact heq ▸ .rep (hq [] hx)
          · exact heq ▸ .rep (hq y hy)
    | opt q =>
      rcases mem_first_opt.1 h with rfl | h
      · exact .omitted
      · exact .opt (ih q List.mem_cons_self a h)
    | blank =>
      rw [first, SequenceSet.mem_singleton] at h
      exact h ▸ .blank
    | field _ q => exact .field (ih q List.mem_cons_self a (by rwa [first] at h))
    | renamed q _ => exact .renamed (ih q List.mem_cons_self a (by rwa [first] at h))
    | prec _ q _ _ => exact .prec (ih q List.mem_cons_self a (by rwa [first] at h))

/-- Updating a rule keeps first sets sound. -/
theorem Sound.update (hf : f.Sound rules) {r : String × Production} (hr : r ∈ rules) :
    (f.update r).Sound rules := by
  intro name a ha
  rw [known_update] at ha
  split at ha
  · rename_i hn
    exact ⟨r.2, hn ▸ hr, hf.begins r.2 a ha⟩
  · exact hf name a ha

/-- What every update keeps, a sweep keeps. -/
theorem sweep_keeps {motive : FirstSets → Prop}
    (hupdate : ∀ r ∈ rules, ∀ f, motive f → motive (FirstSets.update f r)) (hf : motive f) :
    motive (f.sweep rules) :=
  List.foldlRecOn rules FirstSets.update hf fun f hf r hr => hupdate r hr f hf

/-- What every update keeps, sweeping keeps to its end. -/
theorem settle_keeps {motive : FirstSets → Prop}
    (hupdate : ∀ r ∈ rules, ∀ f, motive f → motive (FirstSets.update f r)) (hf : motive f) (n : Nat) :
    motive (settle rules n f) := by
  induction n generalizing f with
  | zero => exact hf
  | succ n ih =>
    rw [settle]
    split
    · exact hf
    · exact ih (sweep_keeps hupdate hf)

theorem tokens_ofRules (rules : NameTable Production) (tokens : List String) :
    (ofRules rules tokens).tokens = tokens :=
  settle_keeps (motive := fun f => f.tokens = tokens) (fun _ _ _ hf => hf) rfl (sweepBound rules)

/-- **First sets hold beginnings only.** -/
theorem begins_ofRules {tokens : List String} {p : Production} {a : Sequence}
    (h : a ∈ (ofRules rules tokens).first p) : Begins rules tokens p a.head? := by
  have hempty : Sound rules ⟨tokens, rules.map fun r => (r.1, .empty)⟩ := by
    intro name a ha
    rw [known_empty] at ha
    exact absurd ha (SequenceSet.not_mem_empty a)
  have hsound : Sound rules (ofRules rules tokens) :=
    settle_keeps (fun r hr f hf => hf.update hr) hempty (sweepBound rules)
  have hbegins := hsound.begins p a h
  rwa [tokens_ofRules] at hbegins

end FirstSets

/-! ## Leaders -/

namespace Production

/-- Whether a production is the blank one. -/
def isBlank : Production → Bool
  | .blank => true
  | _ => false

mutual

/-- The literals and names that a production can begin with, and the blank production if it can be
empty, given the rules that can. -/
def leaders (empties : List String) : Production → List Production
  | .lit value => [.lit value]
  | .ref name => if empties.contains name then [.ref name, .blank] else [.ref name]
  | .seq items => leadersInRow empties items
  | .choice members => leadersOfAll empties members
  | .rep p least _ => if least = 0 then .blank :: leaders empties p else leaders empties p
  | .opt p => .blank :: leaders empties p
  | .blank => [.blank]
  | .field _ p => leaders empties p
  | .renamed p _ => leaders empties p
  | .prec _ p _ _ => leaders empties p

/-- The leaders of items in a row: those of a later item count if all before it can be empty. -/
def leadersInRow (empties : List String) : List Production → List Production
  | [] => [.blank]
  | p :: ps =>
    let front := leaders empties p
    if front.any isBlank then front.filter (!·.isBlank) ++ leadersInRow empties ps else front

/-- The leaders of one of several productions. -/
def leadersOfAll (empties : List String) : List Production → List Production
  | [] => []
  | p :: ps => leaders empties p ++ leadersOfAll empties ps

end

/-- Whether a production can be empty, given the rules that can. -/
def mayVanish (empties : List String) (p : Production) : Bool := (p.leaders empties).any isBlank

/-- Whether the body of a rule begins with a rare literal only if the rule is listed for it, and is
empty only if the rule is listed. Rare literals come with the rules that can begin with them. -/
def isQuiet (empties : List String) (rare : NameTable (List String)) (rule : String)
    (body : Production) : Bool :=
  (body.leaders empties).all fun
    | .lit value => (rare.get? value).all (·.contains rule)
    | .ref name => rare.all fun e => !e.2.contains name || e.2.contains rule
    | .blank => empties.contains rule
    | _ => true

/-- What a leader can begin with, if only the listed rules begin with rare literals. -/
inductive Leads (tokens : List String) (rare : NameTable (List String)) :
    Production → Option Terminal → Prop
  | lit {value} : Leads tokens rare (.lit value) (some (litTerminal value))
  | token {name} (hn : name ∈ tokens) : Leads tokens rare (.ref name) (some name)
  | ruleLit {name value} (hn : name ∉ tokens)
    (hv : ∀ names, rare.get? value = some names → name ∈ names) :
    Leads tokens rare (.ref name) (some (litTerminal value))
  | ruleToken {name token} (hn : name ∉ tokens) (ht : token ∈ tokens) :
    Leads tokens rare (.ref name) (some token)
  | blank : Leads tokens rare .blank none

variable {rules : NameTable Production} {tokens empties : List String}
  {rare : NameTable (List String)} {p : Production} {ps : List Production}

theorem mem_leadersOfAll {l : Production} (hp : p ∈ ps) (hl : l ∈ p.leaders empties) :
    l ∈ leadersOfAll empties ps := by
  induction ps with
  | nil => cases hp
  | cons q ps ih =>
    rw [leadersOfAll, List.mem_append]
    rcases List.mem_cons.1 hp with rfl | hp
    · exact Or.inl hl
    · exact Or.inr (ih hp)

theorem mem_leadersInRow_of_first {l : Production} (hl : l ∈ p.leaders empties)
    (hblank : l.isBlank = false) : l ∈ leadersInRow empties (p :: ps) := by
  rw [leadersInRow]
  split
  · exact List.mem_append_left _ (List.mem_filter.2 ⟨hl, by rw [hblank]; rfl⟩)
  · exact hl

theorem mem_leadersInRow_of_later {l : Production} (hp : p.mayVanish empties = true)
    (hl : l ∈ leadersInRow empties ps) : l ∈ leadersInRow empties (p :: ps) := by
  unfold mayVanish at hp
  rw [leadersInRow, if_pos hp]
  exact List.mem_append_right _ hl

theorem ref_mem_leaders (name : String) : .ref name ∈ (ref name).leaders empties := by
  rw [leaders]
  split
  · exact List.mem_cons_self
  · exact List.mem_cons_self

/-- A rule whose body is quiet begins as one. -/
theorem Leads.ofBody {name : String} (hn : name ∉ tokens)
    (hb : p.isQuiet empties rare name = true) {l : Production} (hl : l ∈ p.leaders empties)
    {t : Option Terminal} (h : Leads tokens rare l t) :
    ∃ l ∈ (ref name).leaders empties, Leads tokens rare l t := by
  have hquiet := List.all_eq_true.1 hb l hl
  cases h with
  | lit =>
    refine ⟨_, ref_mem_leaders name, .ruleLit hn fun names hnames => ?_⟩
    simpa [hnames] using hquiet
  | token ht => exact ⟨_, ref_mem_leaders name, .ruleToken hn ht⟩
  | ruleLit _ hv =>
    refine ⟨_, ref_mem_leaders name, .ruleLit hn fun names hnames => ?_⟩
    have hlisted := List.all_eq_true.1 hquiet _ (NameTable.mem_of_get? hnames)
    simpa [hv names hnames] using hlisted
  | ruleToken _ ht => exact ⟨_, ref_mem_leaders name, .ruleToken hn ht⟩
  | blank =>
    refine ⟨.blank, ?_, .blank⟩
    rw [leaders, if_pos hquiet]
    exact List.mem_cons_of_mem _ List.mem_cons_self

end Production

/-- **A production begins as one of its leaders.** -/
theorem Begins.leads {rules : NameTable Production} {tokens empties : List String}
    {rare : NameTable (List String)} (hrules : ∀ r ∈ rules, r.2.isQuiet empties rare r.1 = true)
    {p : Production} {t : Option Terminal} (h : Begins rules tokens p t) :
    ∃ l ∈ p.leaders empties, Production.Leads tokens rare l t := by
  induction h with
  | lit => exact ⟨_, List.mem_cons_self, .lit⟩
  | token hn => exact ⟨_, Production.ref_mem_leaders _, .token hn⟩
  | rule hn hb _ ih =>
    obtain ⟨l, hl, hleads⟩ := ih
    exact hleads.ofBody hn (hrules _ hb) hl
  | done => exact ⟨_, List.mem_cons_self, .blank⟩
  | first _ ih =>
    obtain ⟨l, hl, hleads⟩ := ih
    refine ⟨l, Production.mem_leadersInRow_of_first hl ?_, hleads⟩
    cases hleads <;> rfl
  | later _ _ ih ih' =>
    obtain ⟨l, hl, hleads⟩ := ih
    obtain ⟨l', hl', hleads'⟩ := ih'
    refine ⟨l', Production.mem_leadersInRow_of_later ?_ hl', hleads'⟩
    cases hleads
    exact List.any_eq_true.2 ⟨_, hl, rfl⟩
  | choice hp _ ih =>
    obtain ⟨l, hl, hleads⟩ := ih
    exact ⟨l, Production.mem_leadersOfAll hp hl, hleads⟩
  | rep _ ih =>
    obtain ⟨l, hl, hleads⟩ := ih
    refine ⟨l, ?_, hleads⟩
    rw [Production.leaders]
    split
    · exact List.mem_cons_of_mem _ hl
    · exact hl
  | unrepeated =>
    refine ⟨.blank, ?_, .blank⟩
    rw [Production.leaders, if_pos rfl]
    exact List.mem_cons_self
  | opt _ ih =>
    obtain ⟨l, hl, hleads⟩ := ih
    exact ⟨l, List.mem_cons_of_mem _ hl, hleads⟩
  | omitted => exact ⟨_, List.mem_cons_self, .blank⟩
  | blank => exact ⟨_, List.mem_cons_self, .blank⟩
  | field _ ih => exact ih
  | renamed _ ih => exact ih
  | prec _ ih => exact ih

/-- Only a production with the blank one among its leaders can be empty. -/
theorem Begins.mayVanish {rules : NameTable Production} {tokens empties : List String}
    {rare : NameTable (List String)} (hrules : ∀ r ∈ rules, r.2.isQuiet empties rare r.1 = true)
    {p : Production} (h : Begins rules tokens p none) : p.mayVanish empties = true := by
  obtain ⟨l, hl, hleads⟩ := h.leads hrules
  cases hleads
  exact List.any_eq_true.2 ⟨_, hl, rfl⟩

/-! ## Productions that begin in different ways -/

namespace Overlap

variable {o : Overlap} {rare : NameTable (List String)}

/-- Whether a literal is a rare one that a rule does not begin with, and no token reads it. -/
def isLone (o : Overlap) (rare : NameTable (List String)) (rule value : String) : Bool :=
  (rare.get? value).any (!·.contains rule) &&
    o.tokens.names.all fun token => !o.literalIsToken value token

/-- Whether two leaders begin in different ways. -/
def leadersApart (o : Overlap) (rare : NameTable (List String)) : Production → Production → Bool
  | .lit v, .lit w => v != w
  | .lit v, .ref n | .ref n, .lit v =>
    if o.tokens.names.contains n then !o.literalIsToken v n else o.isLone rare n v
  | .ref m, .ref n => o.tokens.names.contains m && o.tokens.names.contains n && m != n
  | _, _ => true

theorem isLiteral_litTerminal (value : String) : isLiteral (litTerminal value) = true := by
  simp [isLiteral, litTerminal]

theorem literalValue_litTerminal (value : String) : literalValue (litTerminal value) = value := by
  simp [literalValue, litTerminal]

theorem litTerminal_inj {v w : String} (h : litTerminal v = litTerminal w) : v = w := by
  rw [← literalValue_litTerminal v, h, literalValue_litTerminal]

theorem terminals_comm (o : Overlap) (a b : Terminal) : o.terminals a b = o.terminals b a := by
  unfold terminals
  by_cases hab : a = b
  · rw [hab]
  · rw [if_neg hab, if_neg (Ne.symm hab)]
    cases isLiteral a <;> cases isLiteral b <;> rfl

theorem terminals_lit_lit {v w : String} (h : v ≠ w) :
    o.terminals (litTerminal v) (litTerminal w) = false := by
  unfold terminals
  rw [if_neg fun heq => h (litTerminal_inj heq), isLiteral_litTerminal, isLiteral_litTerminal]
  rfl

theorem terminals_lit_token {v token : String} (ht : isLiteral token = false)
    (h : o.literalIsToken v token = false) : o.terminals (litTerminal v) token = false := by
  have hne : litTerminal v ≠ token := by
    rintro rfl
    rw [isLiteral_litTerminal] at ht
    cases ht
  unfold terminals
  rw [if_neg hne, isLiteral_litTerminal, ht, literalValue_litTerminal]
  exact h

theorem terminals_token_token {m n : String} (hm : isLiteral m = false) (hn : isLiteral n = false)
    (h : m ≠ n) : o.terminals m n = false := by
  unfold terminals
  rw [if_neg h, hm, hn]
  rfl

/-- A literal and another leader that begins in a different way. -/
theorem terminals_of_lit_apart (htokens : ∀ token ∈ o.tokens.names, isLiteral token = false)
    {v : String} {r : Production} (h : o.leadersApart rare (.lit v) r = true) {t : Terminal}
    (hr : r.Leads o.tokens.names rare (some t)) : o.terminals (litTerminal v) t = false := by
  cases hr with
  | lit => exact terminals_lit_lit (by simpa [leadersApart] using h)
  | token hn =>
    refine terminals_lit_token (htokens _ hn) ?_
    simpa [leadersApart, hn] using h
  | @ruleLit name _ hn hv =>
    have hlone : o.isLone rare name v = true := by simpa [leadersApart, hn] using h
    obtain ⟨names, hnames, hname⟩ := (Option.any_eq_true _ _).1 (Bool.and_eq_true_iff.1 hlone).1
    refine terminals_lit_lit fun heq => ?_
    subst heq
    simp [hv names hnames] at hname
  | @ruleToken name _ hn ht =>
    have hlone : o.isLone rare name v = true := by simpa [leadersApart, hn] using h
    have hall := List.all_eq_true.1 (Bool.and_eq_true_iff.1 hlone).2 _ ht
    exact terminals_lit_token (htokens _ ht) (by simpa using hall)

/-- **Leaders that begin in different ways do not overlap.** -/
theorem terminals_of_apart (htokens : ∀ token ∈ o.tokens.names, isLiteral token = false)
    {l r : Production} (h : o.leadersApart rare l r = true) {t u : Terminal}
    (hl : l.Leads o.tokens.names rare (some t)) (hr : r.Leads o.tokens.names rare (some u)) :
    o.terminals t u = false := by
  match l, r, h, hl, hr with
  | .lit v, r, h, .lit, hr => exact terminals_of_lit_apart htokens h hr
  | .ref n, .lit v, h, hl, .lit =>
    rw [terminals_comm]
    exact terminals_of_lit_apart htokens h hl
  | .ref m, .ref n, h, hl, hr =>
    simp only [leadersApart, Bool.and_eq_true, List.contains_iff_mem, bne_iff_ne] at h
    obtain ⟨⟨hm, hn⟩, hne⟩ := h
    cases hl with
    | token _ =>
      cases hr with
      | token _ => exact terminals_token_token (htokens _ hm) (htokens _ hn) hne
      | ruleLit hn' _ => exact absurd hn hn'
      | ruleToken hn' _ => exact absurd hn hn'
    | ruleLit hm' _ => exact absurd hm hm'
    | ruleToken hm' _ => exact absurd hm hm'

/-- Sequences overlap only if their first terminals do. -/
theorem sequences_of_heads {a b : Sequence}
    (h : ∀ t ∈ a.head?, ∀ u ∈ b.head?, o.terminals t u = false) : o.sequences a b = false := by
  cases a with
  | nil => rfl
  | cons t a =>
    cases b with
    | nil => simp [sequences]
    | cons u b => simp [sequences, h t rfl u rfl]

/-- Whether two productions begin in different ways, or with nothing. -/
def apart (o : Overlap) (empties : List String) (rare : NameTable (List String))
    (p q : Production) : Bool :=
  (p.leaders empties).all fun l => (q.leaders empties).all fun r => o.leadersApart rare l r

/-- **Productions that begin in different ways do not overlap.** -/
theorem terminals_of_begins (htokens : ∀ token ∈ o.tokens.names, isLiteral token = false)
    {rules : NameTable Production} {empties : List String}
    (hrules : ∀ r ∈ rules, r.2.isQuiet empties rare r.1 = true) {p q : Production}
    (h : o.apart empties rare p q = true) {t u : Terminal}
    (hp : Begins rules o.tokens.names p (some t)) (hq : Begins rules o.tokens.names q (some u)) :
    o.terminals t u = false := by
  obtain ⟨l, hl, hleads⟩ := hp.leads hrules
  obtain ⟨r, hr, hleads'⟩ := hq.leads hrules
  have hapart := List.all_eq_true.1 (List.all_eq_true.1 h l hl) r hr
  exact terminals_of_apart htokens hapart hleads hleads'

end Overlap

end LayeredGrammar
