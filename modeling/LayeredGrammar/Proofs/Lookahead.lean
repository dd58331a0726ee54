import LayeredGrammar.Proofs.Analysis.Settling

/-!
# First sets are exact

`Production.Derives` reads a production as a context-free expression over labels: it derives strings
of them. First sets hold what these strings begin with, and nothing else
(`FirstSets.first_exact`).

Nothing is missing because the sets are settled: by induction on the derivation, the beginning of
what is derived is in the first set (`FirstSets.Settled.accounts`). Nothing is too much because no
update adds anything else (`FirstSets.Justified.update`); for this, the items after those that reach
the lookahead must derive something, and repetitions may not ask for more than one copy.
-/

namespace LayeredGrammar

/-! ## Derivations -/

namespace Production

/-- The strings of labels that a production derives from rules and tokens. The name of a token stands
for the token. -/
inductive Derives (rules : NameTable Production) (tokens : List String) :
    Production → Sequence → Prop
  | lit {value} : Derives rules tokens (.lit value) [litTerminal value]
  | token {name} (hn : name ∈ tokens) : Derives rules tokens (.ref name) [name]
  | rule {name body w} (hn : name ∉ tokens) (hb : rules.get? name = some body)
    (h : Derives rules tokens body w) : Derives rules tokens (.ref name) w
  | seqNil : Derives rules tokens (.seq []) []
  | seqCons {p ps u v} (h : Derives rules tokens p u) (h' : Derives rules tokens (.seq ps) v) :
    Derives rules tokens (.seq (p :: ps)) (u ++ v)
  | choice {members p w} (hp : p ∈ members) (h : Derives rules tokens p w) :
    Derives rules tokens (.choice members) w
  | rep {p} {least : Int} {recover} {copies : List Sequence} (hl : least ≤ copies.length)
    (h : ∀ w ∈ copies, Derives rules tokens p w) :
    Derives rules tokens (.rep p least recover) copies.flatten
  | opt {p w} (h : Derives rules tokens p w) : Derives rules tokens (.opt p) w
  | omitted {p} : Derives rules tokens (.opt p) []
  | blank : Derives rules tokens .blank []
  | field {name p w} (h : Derives rules tokens p w) : Derives rules tokens (.field name p) w
  | renamed {p kind w} (h : Derives rules tokens p w) : Derives rules tokens (.renamed p kind) w
  | prec {value p assoc unary w} (h : Derives rules tokens p w) :
    Derives rules tokens (.prec value p assoc unary) w

/-- Everything in a production and in the bodies of rules. -/
def parts (rules : NameTable Production) (p : Production) : List Production :=
  p.walk ++ rules.flatMap fun r => r.2.walk

/-- Every repetition in a production asks for a number of copies that passes a test. -/
def Repeats (test : Int → Prop) (p : Production) : Prop :=
  ∀ q least recover, .rep q least recover ∈ p.walk → test least

variable {rules : NameTable Production} {tokens : List String} {p : Production}
  {ps : List Production} {test : Int → Prop}

theorem Repeats.child (h : p.Repeats test) {q : Production} (hq : q ∈ p.children) :
    q.Repeats test :=
  fun r least recover hr => h r least recover (walk_of_child hq hr)

theorem Repeats.tail (h : (seq (p :: ps)).Repeats test) : (seq ps).Repeats test := by
  intro r least recover hr
  refine h r least recover (List.mem_cons_of_mem _ (List.mem_append_right _ ?_))
  exact (List.mem_cons.1 hr).resolve_left nofun

/-- Items that derive something derive something in a row. -/
theorem exists_derives_seq (h : ∀ p ∈ ps, ∃ w, p.Derives rules tokens w) :
    ∃ w, (seq ps).Derives rules tokens w := by
  induction ps with
  | nil => exact ⟨[], .seqNil⟩
  | cons p ps ih =>
    rw [List.forall_mem_cons] at h
    obtain ⟨⟨u, hu⟩, hps⟩ := h
    obtain ⟨v, hv⟩ := ih hps
    exact ⟨u ++ v, .seqCons hu hv⟩

end Production

/-! ## Beginnings of strings -/

theorem take_take_append_take (u v : Sequence) :
    (u.take lookahead ++ v.take lookahead).take lookahead = (u ++ v).take lookahead := by
  simp only [List.take_append, List.take_take, List.length_take, Nat.min_self]
  congr 2
  omega

theorem take_append_of_full {u : Sequence} (h : SequenceSet.isFull (u.take lookahead) = true)
    (v : Sequence) : (u ++ v).take lookahead = u.take lookahead := by
  have hlength : lookahead ≤ u.length := by
    have hle := of_decide_eq_true h
    rw [List.length_take] at hle
    omega
  exact List.take_append_of_le_length hlength

/-- The first label of strings in a row is that of one of them. -/
theorem exists_take_one_flatten (copies : List Sequence) :
    ∃ y, (y = [] ∨ y ∈ copies) ∧ copies.flatten.take 1 = y.take 1 := by
  induction copies with
  | nil => exact ⟨[], Or.inl rfl, rfl⟩
  | cons c copies ih =>
    cases c with
    | nil =>
      obtain ⟨y, hy, htake⟩ := ih
      exact ⟨y, hy.imp id (List.mem_cons_of_mem _), htake⟩
    | cons t c => exact ⟨t :: c, Or.inr List.mem_cons_self, rfl⟩

/-- Two copies are enough to see what any number of copies begins with. -/
theorem take_flatten_mem_concat {s : SequenceSet} {copies : List Sequence} (hne : copies ≠ [])
    (h : ∀ w ∈ copies, w.take lookahead ∈ s) :
    copies.flatten.take lookahead ∈ s.concat (s.insert []) := by
  induction copies with
  | nil => exact absurd rfl hne
  | cons c copies ih =>
    rw [List.forall_mem_cons] at h
    obtain ⟨hc, hcopies⟩ := h
    rw [List.flatten_cons, SequenceSet.mem_concat]
    match c, hc with
    | [], hc =>
      cases copies with
      | nil =>
        exact Or.inr ⟨[], hc, rfl, [], SequenceSet.mem_insert.2 (Or.inl rfl), rfl⟩
      | cons d copies => exact SequenceSet.mem_concat.1 (ih nofun hcopies)
    | [t], hc =>
      obtain ⟨y, hy, htake⟩ := exists_take_one_flatten copies
      refine Or.inr ⟨[t], hc, rfl, y.take lookahead, SequenceSet.mem_insert.2 ?_, ?_⟩
      · rcases hy with rfl | hy
        · exact Or.inl rfl
        · exact Or.inr (hcopies y hy)
      · show t :: copies.flatten.take 1 = t :: (y.take 2).take 1
        rw [htake, List.take_take]
        rfl
    | t :: u :: c, hc => exact Or.inl ⟨hc, rfl⟩

namespace FirstSets

variable {rules : NameTable Production} {tokens : List String} {f : FirstSets} {a : Sequence}

/-! ## Nothing is missing -/

/-- A first set holds the beginning of a string; items in a row lead to it from every beginning that
was read before. -/
def Accounts (f : FirstSets) : Production → Sequence → Prop
  | .seq items, w => ∀ u, f.Continues items (u.take lookahead) ((u ++ w).take lookahead)
  | p, w => w.take lookahead ∈ f.first p

theorem Accounts.mem_first {p : Production} {w : Sequence} (h : f.Accounts p w) :
    w.take lookahead ∈ f.first p := by
  cases p with
  | seq items => exact mem_first_seq.2 (h [])
  | _ => exact h

/-- **Settled first sets account for every string.** By induction on its derivation. -/
theorem Settled.accounts (hf : f.Settled rules)
    (hrules : ∀ r ∈ rules, r.2.Repeats (0 ≤ ·)) {p : Production} {w : Sequence}
    (h : p.Derives rules f.tokens w) (hp : p.Repeats (0 ≤ ·)) : f.Accounts p w := by
  induction h with
  | lit =>
    show _ ∈ f.first _
    rw [first, SequenceSet.mem_singleton]
    rfl
  | token hn => exact (mem_first_token hn).2 rfl
  | rule hn hb _ ih =>
    have hmem := NameTable.mem_of_get? hb
    exact (mem_first_rule hn).2 (mem_known.2 ⟨_, hf _ hmem, (ih (hrules _ hmem)).mem_first⟩)
  | seqNil =>
    intro u
    rw [List.append_nil]
    exact .done
  | @seqCons p ps v w _ _ ih ih' =>
    intro u
    by_cases hfull : SequenceSet.isFull (u.take lookahead) = true
    · rw [take_append_of_full hfull]
      exact .full hfull
    · refine .step (Bool.eq_false_iff.2 hfull) (ih (hp.child List.mem_cons_self)).mem_first ?_
      rw [take_take_append_take, ← List.append_assoc]
      exact ih' hp.tail (u ++ v)
  | choice hmem _ ih => exact mem_first_choice.2 ⟨_, hmem, (ih (hp.child hmem)).mem_first⟩
  | @rep p least recover copies hl _ ih =>
    have hcopies := fun w hw => (ih w hw (hp.child List.mem_cons_self)).mem_first
    by_cases hne : copies = []
    · subst hne
      have hleast : 0 ≤ least := hp p least recover List.mem_cons_self
      exact mem_first_rep.2 (Or.inl ⟨Int.le_antisymm hl hleast, rfl⟩)
    · exact mem_first_rep.2 (Or.inr (take_flatten_mem_concat hne hcopies))
  | opt _ ih => exact mem_first_opt.2 (Or.inr (ih (hp.child List.mem_cons_self)).mem_first)
  | omitted => exact mem_first_opt.2 (Or.inl rfl)
  | blank =>
    show _ ∈ f.first _
    rw [first, SequenceSet.mem_singleton]
    rfl
  | field _ ih | renamed _ ih | prec _ ih =>
    show _ ∈ f.first _
    rw [first]
    exact (ih (hp.child List.mem_cons_self)).mem_first

/-! ## Nothing is too much -/

/-- A production in which repetitions are content with one copy, and items in a row derive
something. -/
structure Plain (rules : NameTable Production) (tokens : List String) (p : Production) : Prop where
  repeats : p.Repeats (· ≤ 1)
  items : ∀ items, .seq items ∈ p.walk → ∀ q ∈ items, ∃ w, q.Derives rules tokens w

theorem Plain.child {p q : Production} (h : Plain rules tokens p) (hq : q ∈ p.children) :
    Plain rules tokens q :=
  ⟨h.repeats.child hq, fun items hitems => h.items items (Production.walk_of_child hq hitems)⟩

/-- First sets that hold beginnings of what the bodies of rules derive only. -/
structure Justified (rules : NameTable Production) (tokens : List String) (f : FirstSets) :
    Prop where
  sameTokens : f.tokens = tokens
  known : ∀ name, ∀ a ∈ f.known name,
    ∃ body w, rules.get? name = some body ∧ body.Derives rules tokens w ∧ w.take lookahead = a

namespace Justified

/-- A sequence that goes on from the beginning of a string is a beginning of a longer one. -/
theorem continues {ps : List Production}
    (hps : ∀ p ∈ ps, (∃ w, p.Derives rules tokens w) ∧
      ∀ y ∈ f.first p, ∃ w, p.Derives rules tokens w ∧ w.take lookahead = y)
    {x : Sequence} (h : f.Continues ps x a) {u : Sequence} (hu : u.take lookahead = x) :
    ∃ w, (Production.seq ps).Derives rules tokens w ∧ (u ++ w).take lookahead = a := by
  induction h generalizing u with
  | done => exact ⟨[], .seqNil, by rw [List.append_nil, hu]⟩
  | full hfull =>
    obtain ⟨w, hw⟩ := Production.exists_derives_seq fun p hp => (hps p hp).1
    exact ⟨w, hw, by rw [take_append_of_full (hu ▸ hfull), hu]⟩
  | step _ hy _ ih =>
    rw [List.forall_mem_cons] at hps
    obtain ⟨v, hv, rfl⟩ := hps.1.2 _ hy
    subst hu
    obtain ⟨w, hw, htake⟩ := ih hps.2 (u := u ++ v) (take_take_append_take u v).symm
    exact ⟨v ++ w, .seqCons hv hw, by rw [← List.append_assoc, htake]⟩

/-- Justified first sets hold beginnings of what a production derives only. -/
theorem first (hf : f.Justified rules tokens) (p : Production) (hp : Plain rules tokens p) :
    ∀ a ∈ f.first p, ∃ w, p.Derives rules tokens w ∧ w.take lookahead = a := by
  induction p using Production.induction_children with
  | step p ih =>
    replace ih := fun q hq => ih q hq (hp.child hq)
    intro a ha
    cases p with
    | lit value =>
      rw [FirstSets.first, SequenceSet.mem_singleton] at ha
      exact ⟨_, .lit, ha.symm⟩
    | ref name =>
      by_cases hn : name ∈ f.tokens
      · rw [mem_first_token hn] at ha
        exact ⟨_, .token (hf.sameTokens ▸ hn), ha.symm⟩
      · obtain ⟨body, w, hb, hw, htake⟩ := hf.known name a ((mem_first_rule hn).1 ha)
        exact ⟨w, .rule (hf.sameTokens ▸ hn) hb hw, htake⟩
    | seq items =>
      have hitems : ∀ p ∈ items, (∃ w, p.Derives rules tokens w) ∧
          ∀ y ∈ f.first p, ∃ w, p.Derives rules tokens w ∧ w.take lookahead = y :=
        fun q hq => ⟨hp.items items List.mem_cons_self q hq, ih q hq⟩
      exact continues hitems (mem_first_seq.1 ha) (u := []) rfl
    | choice members =>
      obtain ⟨q, hq, ha⟩ := mem_first_choice.1 ha
      obtain ⟨w, hw, htake⟩ := ih q hq a ha
      exact ⟨w, .choice hq hw, htake⟩
    | rep q least recover =>
      have hq := ih q List.mem_cons_self
      have hleast : least ≤ 1 := hp.repeats q least recover List.mem_cons_self
      have hrep : ∀ copies : List Sequence, copies ≠ [] → (∀ w ∈ copies, q.Derives rules tokens w) →
          (Production.rep q least recover).Derives rules tokens copies.flatten := by
        intro copies hne hcopies
        have hlength := List.length_pos_iff.2 hne
        exact .rep (by omega) hcopies
      rcases mem_first_rep.1 ha with ⟨hzero, rfl⟩ | ha
      · have hnone : (Production.rep q least recover).Derives rules tokens
            ([] : List Sequence).flatten := .rep (by simp [hzero]) (List.forall_mem_nil _)
        exact ⟨[], hnone, rfl⟩
      · rcases SequenceSet.mem_concat.1 ha with ⟨ha, _⟩ | ⟨x, hx, _, y, hy, rfl⟩
        · obtain ⟨w, hw, htake⟩ := hq a ha
          exact ⟨_, hrep [w] (List.cons_ne_nil _ _) (by simpa using hw), by simpa using htake⟩
        · obtain ⟨u, hu, rfl⟩ := hq x hx
          rcases SequenceSet.mem_insert.1 hy with rfl | hy
          · exact ⟨_, hrep [u] (List.cons_ne_nil _ _) (by simpa using hu), by simp [List.take_take]⟩
          · obtain ⟨v, hv, rfl⟩ := hq y hy
            exact ⟨_, hrep [u, v] (List.cons_ne_nil _ _) (by simp [hu, hv]),
              by simp [take_take_append_take]⟩
    | opt q =>
      rcases mem_first_opt.1 ha with rfl | ha
      · exact ⟨[], .omitted, rfl⟩
      · obtain ⟨w, hw, htake⟩ := ih q List.mem_cons_self a ha
        exact ⟨w, .opt hw, htake⟩
    | blank =>
      rw [FirstSets.first, SequenceSet.mem_singleton] at ha
      exact ⟨[], .blank, ha.symm⟩
    | field _ q =>
      rw [FirstSets.first] at ha
      obtain ⟨w, hw, htake⟩ := ih q List.mem_cons_self a ha
      exact ⟨w, .field hw, htake⟩
    | renamed q _ =>
      rw [FirstSets.first] at ha
      obtain ⟨w, hw, htake⟩ := ih q List.mem_cons_self a ha
      exact ⟨w, .renamed hw, htake⟩
    | prec _ q _ _ =>
      rw [FirstSets.first] at ha
      obtain ⟨w, hw, htake⟩ := ih q List.mem_cons_self a ha
      exact ⟨w, .prec hw, htake⟩

theorem update (hf : f.Justified rules tokens) (hnames : rules.names.Nodup)
    {r : String × Production} (hr : r ∈ rules) (hplain : Plain rules tokens r.2) :
    (f.update r).Justified rules tokens := by
  refine ⟨hf.sameTokens, fun name a ha => ?_⟩
  rw [known_update] at ha
  split at ha
  · rename_i hn
    obtain ⟨w, hw, htake⟩ := hf.first r.2 hplain a ha
    exact ⟨r.2, w, hn ▸ NameTable.get?_of_mem hnames hr, hw, htake⟩
  · exact hf.known name a ha

end Justified

theorem justified_ofRules (hnames : rules.names.Nodup)
    (hplain : ∀ r ∈ rules, Plain rules tokens r.2) :
    (ofRules rules tokens).Justified rules tokens := by
  refine settle_keeps (fun r hr f hf => hf.update hnames hr (hplain r hr)) ⟨rfl, ?_⟩ _
  intro name a ha
  rw [known_empty] at ha
  exact absurd ha (SequenceSet.not_mem_empty a)

/-! ## Exactness -/

/-- **First sets are exact.** If no repetition in the rules and the production asks for a negative
number of copies, what is derived begins as the first set says. If repetitions are content with one
copy and all items of sequences derive something, the first set holds nothing else, and so a
production derives the empty string exactly if it is nullable. -/
theorem first_exact {p : Production} (hnames : rules.names.Nodup)
    (hleast : ∀ q least recover, .rep q least recover ∈ p.parts rules → 0 ≤ least) :
    (∀ w, p.Derives rules tokens w → w.take lookahead ∈ (ofRules rules tokens).first p) ∧
    ((∀ q least recover, .rep q least recover ∈ p.parts rules → least ≤ 1) →
      (∀ items, .seq items ∈ p.parts rules → ∀ q ∈ items, ∃ w, q.Derives rules tokens w) →
      (∀ a ∈ (ofRules rules tokens).first p,
        ∃ w, p.Derives rules tokens w ∧ w.take lookahead = a) ∧
      ((ofRules rules tokens).nullable p = true ↔ p.Derives rules tokens [])) := by
  have hbody : ∀ {r q}, r ∈ rules → q ∈ r.2.walk → q ∈ p.parts rules := fun hr hq =>
    List.mem_append_right _ (List.mem_flatMap.2 ⟨_, hr, hq⟩)
  have hcomplete : ∀ w, p.Derives rules tokens w →
      w.take lookahead ∈ (ofRules rules tokens).first p := by
    intro w hw
    rw [← tokens_ofRules rules tokens] at hw
    have hsettled := settled_ofRules hnames tokens
    refine (hsettled.accounts (fun r hr q least recover hq => ?_) hw ?_).mem_first
    · exact hleast q least recover (hbody hr hq)
    · exact fun q least recover hq => hleast q least recover (List.mem_append_left _ hq)
  refine ⟨hcomplete, fun hcopies hitems => ?_⟩
  have hsound : ∀ a ∈ (ofRules rules tokens).first p,
      ∃ w, p.Derives rules tokens w ∧ w.take lookahead = a := by
    refine (justified_ofRules hnames fun r hr => ⟨?_, ?_⟩).first p ⟨?_, ?_⟩
    · exact fun q least recover hq => hcopies q least recover (hbody hr hq)
    · exact fun items hq => hitems items (hbody hr hq)
    · exact fun q least recover hq => hcopies q least recover (List.mem_append_left _ hq)
    · exact fun items hq => hitems items (List.mem_append_left _ hq)
  refine ⟨hsound, ?_⟩
  rw [nullable, decide_eq_true_iff]
  constructor
  · intro hnil
    obtain ⟨w, hw, htake⟩ := hsound [] hnil
    have hw' : w = [] := (List.take_eq_nil_iff.1 htake).resolve_left (by decide)
    exact hw' ▸ hw
  · exact hcomplete []

/-- Sums of numbers that group to the left, and any number of sums. -/
def sums : NameTable Production :=
  [("sum", .choice [.seq [.ref "sum", .lit "+", .ref "number"], .ref "number"]),
   ("sums", .rep (.field "item" (.ref "sum")) 0 false)]

theorem first_exact_sums :
    (ofRules sums ["number"]).first (.ref "sums") =
      .ofList [[], ["number"], ["number", "'+'"], ["number", "number"]] ∧
    (∃ w, (Production.ref "sums").Derives sums ["number"] w ∧
      w.take lookahead = ["number", "'+'"]) ∧
    (Production.ref "sums").Derives sums ["number"] [] := by
  have hnumber : (Production.ref "number").Derives sums ["number"] ["number"] :=
    .token (by decide)
  have hsum : (Production.ref "sum").Derives sums ["number"] ["number"] :=
    .rule (by decide) rfl (.choice (by decide) hnumber)
  have hleast : ∀ q least recover,
      .rep q least recover ∈ (Production.ref "sums").parts sums → least = 0 := by
    simp [Production.parts, Production.walk, Production.walkAll, sums]
  have hitems : ∀ items, .seq items ∈ (Production.ref "sums").parts sums →
      ∀ q ∈ items, ∃ w, q.Derives sums ["number"] w := by
    intro items hmem
    have heq : items = [.ref "sum", .lit "+", .ref "number"] := by
      simpa [Production.parts, Production.walk, Production.walkAll, sums] using hmem
    subst heq
    simp only [List.forall_mem_cons]
    exact ⟨⟨_, hsum⟩, ⟨_, .lit⟩, ⟨_, hnumber⟩, List.forall_mem_nil _⟩
  have hexact := (first_exact (show sums.names.Nodup by decide)
    fun q least recover h => (hleast q least recover h).ge).2
    (fun q least recover h => (hleast q least recover h).le.trans (by decide)) hitems
  exact ⟨by decide, hexact.1 _ (by decide), hexact.2.1 (by decide)⟩

end FirstSets

end LayeredGrammar
