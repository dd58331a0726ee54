import LayeredGrammar.Proofs.Engine.Bounds

/-!
# Requests to a session

A session answers requests one after another and keeps its memo in between: a rule at a position, a
production at a position, or the tree of the whole text. What is remembered after any requests,
also after those that ran into the limit on nested rules, are matches that the rules can yield
(`Session.sound_memoAfter`), and so is every further answer (`Session.replies_of_perform`).

`Session.Reads` is to `Session.parse` what `Session.Yields` is to matching: the ways in which the
text can be read from a position on.
-/

namespace LayeredGrammar

namespace Session

open Engine (Coupled Coupling)

variable {s : Session} {c : Coupling} {call call' : RuleMatcher}

theorem matchFresh_apply (call : RuleMatcher) (key : MemoKey) (μ : Memo) :
    s.matchFresh call key μ = match s.answer call key (μ.insert key .active) with
      | .ok found μ' => .ok found (μ'.insert key (.known found))
      | .error e μ' => .error e μ' := by
  show (Engine.record key .active >>= fun _ => s.answer call key >>= fun found =>
    Engine.record key (.known found) >>= fun _ => pure found) μ = _
  rw [Engine.bind_apply]
  show (s.answer call key >>= _) (μ.insert key .active) = _
  rw [Engine.bind_apply]
  cases s.answer call key (μ.insert key .active) <;> rfl

/-- Matching a rule afresh in two ways that answer alike: the coupling may change while the rule is
being matched. -/
theorem matchFresh_ends {c' : Coupling} {key : MemoKey} {μ ν : Memo}
    {post : Option Match → Prop}
    (hanswer : Coupled c' (s.answer call key) (s.answer call' key) post)
    (henter : c'.going (μ.insert key .active) (ν.insert key .active))
    (hleave : ∀ μ' ν' found, c'.going μ' ν' → post found →
      c.going (μ'.insert key (.known found)) (ν'.insert key (.known found)))
    (hstop : ∀ μ' ν', c'.stopped μ' ν' → c.stopped μ' ν') (hlenient : c'.lenient → c.lenient) :
    Engine.Ends c post (s.matchFresh call key μ) (s.matchFresh call' key ν) := by
  have hends := hanswer _ _ henter
  rw [matchFresh_apply, matchFresh_apply]
  cases ha : s.answer call key (μ.insert key .active) with
  | ok found μ' =>
    rw [ha] at hends
    obtain ⟨ν', hν, hg, hp⟩ := hends
    rw [hν]
    exact ⟨_, rfl, hleave μ' ν' found hg hp, hp⟩
  | error e μ' =>
    rw [ha] at hends
    rcases hends with hl | ⟨ν', hν, hs⟩
    · exact Or.inl (hlenient hl)
    · rw [hν]
      exact Or.inr ⟨ν', rfl, hstop μ' ν' hs⟩

/-! ## Sound memos -/

/-- A memo that remembers only matches that the rules can yield. -/
def Sound (s : Session) (μ : Memo) : Prop :=
  ∀ k m, μ[k]? = some (.known (some m)) → s.Yields (.rule k) m

theorem sound_empty : s.Sound {} := by
  intro k m h
  simp at h

theorem Sound.insert_active {μ : Memo} (h : s.Sound μ) (key : MemoKey) :
    s.Sound (μ.insert key .active) := by
  intro k m hk
  rw [Memo.getElem?_insert_eq] at hk
  split at hk
  · cases hk
  · exact h k m hk

theorem Sound.insert_known {μ : Memo} (h : s.Sound μ) {key : MemoKey} {found : Option Match}
    (hf : ∀ m ∈ found, s.Yields (.rule key) m) : s.Sound (μ.insert key (.known found)) := by
  intro k m hk
  rw [Memo.getElem?_insert_eq] at hk
  split at hk
  · rename_i heq
    cases hk
    exact heq ▸ hf m rfl
  · exact h k m hk

/-- A run with a sound memo, next to itself. -/
def soundly (s : Session) : Coupling where
  going μ ν := μ = ν ∧ s.Sound μ
  stopped μ ν := μ = ν ∧ s.Sound μ
  lenient := False

/-- A rule asked for with a sound memo answers a match it can yield, and leaves a sound memo. -/
theorem matchRule_sound (limit : Nat) (k : MemoKey) :
    s.Alike s.soundly (s.matchRule limit) (s.matchRule limit) k := by
  induction limit generalizing k with
  | zero =>
    rintro μ ν ⟨rfl, hμ⟩
    exact Engine.remembered_ends ⟨rfl, hμ⟩ nofun (fun found hk m hm => hμ k m (hm ▸ hk))
      fun _ => Or.inr ⟨μ, rfl, rfl, hμ⟩
  | succ limit ih =>
    rintro μ ν ⟨rfl, hμ⟩
    refine Engine.remembered_ends ⟨rfl, hμ⟩ nofun (fun found hk m hm => hμ k m (hm ▸ hk)) ?_
    intro _
    refine matchFresh_ends (answer_coupled fun k' _ => ih k') ⟨rfl, hμ.insert_active k⟩ ?_
      (fun _ _ h => h) id
    rintro μ' ν' found ⟨rfl, hμ'⟩ hfound
    exact ⟨rfl, hμ'.insert_known hfound⟩

/-- A run with a sound memo, next to one that goes at least as far. -/
def leniently (s : Session) : Coupling where
  going μ ν := μ = ν ∧ s.Sound μ
  stopped _ _ := False
  lenient := True

/-- What is answered within a limit is answered within every larger one. -/
theorem matchRule_mono {limit limit' : Nat} (hle : limit ≤ limit') (k : MemoKey) :
    s.Alike s.leniently (s.matchRule limit) (s.matchRule limit') k := by
  induction limit generalizing limit' k with
  | zero =>
    rintro μ ν ⟨rfl, hμ⟩
    cases limit' <;>
      exact Engine.remembered_ends ⟨rfl, hμ⟩ nofun (fun found hk m hm => hμ k m (hm ▸ hk))
        fun _ => Or.inl trivial
  | succ limit ih =>
    rintro μ ν ⟨rfl, hμ⟩
    obtain ⟨more, rfl⟩ : ∃ more, limit' = more + 1 := ⟨limit' - 1, by omega⟩
    refine Engine.remembered_ends ⟨rfl, hμ⟩ nofun (fun found hk m hm => hμ k m (hm ▸ hk)) ?_
    intro _
    refine matchFresh_ends (answer_coupled fun k' _ => ih (by omega) k') ⟨rfl, hμ.insert_active k⟩ ?_
      (fun _ _ h => h) id
    rintro μ' ν' found ⟨rfl, hμ'⟩ hfound
    exact ⟨rfl, hμ'.insert_known hfound⟩

/-! ## Whole texts -/

/-- The ways in which a text can be read from a position on: what was read before, latest first, and
what is read in the end. -/
inductive Reads (s : Session) : Nat → List Item → List Item → Prop
  | ended {pos items found} (hf : ∀ m ∈ found, s.Yields (.rule ⟨s.grammar.start, pos, 0⟩) m)
    (h : s.size ≤ s.skip (readOn s.grammar.start items pos found).2) :
    Reads s pos items (readOn s.grammar.start items pos found).1
  | skipped {pos items found start result}
    (hf : ∀ m ∈ found, s.Yields (.rule ⟨s.grammar.start, pos, 0⟩) m)
    (hstart : start = s.skip (readOn s.grammar.start items pos found).2) (h : start < s.size)
    (hr : s.recover = true)
    (h' : Reads s (s.rawTokenEnd start)
      ((Node.error start (s.rawTokenEnd start) s.table.rootExpected, []) ::
        (readOn s.grammar.start items pos found).1) result) :
    Reads s pos items result
  | dropped {pos items found start}
    (hf : ∀ m ∈ found, s.Yields (.rule ⟨s.grammar.start, pos, 0⟩) m)
    (hstart : start = s.skip (readOn s.grammar.start items pos found).2) (h : start < s.size)
    (hr : s.recover = false) :
    Reads s pos items ((Node.error start s.size s.table.rootExpected, []) ::
      (readOn s.grammar.start items pos found).1)

theorem readOn_within {start : String} (items : List Item) {pos : Nat} {found : Option Match}
    (hf : ∀ m ∈ found, s.Yields (.rule ⟨start, pos, 0⟩) m) (hpos : pos ≤ s.size) :
    pos ≤ (readOn start items pos found).2 ∧ (readOn start items pos found).2 ≤ s.size := by
  cases found with
  | none => exact ⟨Nat.le_refl _, hpos⟩
  | some m =>
    have hm : m.Proper pos s.size := (hf m rfl).proper
    have := hm.stop_le
    refine ⟨Nat.le_max_left _ _, ?_⟩
    show max pos m.stop ≤ s.size
    omega

/-- Where a text is read on, it is read further on. -/
theorem readOn_advances {start : String} (items : List Item) {pos : Nat} (found : Option Match)
    (h : s.skip (readOn start items pos found).2 < s.size) :
    pos ≤ (readOn start items pos found).2 ∧
      pos < s.rawTokenEnd (s.skip (readOn start items pos found).2) ∧
      s.rawTokenEnd (s.skip (readOn start items pos found).2) ≤ s.size := by
  have h1 : pos ≤ (readOn start items pos found).2 := by
    cases found with
    | none => exact Nat.le_refl _
    | some m => exact Nat.le_max_left _ _
  have h2 := le_skip_of_lt h
  have h3 := lt_rawTokenEnd s (s.skip (readOn start items pos found).2)
  exact ⟨h1, by omega, rawTokenEnd_le h⟩

/-- Trying the start rule once, with two ways of asking for it that are alike there. -/
theorem parsePass_coupled {pos : Nat} (hk : s.Alike c call call' ⟨s.grammar.start, pos, 0⟩)
    (items : List Item) :
    Coupled c (s.parsePass call pos items) (s.parsePass call' pos items) fun x =>
      (x.2 = none → s.Reads pos items x.1) ∧ ∀ next ∈ x.2, pos < next ∧ next ≤ s.size ∧
        ∀ result, s.Reads next x.1 result → s.Reads pos items result := by
  unfold parsePass
  refine Coupled.bind hk ?_
  intro found hfound
  simp only
  split
  · rename_i hend
    exact Coupled.pure ⟨fun _ => .ended hfound hend, nofun⟩
  · rename_i hlt
    have hlt : s.skip (readOn s.grammar.start items pos found).2 < s.size := Nat.lt_of_not_le hlt
    obtain ⟨_, h2, h3⟩ := readOn_advances items found hlt
    split
    · rename_i hr
      refine Coupled.pure ⟨nofun, ?_⟩
      intro next hnext
      cases hnext
      exact ⟨h2, h3, fun result h => .skipped hfound rfl hlt hr h⟩
    · rename_i hr
      exact Coupled.pure ⟨fun _ => .dropped hfound rfl hlt (by simpa using hr), nofun⟩

/-- Reading a text with two ways of asking for the start rule that are alike inside the text. A
round for each position is enough to reach the end. -/
theorem parseFrom_coupled
    (hk : ∀ pos, pos ≤ s.size → s.Alike c call call' ⟨s.grammar.start, pos, 0⟩) :
    ∀ (n pos : Nat) (items : List Item), pos ≤ s.size → s.size - pos < n →
      Coupled c (s.parseFrom call n pos items) (s.parseFrom call' n pos items)
        fun result => s.Reads pos items result := by
  intro n
  induction n with
  | zero =>
    intro pos items _ hn
    omega
  | succ n ih =>
    intro pos items hpos hn
    simp only [parseFrom]
    refine Coupled.bind (parsePass_coupled (hk pos hpos) items) ?_
    rintro ⟨read, next⟩ ⟨hdone, hgo⟩
    cases next with
    | none => exact Coupled.pure (hdone rfl)
    | some next =>
      obtain ⟨h1, h2, hreads⟩ := hgo next rfl
      exact (ih next read h2 (by omega)).mono hreads

theorem parseBy_coupled
    (hk : ∀ pos, pos ≤ s.size → s.Alike c call call' ⟨s.grammar.start, pos, 0⟩) :
    Coupled c (s.parseBy call) (s.parseBy call') fun root => ∃ items, s.Reads 0 [] items ∧
      root = Node.ofItems s.grammar.start items.reverse 0 s.size := by
  unfold parseBy
  refine Coupled.bind (parseFrom_coupled hk _ 0 [] (Nat.zero_le _) (by omega)) ?_
  intro items hitems
  exact Coupled.pure ⟨items, hitems, rfl⟩

/-! ## Requests -/

/-- What a session can be asked for. -/
inductive Request where
  | rule (name : String) (pos : Nat) (minPrec : Int)
  | production (p : Production) (pos : Nat) (owner : String)
  | parse

/-- What a session answers. -/
inductive Reply where
  | found (m : Option Match)
  | tree (root : Node)

/-- The match that was found, if any. -/
def Reply.found? : Reply → Option Match
  | .found m => m
  | .tree _ => none

theorem Reply.exists_of_any {reply : Reply} {test : Match → Bool}
    (h : reply.found?.any test = true) : ∃ m, reply = .found (some m) ∧ test m = true := by
  cases reply with
  | found m =>
    cases m with
    | none => cases h
    | some m => exact ⟨m, rfl, h⟩
  | tree root => cases h

/-- Answer a request, with rules asked for through a given function. -/
def performBy (s : Session) (call : RuleMatcher) : Request → Engine Reply
  | .rule name pos minPrec => do
    let found ← call name pos minPrec
    pure (.found found)
  | .production p pos owner => do
    let found ← s.matchProduction call owner p pos
    pure (.found found)
  | .parse => do
    let root ← s.parseBy call
    pure (.tree root)

/-- Answer a request, with at most `limit` rules inside each other. -/
def perform (s : Session) (limit : Nat) : Request → Engine Reply := s.performBy (s.matchRule limit)

/-- Answer requests one after another. -/
def performAll (s : Session) (call : RuleMatcher) : List Request → Engine (List Reply)
  | [] => pure []
  | r :: rs => do
    let reply ← s.performBy call r
    let replies ← performAll s call rs
    pure (reply :: replies)

theorem performAll_cons_ok {call : RuleMatcher} {r : Request} {rs : List Request}
    {replies : List Reply} {μ μ' : Memo}
    (h : s.performAll call (r :: rs) μ = .ok replies μ') :
    ∃ reply rest μ₁, replies = reply :: rest ∧ s.performBy call r μ = .ok reply μ₁ ∧
      s.performAll call rs μ₁ = .ok rest μ' := by
  simp only [performAll] at h
  rw [Engine.bind_apply] at h
  split at h
  · rename_i reply μ₁ hreply
    rw [Engine.bind_apply] at h
    split at h
    · rename_i rest μ₂ hrest
      cases h
      exact ⟨reply, rest, μ₁, rfl, hreply, hrest⟩
    · cases h
  · cases h

/-- The memo a computation leaves, also when it runs into the limit. -/
def memoOf {α : Type} : EStateM.Result TooDeep Memo α → Memo
  | .ok _ μ => μ
  | .error _ μ => μ

/-- What is remembered after requests that were made one after another. -/
def memoAfter (s : Session) (limit : Nat) (history : List Request) : Memo :=
  history.foldl (fun μ r => memoOf (s.perform limit r μ)) {}

/-- The task that a request sets. -/
def Request.task? : Request → Option Task
  | .rule name pos minPrec => some (.rule ⟨name, pos, minPrec⟩)
  | .production p pos _ => some (.production p pos)
  | .parse => none

/-- What can be the reply to a request. -/
def Replies (s : Session) (r : Request) (reply : Reply) : Prop :=
  match r.task?, reply with
  | some t, .found found => ∀ m ∈ found, s.Yields t m
  | none, .tree root => ∃ items, s.Reads 0 [] items ∧
      root = Node.ofItems s.grammar.start items.reverse 0 s.size
  | _, _ => False

theorem performBy_coupled (hk : ∀ k, s.Alike c call call' k) (r : Request) :
    Coupled c (s.performBy call r) (s.performBy call' r) (s.Replies r) := by
  cases r with
  | rule name pos minPrec => exact Coupled.bind (hk ⟨name, pos, minPrec⟩) fun found h => .pure h
  | production p pos owner =>
    exact Coupled.bind (matchProduction_coupled owner p pos fun k _ => hk k) fun found h => .pure h
  | parse => exact Coupled.bind (parseBy_coupled fun pos _ => hk _) fun root h => .pure h

theorem performAll_coupled {c : Coupling} {call call' : RuleMatcher}
    (hk : ∀ k, s.Alike c call call' k) (rs : List Request) :
    Coupled c (s.performAll call rs) (s.performAll call' rs) fun _ => True := by
  induction rs with
  | nil => exact Coupled.pure trivial
  | cons r rs ih =>
    simp only [performAll]
    refine Coupled.bind (performBy_coupled hk r) fun reply _ => ?_
    exact Coupled.bind ih fun replies _ => Coupled.pure trivial

/-- After any requests the memo is sound. -/
theorem sound_memoAfter (limit : Nat) (history : List Request) :
    s.Sound (s.memoAfter limit history) := by
  have hstep : ∀ (μ : Memo) (r : Request), s.Sound μ → s.Sound (memoOf (s.perform limit r μ)) := by
    intro μ r hμ
    have h := performBy_coupled (matchRule_sound limit) r μ μ ⟨rfl, hμ⟩
    unfold perform
    cases hr : s.performBy (s.matchRule limit) r μ with
    | ok reply μ' =>
      rw [hr] at h
      obtain ⟨_, _, ⟨_, hμ'⟩, _⟩ := h
      exact hμ'
    | error e μ' =>
      rw [hr] at h
      obtain ⟨_, _, _, hμ'⟩ := h.resolve_left id
      exact hμ'
  have hfold : ∀ (history : List Request) (μ : Memo), s.Sound μ →
      s.Sound (history.foldl (fun μ r => memoOf (s.perform limit r μ)) μ) := by
    intro history
    induction history with
    | nil => exact fun _ hμ => hμ
    | cons r history ih => exact fun μ hμ => ih _ (hstep μ r hμ)
  exact hfold history {} sound_empty

/-- What a session replies after any requests is what can be a reply. -/
theorem replies_of_perform {limit : Nat} {history : List Request} {r : Request} {reply : Reply}
    {μ : Memo} (h : s.perform limit r (s.memoAfter limit history) = .ok reply μ) :
    s.Replies r reply := by
  obtain ⟨_, _, _, hreply⟩ := (performBy_coupled (matchRule_sound limit) r).of_ok
    ⟨rfl, sound_memoAfter limit history⟩ h
  exact hreply

end Session

end LayeredGrammar
