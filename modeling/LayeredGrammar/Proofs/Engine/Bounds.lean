import LayeredGrammar.Proofs.Engine.Yields
import LayeredGrammar.Proofs.Scanning

/-!
# Where matches lie

A match that the engine finds at a position starts there or later, ends inside the text, and is
empty exactly where it was looked for if it has no items (`Session.Yields.proper`). Items that are
literals have no nodes below them.

`Match.Proper` is the invariant of matches and `Run.Proper` that of matches in a row; every way the
engine puts matches together keeps them.
-/

namespace LayeredGrammar

/-! ## Matches -/

/-- A match as the engine finds it at a position of a text of length `n`. -/
structure Match.Proper (m : Match) (pos n : Nat) : Prop where
  le_start : pos ≤ m.start
  start_le : m.start ≤ m.stop
  stop_le : m.stop ≤ max pos n
  of_nil : m.items = [] → m.start = pos ∧ m.stop = pos
  literal : ∀ x ∈ m.items, x.1.named = false → x.1.children = []

namespace Match

variable {m left right : Match} {pos n : Nat}

theorem proper_empty (pos n : Nat) : (Match.empty pos).Proper pos n :=
  ⟨Nat.le_refl _, Nat.le_refl _, Nat.le_max_left _ _, fun _ => ⟨rfl, rfl⟩, nofun⟩

namespace Proper

/-- A match does not end before the position where it was looked for. -/
theorem le_stop (h : m.Proper pos n) : pos ≤ m.stop := Nat.le_trans h.le_start h.start_le

theorem withFields (h : m.Proper pos n) (names : List String) :
    (m.withFields names).Proper pos n := by
  refine ⟨h.le_start, h.start_le, h.stop_le, fun hnil => h.of_nil (List.map_eq_nil_iff.1 hnil), ?_⟩
  intro x hx hnamed
  obtain ⟨y, hy, rfl⟩ := List.mem_map.1 hx
  exact h.literal y hy hnamed

/-- A match reduced to one item that is a named node or a leaf. -/
theorem single (h : m.Proper pos n) {x : Item} (hx : x.1.named = false → x.1.children = []) :
    { m with items := [x] }.Proper pos n := by
  refine ⟨h.le_start, h.start_le, h.stop_le, nofun, ?_⟩
  intro y hy
  cases List.mem_singleton.1 hy
  exact hx

theorem wrap (h : m.Proper pos n) (kind : String) : (m.wrap kind).Proper pos n :=
  h.single nofun

theorem rename (h : m.Proper pos n) (content : Production) (kind : String) :
    (m.rename content kind).Proper pos n := by
  obtain ⟨_, _, _, _, heq⟩ | heq := rename_cases content kind m <;> rw [heq]
  · exact h.single nofun
  · exact h.wrap kind

theorem finish (h : m.Proper pos n) (rule : String) : (m.finish rule).Proper pos n := by
  obtain ⟨_, heq⟩ | ⟨_, heq | ⟨_, _, _, _, heq⟩⟩ := finish_cases rule m <;> rw [heq]
  · exact h
  · exact h.wrap rule
  · exact h.single nofun

theorem dress (h : m.Proper pos n) (a : Alternative) : (Session.dress a m).Proper pos n := by
  obtain ⟨layered, hcases⟩ := Session.dress_cases a m
  have hmarked : { m with layered := layered }.Proper pos n :=
    ⟨h.le_start, h.start_le, h.stop_le, h.of_nil, h.literal⟩
  obtain ⟨_, heq⟩ | ⟨kind, _, heq⟩ := hcases <;> rw [heq]
  · exact hmarked
  · exact hmarked.wrap kind

/-- A match followed by one that ends further on. -/
theorem join (hl : left.Proper pos n) (hr : right.Proper left.stop n)
    (hlt : left.stop < right.stop) : (left.join right).Proper pos n := by
  have h1 := hl.le_start
  have h2 := hl.start_le
  have h3 := hl.stop_le
  have h4 := hr.stop_le
  refine ⟨h1, ?_, ?_, ?_, ?_⟩
  · show left.start ≤ right.stop
    omega
  · show right.stop ≤ max pos n
    omega
  · intro hnil
    have := hr.of_nil (List.append_eq_nil_iff.1 hnil).2
    omega
  · intro x hx
    rcases List.mem_append.1 hx with hx | hx
    · exact hl.literal x hx
    · exact hr.literal x hx

theorem extended (hl : left.Proper pos n) (hr : right.Proper left.stop n)
    (hlt : left.stop < right.stop) (a : Alternative) :
    (Session.extended a left right).Proper pos n :=
  ((hl.withFields a.leadFields).join hr hlt).dress a

/-- A match that ends further on has nodes. -/
theorem items_ne_nil (h : m.Proper pos n) (hlt : pos < m.stop) : m.items ≠ [] := by
  intro hnil
  have := (h.of_nil hnil).2
  omega

end Proper

end Match

theorem Session.stop_dress (a : Alternative) (m : Match) : (Session.dress a m).stop = m.stop := by
  obtain ⟨_, ⟨_, heq⟩ | ⟨_, _, heq⟩⟩ := Session.dress_cases a m <;> rw [heq]
  rfl

theorem Match.stop_rename (content : Production) (kind : String) (m : Match) :
    (m.rename content kind).stop = m.stop := by
  obtain ⟨_, _, _, _, heq⟩ | heq := rename_cases content kind m <;> rw [heq]
  rfl

theorem Match.stop_finish (rule : String) (m : Match) : (m.finish rule).stop = m.stop := by
  obtain ⟨_, heq⟩ | ⟨_, heq | ⟨_, _, _, _, heq⟩⟩ := finish_cases rule m <;> rw [heq]
  rfl

theorem Session.stop_extended (a : Alternative) (left right : Match) :
    (Session.extended a left right).stop = right.stop :=
  Session.stop_dress a _

/-! ## Matches in a row -/

/-- A run as the engine makes it over a text of length `n`. -/
structure Run.Proper (r : Run) (n : Nat) : Prop where
  le_cursor : r.origin ≤ r.cursor
  cursor_le : r.cursor ≤ max r.origin n
  le_start : ∀ p ∈ r.start, r.origin ≤ p
  start_le : ∀ p ∈ r.start, p ≤ r.cursor
  of_nil : r.items = [] → r.start = none ∧ r.cursor = r.origin
  literal : ∀ x ∈ r.items, x.1.named = false → x.1.children = []

namespace Run

variable {r : Run} {m : Match} {n : Nat}

theorem proper_begin (pos n : Nat) : (Run.begin pos).Proper n :=
  ⟨Nat.le_refl _, Nat.le_max_left _ _, nofun, nofun, fun _ => ⟨rfl, rfl⟩, nofun⟩

@[simp] theorem origin_begin (pos : Nat) : (Run.begin pos).origin = pos := rfl

@[simp] theorem cursor_begin (pos : Nat) : (Run.begin pos).cursor = pos := rfl

@[simp] theorem origin_take (r : Run) (m : Match) : (r.take m).origin = r.origin := rfl

@[simp] theorem cursor_take (r : Run) (m : Match) : (r.take m).cursor = m.stop := rfl

@[simp] theorem origin_pushError (r : Run) (a b : Nat) (expected : List String) :
    (r.pushError a b expected).origin = r.origin := rfl

@[simp] theorem cursor_pushError (r : Run) (a b : Nat) (expected : List String) :
    (r.pushError a b expected).cursor = b := rfl

@[simp] theorem origin_push (r : Run) (m : Match) : (r.push m).origin = r.origin := by
  unfold Run.push
  split <;> rfl

namespace Proper

theorem take (h : r.Proper n) (hm : m.Proper r.cursor n) (hitems : m.items ≠ []) :
    (r.take m).Proper n := by
  have h1 := h.le_cursor
  have h2 := h.cursor_le
  have h3 := hm.le_start
  have h4 := hm.start_le
  have h5 := hm.stop_le
  refine ⟨by show r.origin ≤ m.stop; omega, by show m.stop ≤ max r.origin n; omega, ?_, ?_, ?_,
    ?_⟩
  · intro p hp
    cases hp
    cases hs : r.start with
    | none => simpa using by omega
    | some q => exact h.le_start q hs
  · intro p hp
    cases hp
    cases hs : r.start with
    | none => exact h4
    | some q =>
      have := h.start_le q hs
      show q ≤ m.stop
      omega
  · intro hnil
    exact absurd (List.reverse_eq_nil_iff.1 (List.append_eq_nil_iff.1 hnil).1) hitems
  · intro x hx
    rcases List.mem_append.1 hx with hx | hx
    · exact hm.literal x (List.mem_reverse.1 hx)
    · exact h.literal x hx

theorem push (h : r.Proper n) (hm : m.Proper r.cursor n) : (r.push m).Proper n := by
  unfold Run.push
  split
  · exact ⟨h.le_cursor, h.cursor_le, h.le_start, h.start_le, h.of_nil, h.literal⟩
  · rename_i hitems
    exact h.take hm fun hnil => hitems (by rw [hnil]; rfl)

theorem pushError (h : r.Proper n) {a b : Nat} (ha : r.cursor ≤ a) (hab : a ≤ b) (hb : b ≤ n)
    (expected : List String) : (r.pushError a b expected).Proper n := by
  have h1 := h.le_cursor
  refine ⟨by show r.origin ≤ b; omega, by show b ≤ max r.origin n; omega, ?_, ?_, nofun,
    ?_⟩
  · intro p hp
    cases hp
    cases hs : r.start with
    | none => simpa using by omega
    | some q => exact h.le_start q hs
  · intro p hp
    cases hp
    cases hs : r.start with
    | none => exact hab
    | some q =>
      have := h.start_le q hs
      show q ≤ b
      omega
  · intro x hx
    rcases List.mem_cons.1 hx with rfl | hx
    · exact nofun
    · exact h.literal x hx

theorem toMatch (h : r.Proper n) : r.toMatch.Proper r.origin n := by
  have hliteral : ∀ x ∈ r.items.reverse, x.1.named = false → x.1.children = [] :=
    fun x hx => h.literal x (List.mem_reverse.1 hx)
  unfold Run.toMatch
  cases hs : r.start with
  | none =>
    refine ⟨Nat.le_refl _, h.le_cursor, h.cursor_le, fun hnil => ⟨rfl, ?_⟩, hliteral⟩
    exact (h.of_nil (List.reverse_eq_nil_iff.1 hnil)).2
  | some p =>
    refine ⟨h.le_start p hs, h.start_le p hs, h.cursor_le, fun hnil => ?_, hliteral⟩
    have := (h.of_nil (List.reverse_eq_nil_iff.1 hnil)).1
    rw [hs] at this
    cases this

end Proper

/-- The cursor of a run moves to the end of a match with nodes. -/
theorem cursor_push (r : Run) (m : Match) :
    (r.push m).cursor = if m.items.isEmpty then r.cursor else m.stop := by
  unfold Run.push
  split <;> rfl

end Run

/-! ## What the engine finds -/

namespace Session

variable {s : Session}

theorem matchLiteral_eq_some {value : String} {pos : Nat} {m : Match}
    (h : s.matchLiteral value pos = some m) :
    ∃ l, s.literalAt (s.skip pos) = some l ∧ l.text = value ∧
      m = { start := s.skip pos, stop := s.skip pos + l.chars.length,
            items := [(Node.leaf value (s.skip pos) (s.skip pos + l.chars.length) false, [])],
            lead := true } := by
  unfold matchLiteral at h
  simp only at h
  split at h
  · rename_i l hl
    split at h
    · rename_i htext
      cases h
      exact ⟨l, hl, htext, rfl⟩
    · cases h
  · cases h

theorem matchToken_eq_some {name : String} {t : Token} {pos : Nat} {m : Match}
    (h : s.matchToken name t pos = some m) :
    ∃ stop, t.matchAt s.text (s.skip pos) = some stop ∧ s.skip pos < stop ∧
      (s.grammar.word = some name → s.slice (s.skip pos) stop ∉ s.grammar.reserved) ∧
      m = { start := s.skip pos, stop := stop,
            items := [(Node.leaf name (s.skip pos) stop true, [])] } := by
  unfold matchToken at h
  simp only at h
  split at h
  · cases h
  · rename_i stop hstop
    split at h
    · cases h
    · rename_i hlt
      split at h
      · cases h
      · rename_i hword
        cases h
        refine ⟨stop, hstop, by omega, ?_, rfl⟩
        intro hw hmem
        exact hword (by simp [hw, hmem])

theorem matchLiteral_proper {value : String} {pos : Nat} {m : Match}
    (h : s.matchLiteral value pos = some m) : m.Proper pos s.size := by
  obtain ⟨l, hl, _, rfl⟩ := matchLiteral_eq_some h
  have h1 := le_skip_of_lt (lt_size_of_literalAt hl)
  have h2 := literalAt_length_le hl
  refine ⟨h1, Nat.le_add_right _ _, Nat.le_trans h2 (Nat.le_max_right _ _), nofun, ?_⟩
  intro x hx _
  cases List.mem_singleton.1 hx
  rfl

theorem matchToken_proper {name : String} {t : Token} {pos : Nat} {m : Match}
    (h : s.matchToken name t pos = some m) : m.Proper pos s.size := by
  obtain ⟨stop, hstop, hlt, _, rfl⟩ := matchToken_eq_some h
  have h2 : stop ≤ s.size := Token.matchAt_le_size hstop
  have h1 := le_skip_of_lt (Nat.lt_of_lt_of_le hlt h2)
  refine ⟨h1, Nat.le_of_lt hlt, Nat.le_trans h2 (Nat.le_max_right _ _), nofun, ?_⟩
  intro x hx _
  cases List.mem_singleton.1 hx
  rfl

/-- What `Proper` means for each kind of task. -/
def Task.Proper (n : Nat) : Task → Match → Prop
  | .production _ pos, m => m.Proper pos n
  | .items _ run, m => run.Proper n → m.Proper run.origin n
  | .rounds _ _ _ _ run, m => run.Proper n → m.Proper run.origin n
  | .element _ _ _ pos, m => m.Proper pos n
  | .elements _ _ _ run, m => run.Proper n → m.Proper run.origin n
  | .growth _ _ left, m => ∀ pos, left.Proper pos n → m.Proper pos n
  | .rule key, m => m.Proper key.pos n

/-- **Every match lies inside the text**, from the position where it was looked for. -/
theorem Yields.proper {t : Task} {m : Match} (h : s.Yields t m) : t.Proper s.size m := by
  induction h with
  | lit h => exact matchLiteral_proper h
  | token _ h => exact matchToken_proper h
  | ref _ _ ih => exact ih
  | seq _ ih => exact ih (Run.proper_begin _ _)
  | choice _ _ ih => exact ih
  | rep _ ih => exact ih (Run.proper_begin _ _)
  | opt _ ih => exact ih
  | omitted => exact Match.proper_empty _ _
  | blank => exact Match.proper_empty _ _
  | field _ ih => exact Match.Proper.withFields ih _
  | renamed _ ih => exact Match.Proper.rename ih _ _
  | prec _ ih => exact ih
  | itemsDone => exact fun hr => hr.toMatch
  | @itemsNext _ _ run m _ _ _ ih ih' =>
    intro hr
    have h := ih' (hr.push ih)
    rwa [Run.origin_push] at h
  | roundsDone _ => exact fun hr => hr.toMatch
  | @round _ _ _ _ run m _ _ hstop _ ih ih' =>
    intro hr
    refine ih' (hr.take ih fun hnil => ?_)
    have := (Match.Proper.of_nil ih hnil).2
    omega
  | region hspan _ ih' =>
    intro hr
    obtain ⟨h1, h2, _, h4⟩ := errorSpan_advances hspan
    exact ih' (hr.pushError h1 h2 h4 _)
  | selfElement _ _ ih => exact Match.Proper.withFields ih _
  | bodyElement _ _ ih => exact ih
  | elementsDone => exact fun hr => hr.toMatch
  | @elementsNext _ _ _ _ run m _ _ _ ih ih' =>
    intro hr
    have h := ih' (hr.push ih)
    rwa [Run.origin_push] at h
  | grown => exact fun _ h => h
  | grow _ _ _ _ hlt _ ih ih' =>
    intro pos hl
    exact ih' pos (hl.extended (ih (Run.proper_begin _ _)) hlt _)
  | rule _ _ _ _ ih ih' =>
    exact Match.Proper.finish (ih' _ (Match.Proper.dress (ih (Run.proper_begin _ _)) _)) _

end Session

end LayeredGrammar
