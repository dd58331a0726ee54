import LayeredGrammar.Proofs.Engine.Bounds

/-!
# Where a session looks for matches

A session looks for a match only at the start of the text and where something ended before: a literal,
a token or an error region. `Session.Boundary` is the least set of such positions. Two sessions need to
scan a text in the same way there only (`Session.Confined`); inside words, strings and comments they may
differ.
-/

namespace LayeredGrammar

namespace Session

variable {s : Session} {reached : Nat → Prop}

/-- A set of positions that a session does not leave: what starts at one of them ends at one. -/
structure Confined (s : Session) (reached : Nat → Prop) : Prop where
  origin : reached 0
  skip : ∀ {pos}, reached pos → reached (s.skip pos)
  literal : ∀ {pos l}, reached pos → s.literalAt (s.skip pos) = some l →
    reached (s.skip pos + l.chars.length)
  token : ∀ {pos name t stop}, reached pos → s.grammar.tokens.get? name = some t →
    t.matchAt s.text (s.skip pos) = some stop → reached stop
  rawToken : ∀ {pos}, reached pos → s.skip pos < s.size → reached (s.rawTokenEnd (s.skip pos))

/-- No session leaves the set of all positions. -/
theorem confined_everywhere : s.Confined fun _ => True where
  origin := trivial
  skip _ := trivial
  literal _ _ := trivial
  token _ _ _ := trivial
  rawToken _ _ := trivial

/-- The positions that a session can come to: where tokens may start. -/
inductive Boundary (s : Session) : Nat → Prop
  | origin : Boundary s 0
  | skip {pos : Nat} (h : Boundary s pos) : Boundary s (s.skip pos)
  | literal {pos : Nat} {l : Literal} (h : Boundary s pos)
    (hl : s.literalAt (s.skip pos) = some l) : Boundary s (s.skip pos + l.chars.length)
  | token {pos : Nat} {name : String} {t : Token} {stop : Nat} (h : Boundary s pos)
    (ht : s.grammar.tokens.get? name = some t) (hm : t.matchAt s.text (s.skip pos) = some stop) :
    Boundary s stop
  | rawToken {pos : Nat} (h : Boundary s pos) (hlt : s.skip pos < s.size) :
    Boundary s (s.rawTokenEnd (s.skip pos))

theorem confined_boundary : s.Confined s.Boundary where
  origin := .origin
  skip h := .skip h
  literal h hl := .literal h hl
  token h ht hm := .token h ht hm
  rawToken h hlt := .rawToken h hlt

/-- Boundaries lie in every set that confines the session. -/
theorem Boundary.mem {pos : Nat} (h : s.Boundary pos) (hc : s.Confined reached) : reached pos := by
  induction h with
  | origin => exact hc.origin
  | skip _ ih => exact hc.skip ih
  | literal _ hl ih => exact hc.literal ih hl
  | token _ ht hm ih => exact hc.token ih ht hm
  | rawToken _ hlt ih => exact hc.rawToken ih hlt

namespace Confined

theorem regionEnd (hc : s.Confined reached) : ∀ (n depth : Nat) {cursor : Nat}, reached cursor →
    reached (s.regionEnd n depth cursor)
  | 0, _, _, hcursor => hcursor
  | n + 1, depth, cursor, hcursor => by
    unfold Session.regionEnd
    split
    · exact hcursor
    · rename_i stop hpass
      obtain ⟨hlt, rfl⟩ := regionPass_eq_some hpass
      exact hc.rawToken hcursor hlt
    · rename_i stop depth' hpass
      obtain ⟨hlt, rfl⟩ := regionPass_eq_some hpass
      exact hc.regionEnd n depth' (hc.rawToken hcursor hlt)

/-- Error regions end at positions of the set. -/
theorem errorSpan (hc : s.Confined reached) {pos start stop : Nat} (hpos : reached pos)
    (h : s.errorSpan pos = some (start, stop)) : reached stop := by
  unfold Session.errorSpan at h
  simp only at h
  split at h
  · cases h
  · split at h
    · cases h
    · cases h
      exact hc.regionEnd _ _ (hc.skip hpos)

end Confined

end Session

end LayeredGrammar
