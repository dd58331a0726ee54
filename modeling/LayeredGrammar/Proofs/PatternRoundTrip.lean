import LayeredGrammar.Proofs.Pattern.Printing

/-!
# Patterns and productions

Patterns denote exactly the expressible productions, and reading inverts printing
(`Pattern.read_exact`).

That nothing else is read is an invariant of the stack of open groups: all finished items and branches
are expressible (`Pattern.Frame.Sound`). The lexer gives names that are written like names only
(`Pattern.named_of_mem_lex`), and a group is closed as a sequence or a choice only if it has two parts.
-/

namespace LayeredGrammar.Pattern

/-! ## Names in lexemes -/

/-- A lexeme whose name, if it has one, is written like a name. -/
def Lexeme.Named : Lexeme → Prop
  | .reference name | .fieldName name => isName name = true
  | _ => True

theorem named_of_mem_readQuantifier {cs : List Char} {l : Lexeme} (h : l ∈ (readQuantifier cs).1) :
    l.Named := by
  unfold readQuantifier at h
  split at h
  · cases h
  · split at h
    · cases List.mem_singleton.1 h
      trivial
    · cases h

theorem named_of_mem_readField {cs : List Char} {l : Lexeme} (h : l ∈ (readField cs).1) :
    l.Named := by
  unfold readField at h
  split at h
  · split at h
    · rename_i hname
      cases List.mem_singleton.1 h
      exact isName_of_readName hname
    · cases List.mem_singleton.1 h
      trivial
  · cases h

theorem named_of_mem_readSuffix {cs : List Char} {l : Lexeme} (h : l ∈ (readSuffix cs).1) :
    l.Named := by
  rcases List.mem_append.1 h with h | h
  · exact named_of_mem_readQuantifier h
  · exact named_of_mem_readField h

theorem named_of_mem_referenceField {cs : List Char} {ls : List Lexeme}
    (h : referenceField? cs = some ls) : ∀ l ∈ ls, l.Named := by
  unfold referenceField? at h
  split at h
  · cases h
    nofun
  · split at h
    · rename_i hname
      cases h
      exact List.forall_mem_singleton.2 (isName_of_readName hname)
    · cases h
  · cases h

theorem named_of_mem_referenceLexemes {content : List Char} {l : Lexeme}
    (h : l ∈ referenceLexemes content) : l.Named := by
  unfold referenceLexemes at h
  cases hname : readName content with
  | none =>
    simp only [hname, bind, Option.bind, Option.getD_none, List.mem_singleton] at h
    subst h
    trivial
  | some found =>
    cases hfield : referenceField? (readQuantifier found.2).2 with
    | none =>
      simp only [hname, hfield, bind, Option.bind, Option.getD_none, List.mem_singleton] at h
      subst h
      trivial
    | some field =>
      simp only [hname, hfield, bind, Option.bind, Option.getD_some] at h
      rcases List.mem_cons.1 h with rfl | h
      · exact isName_of_readName hname
      · rcases List.mem_append.1 h with h | h
        · exact named_of_mem_readQuantifier h
        · exact named_of_mem_referenceField hfield l h

theorem named_of_mem_firstLexemes {c : Char} {rest : List Char} {l : Lexeme}
    (h : l ∈ (firstLexemes c rest).1) : l.Named := by
  unfold firstLexemes at h
  split at h
  case h_5 =>
    rcases List.mem_cons.1 h with rfl | h
    · trivial
    · exact named_of_mem_readSuffix h
  case h_6 | h_7 =>
    rcases List.mem_cons.1 h with rfl | h
    · trivial
    · exact named_of_mem_readField h
  case h_8 =>
    split at h
    · cases List.mem_singleton.1 h
      trivial
    · exact named_of_mem_referenceLexemes h
  case h_10 =>
    split at h
    · split at h
      · rcases List.mem_cons.1 h with rfl | h
        · trivial
        · exact named_of_mem_readSuffix h
      · cases List.mem_singleton.1 h
        trivial
    · split at h
      · cases h
      · cases List.mem_singleton.1 h
        trivial
  all_goals
    cases List.mem_singleton.1 h
    trivial

/-- The lexer gives names that are written like names only. -/
theorem named_of_mem_lex {cs : List Char} {l : Lexeme} (h : l ∈ lex cs) : l.Named := by
  fun_induction lex cs with
  | case1 => cases h
  | case2 c rest ih =>
    rcases List.mem_append.1 h with h | h
    · exact named_of_mem_firstLexemes h
    · exact ih h

/-! ## Groups -/

/-- A group with expressible items and branches. -/
structure Frame.Sound (f : Frame) : Prop where
  branches : ∀ p ∈ f.branches, Expressible p
  items : ∀ p ∈ f.items, Expressible p

variable {f : Frame} {p : Production}

theorem expressible_packed {items : List Production} (h : ∀ p ∈ items, Expressible p) :
    Expressible (packed items) := by
  match items with
  | [] => exact .blank
  | [p] => exact h p List.mem_cons_self
  | p :: q :: items =>
    refine .seq (by simp) fun r hr => h r (List.mem_reverse.1 hr)

namespace Frame.Sound

theorem empty : Sound {} := ⟨nofun, nofun⟩

theorem close (h : f.Sound) : Expressible f.close := by
  have hpacked := expressible_packed h.items
  unfold Frame.close
  split
  · exact hpacked
  · rename_i hne
    refine .choice ?_ ?_
    · have hpos := List.length_pos_iff.2 hne
      rw [List.length_reverse, List.length_cons]
      omega
    · intro q hq
      rcases List.mem_cons.1 (List.mem_reverse.1 hq) with rfl | hq
      · exact hpacked
      · exact h.branches q hq

theorem push (h : f.Sound) (hp : Expressible p) : (f.push p).Sound :=
  ⟨h.branches, List.forall_mem_cons.2 ⟨hp, h.items⟩⟩

theorem split (h : f.Sound) : f.split.Sound :=
  ⟨List.forall_mem_cons.2 ⟨expressible_packed h.items, h.branches⟩, nofun⟩

theorem modifyLast (h : f.Sound) {g : Production → Production}
    (hg : ∀ p, Expressible p → Expressible (g p)) : (f.modifyLast g).Sound := by
  obtain ⟨branches, items⟩ := f
  cases items with
  | nil => exact h
  | cons p items =>
    obtain ⟨hp, hitems⟩ := List.forall_mem_cons.1 h.items
    exact ⟨h.branches, List.forall_mem_cons.2 ⟨hg p hp, hitems⟩⟩

end Frame.Sound

theorem Expressible.enclose (h : Expressible p) (b : Bracket) : Expressible (b.enclose p) := by
  cases b with
  | round => exact h
  | square => exact .many h
  | curly => exact .some h

theorem Expressible.quantified (h : Expressible p) (q : Quantifier) : Expressible (q.apply p) := by
  cases q with
  | optional => exact .opt h
  | star => exact .many h
  | plus => exact .some h

/-- **What is read is expressible.** One lexeme after another, all open groups stay sound. -/
theorem expressible_of_readLexemes {ls : List Lexeme} (hls : ∀ l ∈ ls, l.Named)
    {outer : List (Bracket × Frame)} (houter : ∀ e ∈ outer, e.2.Sound) {frame : Frame}
    (hframe : frame.Sound) (h : (readLexemes outer frame ls).outcome = .ok p) : Expressible p := by
  induction ls generalizing outer frame with
  | nil =>
    cases outer with
    | nil =>
      cases h
      exact hframe.close
    | cons e outer => cases h
  | cons l ls ih =>
    obtain ⟨hl, hls'⟩ := List.forall_mem_cons.1 hls
    replace ih := @ih hls'
    cases l with
    | bar => exact ih houter hframe.split h
    | opening b => exact ih (List.forall_mem_cons.2 ⟨hframe, houter⟩) .empty h
    | closing b =>
      cases outer with
      | nil => cases h
      | cons e outer =>
        obtain ⟨hf, houter⟩ := List.forall_mem_cons.1 houter
        rw [readLexemes] at h
        split at h
        · exact ih houter (hf.push (hframe.close.enclose b)) h
        · cases h
    | reference name => exact ih houter (hframe.push (.ref hl)) h
    | literal value => exact ih houter (hframe.push .lit) h
    | bare word =>
      rw [readLexemes] at h
      split at h
      · obtain ⟨_, _, h⟩ := Traced.outcome_bind.1 h
        exact ih houter (hframe.push .lit) h
      · exact ih houter (hframe.push .lit) h
    | quantifier q => exact ih houter (hframe.modifyLast fun _ hp => hp.quantified q) h
    | fieldName name => exact ih houter (hframe.modifyLast fun _ hp => .field hl hp) h
    | fault f => cases h

theorem expressible_of_read {pattern : String} (h : (read pattern).outcome = .ok p) :
    Expressible p := by
  refine expressible_of_readLexemes (fun _ hl => named_of_mem_lex hl) ?_ .empty
    (Traced.outcome_embed h)
  exact fun _ he => nomatch he

/-! ## The round trip -/

/-- **Patterns denote exactly the expressible productions, and reading inverts printing.** -/
theorem read_exact (p : Production) :
    (Expressible p ↔ ∃ pattern, (read pattern).outcome = .ok p) ∧
    (Expressible p → read (print p) = pure p) :=
  ⟨⟨fun h => ⟨print p, by rw [read_print h]; rfl⟩, fun ⟨_, h⟩ => expressible_of_read h⟩, read_print⟩

/-- A sequence with an escaped quote, a field around an optional choice, and a repetition. -/
theorem read_exact_nested :
    print (.seq [.lit "a\"", .field "x" (.opt (.choice [.ref "b", .blank])), .rep (.ref "c") 1 false]) =
      "(\"a\\\"\" (((<b>|()))?):x \x7b<c>\x7d)" ∧
    read "(\"a\\\"\" (((<b>|()))?):x \x7b<c>\x7d)" = pure
      (.seq [.lit "a\"", .field "x" (.opt (.choice [.ref "b", .blank])), .rep (.ref "c") 1 false]) := by
  have hprint : print (.seq [.lit "a\"", .field "x" (.opt (.choice [.ref "b", .blank])),
      .rep (.ref "c") 1 false]) = "(\"a\\\"\" (((<b>|()))?):x \x7b<c>\x7d)" := by decide
  have hchoice : Expressible (.choice [.ref "b", .blank]) :=
    .choice (by decide) (List.forall_mem_cons.2
      ⟨.ref (by decide), List.forall_mem_singleton.2 .blank⟩)
  have hseq : Expressible (.seq [.lit "a\"", .field "x" (.opt (.choice [.ref "b", .blank])),
      .rep (.ref "c") 1 false]) :=
    .seq (by decide) (List.forall_mem_cons.2 ⟨.lit, List.forall_mem_cons.2
      ⟨.field (by decide) (.opt hchoice), List.forall_mem_singleton.2 (.some (.ref (by decide)))⟩⟩)
  exact ⟨hprint, hprint ▸ (read_exact _).2 hseq⟩

end LayeredGrammar.Pattern
