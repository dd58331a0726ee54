import LayeredGrammar.Proofs.Catalog.Chains
import Mathlib.Data.List.Find
import Mathlib.Data.List.TakeWhile

/-!
# Expressions with many operators

However many operators with two operands stand in a row, an expression of the C grammar reads them as
the reference tree says (`Catalog.expression_reads_chain`): it is split at the last of the weakest
operators, and so is what stands on either side.

The engine goes the other way, from left to right. What is read so far grows by one operator at a time,
together with the stronger operators behind it, and the next operator is then no stronger than any
before it (`OperatorChain.grow_chain`). An expression asks only for expressions that allow stronger
operators only, so that rules never nest deeper than there are levels of precedence.
-/

namespace LayeredGrammar

open Catalog
open Engine (Gives)

namespace OperatorChain

/-! ## Words -/

/-- Behind a name no word goes on. -/
theorem head?_spell (links : List Link) : (spell links).head?.any Text.isWordChar = false := by
  cases links with
  | nil => rfl
  | cons l ls => exact (by decide : Text.isWordChar ' ' = false)

/-- A text in front of a longer one ends in its first part, or goes on with a beginning of its
second. -/
theorem prefix_append_cases {u v rest : List Char} (h : u <+: v ++ rest) :
    u <+: v ∨ ∃ e, u = v ++ e ∧ e <+: rest := by
  rcases List.prefix_or_prefix_of_prefix h (List.prefix_append v rest) with h' | ⟨e, rfl⟩
  · exact Or.inl h'
  · exact Or.inr ⟨e, rfl, (List.prefix_append_right_inj v).1 h⟩

/-- Of two words that begin a text, neither is longer than the other. -/
theorem eq_of_words {u w rest : List Char} (hu : ∀ c ∈ u, Text.isWordChar c = true)
    (hw : ∀ c ∈ w, Text.isWordChar c = true) (hrest : rest.head?.any Text.isWordChar = false)
    (hbegins : u <+: w ++ rest)
    (hend : ((w ++ rest).drop u.length).head?.any Text.isWordChar = false) : u = w := by
  rcases prefix_append_cases hbegins with ⟨e, rfl⟩ | ⟨e, rfl, he⟩
  · cases e with
    | nil => rw [List.append_nil]
    | cons c e =>
      rw [List.append_assoc, List.drop_left] at hend
      simp [hw c (by simp)] at hend
  · cases e with
    | nil => rw [List.append_nil]
    | cons c e =>
      obtain ⟨rest', rfl⟩ := he
      simp [hu c (by simp)] at hrest

/-- What has no space in it begins a text only in front of the first space. -/
theorem prefix_iff_of_unspaced {u v rest : List Char} (hu : ' ' ∉ u) :
    u <+: v ++ ' ' :: rest ↔ u <+: v := by
  refine ⟨fun h => ?_, fun h => h.trans (List.prefix_append v _)⟩
  rcases prefix_append_cases h with h' | ⟨e, rfl, he⟩
  · exact h'
  · cases e with
    | nil => exact (List.append_nil v).symm ▸ List.prefix_rfl
    | cons c e =>
      rw [(List.cons_prefix_cons.1 he).1] at hu
      exact absurd (by simp) hu

/-! ## Scanning a chain -/

/-- An expression that reads a chain. -/
def reading (start : Nat) (name : Name) (links : List Link) : Match :=
  ⟨start, (tree start name links).stop, [(tree start name links, [])], 0, false, false⟩

section Scanning

variable {s : Session} {pos : Nat} {name : Name} {links : List Link} {cs : List Char}

theorem skip_name (ht : Expressions s.table) (h : s.Ahead pos (chars name links)) :
    s.skip pos = pos := by
  obtain ⟨c, cs, htext, hc, _⟩ := Pattern.isName_cons name.isName
  have hrests := List.all_eq_true.1 ht.extras.1 c (Pattern.mem_nameStarts hc)
  refine h.skip_of_rests ?_ hrests
  rw [chars, htext]
  exact List.cons_prefix_cons.2 ⟨rfl, List.nil_prefix⟩

theorem skip_operator (ht : Expressions s.table) (l : Link)
    (h : s.Ahead pos (l.op.toList ++ ' ' :: cs)) : s.skip pos = pos := by
  refine h.skip_of_rests ?_ (ht.extras.2 _ l.declared)
  exact (List.prefix_append_right_inj _).2 (List.cons_prefix_cons.2 ⟨rfl, List.nil_prefix⟩)

/-- No literal stands where a name does: it would be a reserved word. -/
theorem literalAt_name (ht : Expressions s.table) (hb : s.table.Built)
    (h : s.Ahead pos (chars name links)) : s.literalAt pos = none := by
  obtain ⟨c, cs, htext, hc, _⟩ := Pattern.isName_cons name.isName
  have hchars : chars name links = c :: (cs ++ spell links) := by
    rw [chars, htext, List.cons_append]
  rw [h.literalAt_eq (by simp [hchars]), List.find?_eq_none]
  intro l hl hfits
  rw [h.fits_eq, Bool.and_eq_true, List.isPrefixOf_iff_prefix, Bool.not_eq_true'] at hfits
  obtain ⟨hbegins, hend⟩ := hfits
  obtain ⟨last, hlast, _⟩ := Session.literal_of_mem hb hl
  have hhead : l.chars.head? = some c := by
    obtain ⟨rest, hrest⟩ := hbegins
    cases hl : l.chars with
    | nil =>
      rw [hl] at hlast
      cases hlast
    | cons d ds =>
      rw [hl, hchars, List.cons_append] at hrest
      exact congrArg some (List.cons.inj hrest).1
  rcases ht.words l hl with hno | ⟨hword, hall, hreserved⟩
  · rw [hhead] at hno
    simp [hc] at hno
  · rw [hword, Bool.true_and] at hend
    have heq := eq_of_words (List.all_eq_true.1 hall) (Pattern.isWordChar_of_isName name.isName)
      (head?_spell links) hbegins hend
    rw [hb.table] at hl
    obtain ⟨text, _, rfl⟩ := List.mem_map.1 (mem_sortBy.1 hl)
    exact name.free (String.toList_inj.1 heq ▸ hreserved)

/-- The literal that stands where an operator does is the operator. -/
theorem literalAt_operator (ht : Expressions s.table) (l : Link)
    (h : s.Ahead pos (l.op.toList ++ ' ' :: cs)) : s.literalAt pos = some (.ofText l.op) := by
  have hfits : ∀ lit ∈ s.table.literals, s.fits pos lit = lit.chars.isPrefixOf l.op.toList := by
    intro lit hlit
    rw [h.fits_eq, Bool.eq_iff_iff, Bool.and_eq_true, List.isPrefixOf_iff_prefix,
      List.isPrefixOf_iff_prefix, prefix_iff_of_unspaced (ht.unspaced lit hlit)]
    refine ⟨And.left, fun hbegins => ⟨hbegins, ?_⟩⟩
    rw [ht.unworded _ l.declared lit hlit (List.isPrefixOf_iff_prefix.2 hbegins)]
    rfl
  rw [h.literalAt_eq (by simp), List.find?_congr hfits]
  exact ht.operators _ l.declared

/-- An identifier ends where the name does. -/
theorem matchAt_name (h : s.Ahead pos (chars name links)) :
    identifier.matchAt s.text pos = some (pos + name.text.length) := by
  obtain ⟨c, cs, htext, hc, hcs⟩ := Pattern.isName_cons name.isName
  have hcons : s.Ahead pos (c :: (cs ++ spell links)) := by
    rwa [chars, htext, List.cons_append] at h
  have hlength : name.text.length = cs.length + 1 := by
    rw [← String.length_toList, htext, List.length_cons]
  have hfirst : ∀ k : Nat → Option Nat, Regex.run {} s.text identifierStart k pos = k (pos + 1) := by
    intro k
    have hall : Pattern.nameStarts.all (!identifierStart.refuses {} ·) = true := by decide +kernel
    have hstart := List.all_eq_true.1 hall c (Pattern.mem_nameStarts hc)
    rw [Bool.not_eq_true', identifierStart, Regex.refuses, beq_eq_false_iff_ne] at hstart
    simp only [identifierStart, Regex.run, Regex.step, hcons.getElem?, bne_iff_ne.2 hstart, if_true]
  have hbehind := hcons.tail
  have hle : pos ≤ s.text.size := h.1
  rw [identifier_eq]
  show Regex.run {} s.text _ some (min pos s.text.size) = _
  rw [Nat.min_eq_left hle]
  show Regex.run {} s.text identifierStart _ pos = _
  rw [hfirst, Regex.run_loop_word rfl (List.all_eq_true.2 hcs)]
  · congr 1
    omega
  · rw [hbehind.hasAt_eq, List.isPrefixOf_iff_prefix]
    exact List.prefix_append cs _
  · rw [hbehind.behind.wordAt_eq, head?_spell]

/-- A name is an identifier, since it is not reserved. -/
theorem matchToken_name (ht : Expressions s.table) (h : s.Ahead (s.skip pos) (chars name links)) :
    s.matchToken "identifier" identifier pos = some (reading (s.skip pos) name []) := by
  have hmatch := matchAt_name h
  have hlength : 0 < name.text.length := by
    obtain ⟨c, cs, htext, _⟩ := Pattern.isName_cons name.isName
    rw [← String.length_toList, htext]
    exact Nat.succ_pos _
  have hfree : s.grammar.reserved.contains (s.slice (s.skip pos)
      (s.skip pos + name.text.length)) = false := by
    rw [← String.length_toList, h.slice_eq, String.ofList_toList]
    refine Bool.eq_false_iff.2 fun hmem => ?_
    exact name.free (ht.reserved _ (List.contains_iff_mem.1 hmem))
  unfold Session.matchToken reading
  simp only [hmatch, hfree, Bool.and_false, Bool.false_eq_true, if_false]
  rw [if_neg (by omega), tree_nil]
  rfl

/-- Behind an operand of a chain stands an operator, and behind that a space and the next operand. -/
theorem ahead_link (ht : Expressions s.table) (hs : s.SkipsBlanks) {l : Link}
    (h : s.Ahead pos (spell (l :: links))) :
    s.skip pos = pos + 1 ∧ s.literalAt (pos + 1) = some (.ofText l.op) ∧
      s.skip (pos + 1 + l.op.length) = pos + 1 + l.op.length + 1 ∧
      s.Ahead (pos + 1 + l.op.length + 1) (chars l.name links) := by
  have hblank : Text.isBlank ' ' = true := by decide
  have hop : s.Ahead (pos + 1) (l.op.toList ++ ' ' :: chars l.name links) := h.tail
  have hspace := hop.behind
  rw [String.length_toList] at hspace
  refine ⟨?_, literalAt_operator ht l hop, ?_, hspace.tail⟩
  · rw [h.skip_blank hs hblank, skip_operator ht l hop]
  · rw [hspace.skip_blank hs hblank, skip_name ht hspace.tail]

end Scanning

/-! ## What is known around an operand -/

section Places

variable {s : Session} {good : Memo → Prop} {call : RuleMatcher} {pos : Nat} {links : List Link}

/-- Where a name stands there is no literal, and other tokens do not match. -/
theorem faces_name (ht : Expressions s.table) (hb : s.table.Built) {name : Name}
    (h : s.Ahead (s.skip pos) (chars name links)) {absent : List String}
    (habsent : ∀ rule ∈ absent, rule ∈ otherTokens ∨
      s.grammar.tokens.get? rule = none ∧ Gives good (call rule pos 0) none) :
    s.Faces good call ⟨none, absent⟩ pos := by
  have htoken : ∀ rule ∈ otherTokens, ∃ t, s.grammar.tokens.get? rule = some t ∧
      s.matchToken rule t pos = none := by
    intro rule hrule
    obtain ⟨t, hget, hrefuses⟩ := (Option.any_eq_true _ _).1 (ht.tokens rule hrule)
    obtain ⟨c, cs, htext, hc, _⟩ := Pattern.isName_cons name.isName
    rw [chars, htext, List.cons_append] at h
    exact ⟨t, hget, h.matchToken_of_refuses
      (List.all_eq_true.1 hrefuses c (Pattern.mem_nameStarts hc)) rule⟩
  refine ⟨by rw [literalAt_name ht hb h]; rfl, fun rule hrule t hget => ?_, fun rule hrule hget => ?_⟩
  · rcases habsent rule hrule with hother | ⟨hnone, _⟩
    · obtain ⟨t', hget', hmatch⟩ := htoken rule hother
      cases hget.symm.trans hget'
      exact hmatch
    · rw [hget] at hnone
      cases hnone
  · rcases habsent rule hrule with hother | ⟨_, hgives⟩
    · obtain ⟨t, hget', _⟩ := htoken rule hother
      rw [hget] at hget'
      cases hget'
    · exact hgives

/-- The operator that follows an operand, unless the chain ends there. -/
def follower (links : List Link) : Option String := links.head?.map (·.op)

theorem follower_mem (links : List Link) : follower links ∈ followers := by
  cases links with
  | nil => exact List.mem_cons_self
  | cons l ls =>
    exact List.mem_cons_of_mem _ (List.mem_map.2 ⟨(l.op, l.level), l.declared, rfl⟩)

/-- Behind an operand there is no literal but the operator. -/
theorem faces_behind (ht : Expressions s.table) (hs : s.SkipsBlanks) (h : s.Ahead pos (spell links))
    {absent : List String} (habsent : ∀ rule ∈ absent,
      s.grammar.tokens.get? rule = none ∧ Gives good (call rule pos 0) none) :
    s.Faces good call ⟨follower links, absent⟩ pos := by
  refine ⟨?_, fun rule hrule t hget => ?_, fun rule hrule _ => (habsent rule hrule).2⟩
  · cases links with
    | nil =>
      have hend : s.Ahead pos [] := h
      rw [hend.skip_of_nil, hend.literalAt_of_nil]
      rfl
    | cons l ls =>
      obtain ⟨hskip, hliteral, _⟩ := ahead_link ht hs h
      rw [hskip, hliteral]
      rfl
  · rw [(habsent rule hrule).1] at hget
    cases hget

end Places

/-! ## Growing along a chain -/

/-- What an operator and its right operand, itself a chain, add behind an operand that ends at a
position. -/
def addition (pos : Nat) (l : Link) (links : List Link) : Match :=
  let right := tree (pos + 1 + l.op.length + 1) l.name links
  ⟨pos + 1, right.stop,
    [(.leaf l.op (pos + 1) (pos + 1 + l.op.length) false, ["operator"]), (right, ["right"])],
    0, true, false⟩

theorem lt_stop_addition (pos : Nat) (l : Link) (links : List Link) :
    pos < (addition pos l links).stop := by
  show pos < (tree (pos + 1 + l.op.length + 1) l.name links).stop
  rw [(tree_span _ l.name links).2]
  omega

/-- An operator that is no stronger than any before it, and weaker than those of its right operand, is
where the reference tree is split. -/
theorem extended_addition (i start : Nat) (name : Name) {done links : List Link} {l : Link}
    (hdone : ∀ b ∈ done, l.level ≤ b.level) (hlinks : ∀ a ∈ links, l.level < a.level) :
    Session.extended (binary i (l.op, l.level)) (reading start name done)
      (addition (tree start name done).stop l links) = reading start name (done ++ l :: links) := by
  unfold reading
  rw [extended_binary, tree_append start name hdone hlinks, joined, (tree_span start name done).1]
  rfl

theorem lt_of_mem_takeWhile {level : Int} {links : List Link} {a : Link}
    (ha : a ∈ links.takeWhile (level + 1 ≤ ·.level)) : level < a.level := by
  have hpass := List.mem_takeWhile_imp ha
  exact of_decide_eq_true hpass

/-- A run of what passes a test goes on behind the run of what passes a stricter one. -/
theorem exists_behind_takeWhile {α : Type} (strict test : α → Bool)
    (h : ∀ a, strict a = true → test a = true) (l : List α) : ∃ rest, l = l.takeWhile strict ++ rest ∧
      (∀ a ∈ rest.head?, strict a = false) ∧
      l.takeWhile test = l.takeWhile strict ++ rest.takeWhile test := by
  induction l with
  | nil =>
    refine ⟨[], rfl, fun a ha => ?_, rfl⟩
    cases ha
  | cons a l ih =>
    cases ha : strict a with
    | true =>
      obtain ⟨rest, hl, hhead, htest⟩ := ih
      rw [List.takeWhile_cons_of_pos ha, List.takeWhile_cons_of_pos (h a ha), htest]
      exact ⟨rest, congrArg (a :: ·) hl, hhead, rfl⟩
    | false =>
      rw [List.takeWhile_cons_of_neg (by simp [ha])]
      refine ⟨a :: l, rfl, fun b hb => ?_, rfl⟩
      cases hb
      exact ha

/-- Behind more links there are the characters of those that are left. -/
theorem ahead_append {s : Session} {start : Nat} {name : Name} {done links rest : List Link}
    (h : s.Ahead (tree start name done).stop (spell (links ++ rest))) :
    s.Ahead (tree start name (done ++ links)).stop (spell rest) := by
  rw [spell_append] at h
  have hstop : (tree start name (done ++ links)).stop =
      (tree start name done).stop + (spell links).length := by
    simp only [(tree_span start name _).2, chars, spell_append, List.length_append]
    omega
  exact hstop ▸ h.behind

section Growing

variable {s : Session} {good : Memo → Prop} {call : RuleMatcher} {minPrec : Int}

/-- Right operands of operators that are not weaker than `minPrec` are read as the reference trees of
the stronger operators ahead. -/
def ReadsOperands (s : Session) (good : Memo → Prop) (call : RuleMatcher) (minPrec : Int) : Prop :=
  ∀ pos name links least, s.Ahead (s.skip pos) (chars name links) → minPrec < least → least ≤ 13 →
    Gives good (call "_expression" pos least)
      (some (reading (s.skip pos) name (links.takeWhile (least ≤ ·.level))))

/-- Behind an operand no argument list follows. -/
def ReadsNoArguments (s : Session) (good : Memo → Prop) (call : RuleMatcher) : Prop :=
  ∀ pos links, s.Ahead pos (spell links) → Gives good (call "argument_list" pos 0) none

/-- The alternative of the operator behind an operand takes in its right operand. -/
theorem matchElements_addition (ht : Expressions s.table) (hs : s.SkipsBlanks)
    (hoperands : ReadsOperands s good call minPrec) {pos : Nat} {l : Link} {links : List Link}
    (h : s.Ahead pos (spell (l :: links))) (hlevel : minPrec ≤ l.level) (i : Nat) :
    Gives good (s.matchElements call "_expression" (binary i (l.op, l.level)).rightMin
        ((binary i (l.op, l.level)).elements.drop 1) (.begin pos))
      (some (addition pos l (links.takeWhile (l.level + 1 ≤ ·.level)))) := by
  obtain ⟨hskip, hliteral, hskip', hright⟩ := ahead_link ht hs h
  rw [binary_elements, rightMin_binary]
  refine Session.matchElements_cons
    (m := ⟨pos + 1, pos + 1 + l.op.length,
      [(.leaf l.op (pos + 1) (pos + 1 + l.op.length) false, ["operator"])], 0, true, false⟩) ?_
    (Session.matchElements_cons
      (m := (reading (pos + 1 + l.op.length + 1) l.name
        (links.takeWhile (l.level + 1 ≤ ·.level))).withFields ["right"]) ?_ (.pure _))
  · have hmatch := Session.matchLiteral_of_literalAt (hskip.symm ▸ hliteral)
    rw [hskip] at hmatch
    refine Gives.bind (x := pure (s.matchLiteral l.op pos)) (.pure _) ?_
    rw [hmatch]
    exact .pure _
  · have hle := (level_bounds _ l.declared).2
    have hgives := hoperands (pos + 1 + l.op.length) l.name links (l.level + 1)
      (hskip'.symm ▸ hright) (by omega) (by omega)
    rw [hskip'] at hgives
    exact hgives.bind (.pure _)

/-- Where the chain ends, or goes on with a weaker operator than allowed, no operator is taken in. -/
theorem growOnce_halts {left : Match} {rest : List Link}
    (hfaces : s.Faces good call (behindOperand (follower rest)) left.stop)
    (hrest : ∀ l ∈ rest.head?, l.level < minPrec) :
    Gives good (s.growOnce call "_expression" minPrec left expression.leftRec) none := by
  refine Session.growOnce_hopeless hfaces fun a ha => ?_
  cases rest with
  | nil => exact Or.inr (List.all_eq_true.1 expression_leftRec_end a ha)
  | cons l ls =>
    obtain ⟨i, _, _, hothers⟩ := expression_leftRec _ l.declared
    rcases hothers a ha with rfl | hnothing
    · exact Or.inl (hrest l rfl)
    · exact Or.inr hnothing

/-- What is read so far is taken on by the next operator together with the stronger ones behind it. -/
theorem growOnce_link (ht : Expressions s.table) (hs : s.SkipsBlanks)
    (hoperands : ReadsOperands s good call minPrec) {start : Nat} {name : Name} {done links : List Link}
    {l : Link} (hahead : s.Ahead (tree start name done).stop (spell (l :: links)))
    (hfaces : s.Faces good call (behindOperand (some l.op)) (reading start name done).stop)
    (hlevel : minPrec ≤ l.level) (hdone : ∀ b ∈ done, l.level ≤ b.level) :
    Gives good (s.growOnce call "_expression" minPrec (reading start name done) expression.leftRec)
      (some (reading start name (done ++ l :: links.takeWhile (l.level + 1 ≤ ·.level)))) := by
  obtain ⟨i, _, hmem, hothers⟩ := expression_leftRec _ l.declared
  have hgrown := Session.growOnce_single hfaces (a := binary i (l.op, l.level)) hlevel
    (lt_stop_addition _ l _) (matchElements_addition ht hs hoperands hahead hlevel i) hmem hothers
  rwa [show (reading start name done).stop = (tree start name done).stop from rfl,
    extended_addition i start name hdone fun a => lt_of_mem_takeWhile] at hgrown

/-- **Growing along a chain.** What is read so far, all of it operators that are not weaker than
`minPrec`, grows up to the first weaker one. The next operator is no stronger than any before it, so it
becomes the root. -/
theorem grow_chain (ht : Expressions s.table) (hs : s.SkipsBlanks)
    (hoperands : ReadsOperands s good call minPrec) (harguments : ReadsNoArguments s good call)
    (start : Nat) (name : Name) : ∀ (n : Nat) (done rest : List Link), rest.length < n →
      s.Ahead (tree start name done).stop (spell rest) →
      (∀ l ∈ rest.head?, minPrec ≤ l.level → ∀ b ∈ done, l.level ≤ b.level) →
      Gives good (s.grow call "_expression" minPrec expression n (reading start name done))
        (reading start name (done ++ rest.takeWhile (minPrec ≤ ·.level)))
  | 0, _, _, hn, _, _ => by omega
  | n + 1, done, rest, hn, hahead, hdone => by
    have hfaces : s.Faces good call (behindOperand (follower rest)) (reading start name done).stop :=
      faces_behind ht hs hahead fun rule hrule => by
        cases List.mem_singleton.1 hrule
        exact ⟨(ht.arguments none List.mem_cons_self).1, harguments _ rest hahead⟩
    have hpostfixed : Gives good (s.growOnce call "_expression" minPrec (reading start name done)
        expression.postfixed) none := by
      refine Session.growOnce_hopeless hfaces fun a ha => Or.inr ?_
      exact List.all_eq_true.1 (List.all_eq_true.1 expression_postfixed _ (follower_mem rest)) a ha
    by_cases hweak : ∀ l ∈ rest.head?, l.level < minPrec
    · have hnone : rest.takeWhile (minPrec ≤ ·.level) = [] := by
        cases rest with
        | nil => rfl
        | cons l ls => exact List.takeWhile_cons_of_neg (by simpa using hweak l rfl)
      rw [hnone, List.append_nil]
      exact Session.grow_done hpostfixed (growOnce_halts hfaces hweak) (n + 1)
    · obtain ⟨l, ls, rfl, hlevel⟩ : ∃ l ls, rest = l :: ls ∧ minPrec ≤ l.level := by
        cases rest with
        | nil => exact absurd (fun l hl => by cases hl) hweak
        | cons l ls => exact ⟨l, ls, rfl, by simpa using hweak⟩
      have hgrown := growOnce_link ht hs hoperands hahead hfaces hlevel (hdone l rfl hlevel)
      obtain ⟨rest, hls, hhead, htaken⟩ := exists_behind_takeWhile
        (fun a : Link => decide (l.level + 1 ≤ a.level)) (fun a => decide (minPrec ≤ a.level))
        (fun a ha => by simp only [decide_eq_true_eq] at ha ⊢; omega) ls
      rw [List.takeWhile_cons_of_pos (by simpa using hlevel), htaken, ← List.cons_append,
        ← List.append_assoc]
      refine Session.grow_step hpostfixed hgrown
        (grow_chain ht hs hoperands harguments start name n _ rest ?_ (ahead_append ?_) ?_)
      · have hlength := congrArg List.length hls
        rw [List.length_append] at hlength
        rw [List.length_cons] at hn
        omega
      · rwa [List.cons_append, ← hls]
      · -- the operator behind is no stronger than `l`, and `l` no stronger than what was taken in
        intro l' hl' _ b hb
        have hle : l'.level ≤ l.level := by
          have := hhead l' hl'
          simp only [decide_eq_false_iff_not] at this
          omega
        refine Int.le_trans hle ?_
        rcases List.mem_append.1 hb with hb | hb
        · exact hdone l rfl hlevel b hb
        · rcases List.mem_cons.1 hb with rfl | hb
          · exact Int.le_refl _
          · exact Int.le_of_lt (lt_of_mem_takeWhile hb)

end Growing

/-! ## Planned answers -/

/-- What is answered where a chain stands. -/
inductive Planned (s : Session) : MemoKey → Option Match → Prop
  | other {rule pos name links} (hrule : rule ∈ otherRules)
    (h : s.Ahead (s.skip pos) (chars name links)) : Planned s ⟨rule, pos, 0⟩ none
  | arguments {pos links} (h : s.Ahead pos (spell links)) : Planned s ⟨"argument_list", pos, 0⟩ none
  | operand {pos least name links} (hleast : least ≤ 13)
    (h : s.Ahead (s.skip pos) (chars name links)) :
    Planned s ⟨"_expression", pos, least⟩
      (some (reading (s.skip pos) name (links.takeWhile (least ≤ ·.level))))

/-- An expression that allows stronger operators only nests less deep, and the other rules ask for no
rule. -/
def plan (s : Session) : Plan where
  answers := Planned s
  depth k := if k.rule = "_expression" then (14 - k.minPrec).toNat else 0

variable {s : Session}

/-- The only alternative that begins where a name stands is the name. -/
theorem seeds_name (ht : Expressions s.table) {good : Memo → Prop} {call : RuleMatcher} {pos : Nat}
    {name : Name} {links : List Link} (h : s.Ahead (s.skip pos) (chars name links))
    (hfaces : s.Faces good call atName pos) :
    Gives good (s.seeds call "_expression" pos (expression.prefixed ++ expression.plain))
      [⟨0, some "identifier", reading (s.skip pos) name []⟩] := by
  obtain ⟨others, hplain, hothers, hprefixed⟩ := expression_seeds
  have hmatch : Gives good (s.matchElements call "_expression" named.rightMin named.elements
      (.begin pos)) (some (reading (s.skip pos) name [])) := by
    refine Session.matchElements_cons (m := reading (s.skip pos) name []) ?_ (.pure _)
    have hidentifier : s.grammar.tokens.get? "identifier" = some identifier := ht.identifier
    show Gives good (s.matchProduction call "_expression" (.ref "identifier") pos) _
    simp only [Session.matchProduction, hidentifier, matchToken_name ht h]
    exact .pure _
  rw [hplain]
  exact Session.seeds_single hfaces hothers hmatch hprefixed

theorem plan_works (ht : Expressions s.table) (hb : s.table.Built) (hs : s.SkipsBlanks) :
    (plan s).Works s := by
  intro k found hk good call hbelow
  cases hk with
  | other hrule h =>
    exact Session.answer_hopeless (faces_name ht hb h fun _ => Or.inl) (ht.rules _ hrule).2
  | arguments h =>
    exact Session.answer_hopeless (faces_behind ht hs h (List.forall_mem_nil _))
      (ht.arguments _ (follower_mem _)).2
  | @operand pos least name links hleast h =>
    have hoperands : ReadsOperands s good call least := by
      intro pos' name' links' least' h' hlt hle
      refine hbelow _ _ (.operand hle h') ?_
      show (14 - least').toNat < (14 - least).toNat
      omega
    have hpositive : 0 < (14 - least).toNat := by omega
    have harguments : ReadsNoArguments s good call := by
      intro pos' links' h'
      exact hbelow _ _ (.arguments h') hpositive
    have hothers : ∀ rule ∈ otherRules, Gives good (call rule pos 0) none := by
      intro rule hrule
      have hne : ∀ rule ∈ otherRules, rule ≠ "_expression" := by decide
      refine hbelow _ _ (.other hrule h) ?_
      show (if rule = "_expression" then _ else 0) < (14 - least).toNat
      rwa [if_neg (hne rule hrule)]
    have hfaces : s.Faces good call atName pos := by
      refine faces_name ht hb h fun rule hrule => ?_
      rcases List.mem_append.1 hrule with hrule | hrule
      · exact Or.inl hrule
      · exact Or.inr ⟨(ht.rules rule hrule).1, hothers rule hrule⟩
    have hgrown := grow_chain ht hs hoperands harguments (s.skip pos) name (s.size + 1) [] links
      ?_ ?_ ?_
    · have hhidden : ∀ m : Match, m.finish "_expression" = m := fun m => if_pos (by decide)
      have hanswer := Session.answer_single (k := ⟨"_expression", pos, least⟩) ht.rule
        (seeds_name ht h hfaces) hgrown
      rwa [hhidden] at hanswer
    · have hsize := h.size_eq
      have hlength := length_le_spell links
      rw [chars, List.length_append] at hsize
      omega
    · rw [(tree_span (s.skip pos) name []).2, chars, spell, List.append_nil]
      exact h.behind
    · simp

/-! ## Whole chains -/

theorem takeWhile_zero_le (links : List Link) :
    links.takeWhile (fun l => decide (0 ≤ l.level)) = links := by
  induction links with
  | nil => rfl
  | cons l ls ih =>
    have hlevel : 0 ≤ l.level := (level_bounds _ l.declared).1
    rw [List.takeWhile_cons_of_pos (by simpa using hlevel), ih]

/-- Fifteen rules inside each other are enough for any chain. -/
theorem matchRule_chain (ht : Expressions s.table) (hb : s.table.Built) (hs : s.SkipsBlanks)
    {name : Name} {links : List Link} (htext : s.text.toList = chars name links) {limit : Nat}
    (hlimit : 14 < limit) :
    ∃ μ, s.matchRule limit "_expression" 0 0 {} = .ok (some (reading 0 name links)) μ := by
  have hahead : s.Ahead 0 (chars name links) := htext ▸ Session.ahead_zero
  have hskip := skip_name ht hahead
  have hplanned : (plan s).answers ⟨"_expression", 0, 0⟩ (some (reading 0 name links)) := by
    have hanswer : Planned s ⟨"_expression", 0, 0⟩ _ := .operand (by decide) (hskip.symm ▸ hahead)
    rwa [takeWhile_zero_le, hskip] at hanswer
  obtain ⟨μ, hμ, _⟩ := Session.matchRule_planned (plan_works ht hb hs) limit [] hplanned hlimit
    (List.forall_mem_nil _) {} Plan.fair_empty
  exact ⟨μ, hμ⟩

end OperatorChain

namespace Catalog

open OperatorChain

/-- **Chains of operators are read as their reference trees.** However long a chain of names and
two-operand operators is, an expression of the C grammar reads all of it without running into the limit
on nested rules, and leaves its reference tree and nothing else. -/
theorem expression_reads_chain {t : ParseTable} (ht : cTable.outcome = .ok t) (recover : Bool)
    (name : Name) (links : List Link) :
    ∃ m μ, Session.matchRule ⟨t, recover, (chars name links).toArray⟩ nestingLimit "_expression" 0 0 {} =
        .ok (some m) μ ∧
      m.start = 0 ∧ m.stop = (chars name links).length ∧ m.errors = 0 ∧
      m.items = [(tree 0 name links, [])] := by
  have hshipped : Shipped t := Or.inl ht
  have hlimit : 14 < nestingLimit := by decide
  obtain ⟨μ, hμ⟩ := matchRule_chain (s := ⟨t, recover, (chars name links).toArray⟩) (expressions_c ht)
    hshipped.built hshipped.skipsBlanks rfl hlimit
  refine ⟨reading 0 name links, μ, hμ, rfl, ?_, rfl, rfl⟩
  rw [← Nat.zero_add (chars name links).length]
  exact (tree_span 0 name links).2

/-- The links of a sum whose second operand is a product. -/
def sumLinks : List Link :=
  [⟨"+", 11, by decide, ⟨"b", by decide, by decide⟩⟩,
    ⟨"*", 12, by decide, ⟨"c", by decide, by decide⟩⟩]

/-- `a + b * c` is read as the sum of a name and a product. -/
theorem expression_reads_sum : ∃ t m μ, cTable.outcome = .ok t ∧
    Session.matchRule ⟨t, true, "a + b * c".toList.toArray⟩ nestingLimit "_expression" 0 0 {} =
      .ok (some m) μ ∧
    m.stop = 9 ∧ m.items = [(joined (.leaf "identifier" 0 1 true) "+"
      (joined (.leaf "identifier" 4 5 true) "*" (.leaf "identifier" 8 9 true)), [])] := by
  obtain ⟨m, μ, hm, _, hstop, _, hitems⟩ :=
    expression_reads_chain cTable_eq true ⟨"a", by decide, by decide⟩ sumLinks
  have hchars : chars ⟨"a", by decide, by decide⟩ sumLinks = "a + b * c".toList := by decide
  rw [hchars] at hm hstop
  refine ⟨_, m, μ, cTable_eq, hm, hstop, hitems.trans ?_⟩
  rw [sumLinks, tree_cons, tree_cons, tree_nil, tree_nil, tree_nil]
  · rfl
  · exact List.forall_mem_nil _
  · exact List.forall_mem_singleton.2 (by decide)

end Catalog

end LayeredGrammar
