import LayeredGrammar.Proofs.Engine.Answers
import LayeredGrammar.Proofs.Engine.Formed
import LayeredGrammar.Proofs.Engine.Moving
import LayeredGrammar.Proofs.Tiling

/-!
# The same text further to the right

A text is displaced if it stands further to the right in another one and scanning does not see the
difference (`Session.Displaced`): literals, tokens and extras are the same there, and the extras at
the beginning of the other text lead to where they lead at the beginning of the first.

Then the engine does the same for both texts, as far as memos are left aside: every answer is moved
(`Session.tablesMove_answerWithin`, an induction on how many rules are inside each other, over what the
engine does with moved answers), and so is the tree (`Session.parse_displaced`). The two runs go round
their loops equally often, although the longer text would allow them more rounds.
-/

namespace LayeredGrammar

namespace Engine.Tracks

variable {α β : Type} {link : Memo → Memo → Prop} {x : Engine α} {y : Engine β}
  {rel : α → β → Prop}

/-- What is known of the values of the first computation. -/
theorem knowing {post : α → Prop} (h : Tracks link x y rel)
    (hx : Coupled Session.anyhow x x post) : Tracks link x y fun a b => rel a b ∧ post a := by
  intro μ ν hlink a b μ' ν' ha hb
  obtain ⟨_, _, _, hpost⟩ := hx.of_ok (ν := μ) trivial ha
  obtain ⟨hlink', hrel⟩ := h μ ν hlink a b μ' ν' ha hb
  exact ⟨hlink', hrel, hpost⟩

end Engine.Tracks

namespace Session

open Engine (Tracks Coupled)

/-! ## Displaced texts -/

/-- A session with another text. -/
def reading (s : Session) (text : Array Char) : Session := { s with text := text }

@[simp] theorem reading_table (s : Session) (text : Array Char) :
    (s.reading text).table = s.table := rfl

@[simp] theorem reading_grammar (s : Session) (text : Array Char) :
    (s.reading text).grammar = s.grammar := rfl

@[simp] theorem reading_recover (s : Session) (text : Array Char) :
    (s.reading text).recover = s.recover := rfl

/-- Another text in which the text of a session stands `d` characters further to the right, without
scanning seeing the difference. -/
structure Displaced (s : Session) (text : Array Char) (d : Nat) : Prop where
  size : (s.reading text).size = s.size + d
  slice : ∀ start stop, (s.reading text).slice (start + d) (stop + d) = s.slice start stop
  skip : ∀ pos, (s.reading text).skip (pos + d) = s.skip pos + d
  skip_place : ∀ pos, (s.reading text).skip (place d pos) = s.skip pos + d
  literalAt : ∀ pos, (s.reading text).literalAt (pos + d) = s.literalAt pos
  matchAt : ∀ (t : Token) pos, t.matchAt text (pos + d) = (t.matchAt s.text pos).map (· + d)

variable {s : Session} {text : Array Char} {d : Nat}

namespace Displaced

/-! ## Scanning -/

theorem rawTokenEnd (h : s.Displaced text d) (pos : Nat) :
    (s.reading text).rawTokenEnd (pos + d) = s.rawTokenEnd pos + d := by
  have hfold : ∀ (tokens : NameTable Token) (stop : Nat),
      tokens.foldl (fun stop x => max stop ((x.2.matchAt text (pos + d)).getD (pos + d)))
        (stop + d) =
      tokens.foldl (fun stop x => max stop ((x.2.matchAt s.text pos).getD pos)) stop + d := by
    intro tokens
    induction tokens with
    | nil => exact fun _ => rfl
    | cons x tokens ih =>
      intro stop
      have hnext : max (stop + d) ((x.2.matchAt text (pos + d)).getD (pos + d)) =
          max stop ((x.2.matchAt s.text pos).getD pos) + d := by
        rw [h.matchAt]
        cases x.2.matchAt s.text pos with
        | none => exact Nat.add_max_add_right ..
        | some q => exact Nat.add_max_add_right ..
      rw [List.foldl_cons, List.foldl_cons, hnext, ih]
  unfold Session.rawTokenEnd
  rw [h.literalAt, Nat.add_right_comm pos d 1]
  cases s.literalAt pos with
  | none =>
    simp only
    rw [← Nat.add_max_add_right, ← hfold]
    rfl
  | some l =>
    simp only
    rw [← Nat.add_max_add_right, ← hfold, Nat.add_right_comm]
    rfl

theorem rawToken? (h : s.Displaced text d) (pos : Nat) :
    (s.reading text).rawToken? (pos + d) = s.rawToken? pos := by
  unfold Session.rawToken?
  rw [h.size, h.rawTokenEnd, h.slice]
  simp only [Nat.add_lt_add_iff_right]

theorem matchLiteral (h : s.Displaced text d) (hb : s.table.Built) (value : String) (pos : Nat) :
    (s.reading text).matchLiteral value (place d pos) =
      (s.matchLiteral value pos).map (Match.moved d) := by
  unfold Session.matchLiteral
  simp only [h.skip_place, h.literalAt]
  cases hl : s.literalAt (s.skip pos) with
  | none => rfl
  | some l =>
    have hlength := (slice_of_literalAt hb hl).2
    have hstop : 0 < s.skip pos + l.chars.length := by omega
    simp only
    split
    · simp [Match.moved, Item.moved, Node.moved_leaf hstop, place_of_pos hstop,
        placeStart_of_pos hstop, Nat.add_right_comm]
    · rfl

theorem matchToken (h : s.Displaced text d) (name : String) (t : Token) (pos : Nat) :
    (s.reading text).matchToken name t (place d pos) =
      (s.matchToken name t pos).map (Match.moved d) := by
  unfold Session.matchToken
  rw [h.skip_place, show (s.reading text).text = text from rfl]
  simp only [h.matchAt]
  cases t.matchAt s.text (s.skip pos) with
  | none => rfl
  | some stop =>
    simp only [Option.map_some, Nat.add_le_add_iff_right, reading_grammar, h.slice]
    by_cases hle : stop ≤ s.skip pos
    · simp only [hle, if_true, Option.map_none]
    · have hstop : 0 < stop := by omega
      simp only [hle, if_false]
      split
      · rfl
      · simp [Match.moved, Item.moved, Node.moved_leaf hstop, place_of_pos hstop,
          placeStart_of_pos hstop]

/-! ## Error regions -/

theorem regionPass (h : s.Displaced text d) (depth cursor : Nat) :
    (s.reading text).regionPass depth (cursor + d) =
      (s.regionPass depth cursor).map fun x => (x.1 + d, x.2) := by
  unfold Session.regionPass
  simp only [h.skip, h.rawToken?, h.rawTokenEnd]
  cases s.rawToken? (s.skip cursor) with
  | none => rfl
  | some token =>
    simp only [show (s.reading text).isStop token = s.isStop token from rfl]
    repeat' split
    all_goals rfl

theorem regionEnd (h : s.Displaced text d) : ∀ (n n' depth cursor : Nat), s.size - cursor < n →
    s.size - cursor < n' →
    (s.reading text).regionEnd n' depth (cursor + d) = s.regionEnd n depth cursor + d
  | 0, _, _, _, hn, _ => by omega
  | _, 0, _, _, _, hn' => by omega
  | n + 1, n' + 1, depth, cursor, hn, hn' => by
    unfold Session.regionEnd
    rw [h.regionPass]
    cases hpass : s.regionPass depth cursor with
    | none => rfl
    | some x =>
      obtain ⟨stop, next⟩ := x
      cases next with
      | none => rfl
      | some depth' =>
        have := regionPass_advances hpass
        exact h.regionEnd n n' depth' stop (by omega) (by omega)

theorem errorSpan (h : s.Displaced text d) (pos : Nat) :
    (s.reading text).errorSpan (place d pos) =
      (s.errorSpan pos).map fun x => (x.1 + d, x.2 + d) := by
  unfold Session.errorSpan
  simp only [h.skip_place, h.rawToken?]
  cases s.rawToken? (s.skip pos) with
  | none => rfl
  | some first =>
    simp only [show (s.reading text).isStop first = s.isStop first from rfl, h.size]
    split
    · rfl
    · rw [h.regionEnd (s.size + 1) (s.size + d + 1) 0 (s.skip pos) (by omega) (by omega)]
      rfl

end Displaced

/-! ## Nodes and the beginning of the text -/

/-- Nodes that tile a text end past its beginning. -/
theorem Tiles.stop_pos {pos stop : Nat} {ns : List Node} (h : s.Tiles pos ns stop) :
    Node.Throughout (0 < ·.stop) ns := by
  induction h with
  | nil => exact .nil
  | leaf hc _ hlt _ ih => exact Node.Throughout.cons_iff.2 ⟨by omega, hc ▸ .nil, ih⟩
  | branch hc _ hn _ ihn ih =>
    have hlast := hn.getLast_stop _ (List.getLast?_eq_some_getLast hc)
    have hpos : 0 < (_ : Node).stop := (ihn.of_mem (List.getLast_mem hc)).1
    exact Node.Throughout.cons_iff.2 ⟨hlast ▸ hpos, ihn, ih⟩

/-- Matches that tile a text end past its beginning if they have nodes. -/
theorem stop_pos_of_tiled {pos : Nat} {m : Match} (h : m.Tiled s pos) (hne : m.items ≠ []) :
    0 < m.stop := by
  have hne' : m.items.map (·.1) ≠ [] := fun hnil => hne (List.map_eq_nil_iff.1 hnil)
  rw [← h.tiles.getLast_stop _ (List.getLast?_eq_some_getLast hne')]
  exact (h.tiles.stop_pos.of_mem (List.getLast_mem hne')).1

/-! ## The engine -/

/-- Every two memos. -/
def anyMemos (_ _ : Memo) : Prop := True

/-- Two computations of which the second ends with the value of the first, moved. -/
def Moves (d : Nat) (x y : Engine (Option Match)) : Prop :=
  Tracks anyMemos x y fun found found' => found' = found.map (Match.moved d)

/-- Tables of answers that rules can give, of which the second holds those of the first, moved. -/
structure TablesMove (s : Session) (d : Nat) (answers answers' : MemoKey → Option Match) :
    Prop where
  yields : ∀ k, ∀ m ∈ answers k, s.Yields (.rule k) m
  moved : ∀ rule pos minPrec, answers' ⟨rule, place d pos, minPrec⟩ =
    (answers ⟨rule, pos, minPrec⟩).map (Match.moved d)

section Engine

variable {answers answers' : MemoKey → Option Match} {empties : List String} {rank : String → Nat}

theorem TablesMove.alike (ht : s.TablesMove d answers answers') (k : MemoKey) :
    s.Alike anyhow (tabled answers) (tabled answers) k :=
  tabled_alike rfl (ht.yields k)

theorem TablesMove.call (ht : s.TablesMove d answers answers') (rule : String) (pos : Nat)
    (minPrec : Int) :
    Moves d (tabled answers rule pos minPrec) (tabled answers' rule (place d pos) minPrec) :=
  Tracks.pure (ht.moved rule pos minPrec)

/-! ### Repetition -/

theorem repeatPass_moves (h : s.Displaced text d) (recovering : Bool) (expected : List Terminal)
    {f g : Nat → Engine (Option Match)} (hf : ∀ pos, Moves d (f pos) (g (place d pos)))
    {run : Run} (hr : run.Located) :
    Tracks anyMemos (s.repeatPass recovering expected f run)
      ((s.reading text).repeatPass recovering expected g (run.moved d))
      fun next next' => next' = next.map (Run.moved d) ∧ ∀ r ∈ next, r.Located := by
  unfold repeatPass
  refine Tracks.bind (hf run.cursor) ?_
  rintro found _ rfl
  have hfilter : (found.map (Match.moved d)).filter ((run.moved d).cursor < ·.stop) =
      (found.filter (run.cursor < ·.stop)).map (Match.moved d) := by
    cases found with
    | none => rfl
    | some m =>
      simp only [Option.map_some, Option.filter_some, Run.moved_cursor, Match.moved_stop,
        place_lt_place]
      split <;> rfl
  rw [hfilter]
  cases hm : found.filter (run.cursor < ·.stop) with
  | some m =>
    have hlt : run.cursor < m.stop := of_decide_eq_true (Option.filter_eq_some_iff.1 hm).2
    have hstop : 0 < m.stop := by omega
    refine Tracks.pure ⟨?_, ?_⟩
    · rw [Option.map_some, hr.moved_take hstop]
    · intro r hmem
      cases hmem
      exact .take hstop
  | none =>
    cases recovering with
    | false => exact Tracks.pure ⟨rfl, nofun⟩
    | true =>
      simp only [Option.map_none, if_true, Run.moved_cursor, h.errorSpan]
      cases hspan : s.errorSpan run.cursor with
      | none => exact Tracks.pure ⟨rfl, nofun⟩
      | some span =>
        obtain ⟨start, stop⟩ := span
        have hstop : 0 < stop := by
          have := (errorSpan_advances hspan).2.2.1
          omega
        refine Tracks.pure ⟨?_, ?_⟩
        · rw [Option.map_some, hr.moved_pushError hstop]
        · intro r hmem
          cases hmem
          exact .pushError hstop start expected

/-- Repetitions go round equally often in both places, whatever room they have for more rounds. -/
theorem repeatFrom_moves (h : s.Displaced text d) (ht : s.TablesMove d answers answers')
    (recovering : Bool) (owner : String) (content : Production)
    (hcontent : ∀ pos, Moves d (s.matchProduction (tabled answers) owner content pos)
      ((s.reading text).matchProduction (tabled answers') owner content (place d pos))) :
    ∀ (n n' count : Nat) {run : Run}, s.size - run.cursor < n → s.size - run.cursor < n' →
    run.Located →
    Tracks anyMemos
      (s.repeatFrom recovering (s.table.expectedFor content)
        (s.matchProduction (tabled answers) owner content) n count run)
      ((s.reading text).repeatFrom recovering (s.table.expectedFor content)
        ((s.reading text).matchProduction (tabled answers') owner content) n' count (run.moved d))
      fun r r' => r' = (r.1.moved d, r.2) ∧ r.1.Located
  | 0, _, _, _, hn, _, _ => by omega
  | _, 0, _, _, _, hn', _ => by omega
  | n + 1, n' + 1, count, run, hn, hn', hr => by
    simp only [repeatFrom]
    refine Tracks.bind ((repeatPass_moves h recovering _ hcontent hr).knowing
      (repeatPass_coupled 0 (fun pos hk => matchProduction_coupled owner content pos hk) count run
        fun k _ => ht.alike k)) ?_
    rintro next _ ⟨⟨rfl, hlocated⟩, hnext⟩
    cases next with
    | none => exact Tracks.pure ⟨rfl, hr⟩
    | some next =>
      obtain ⟨hlt, hle⟩ := (hnext next rfl).cursor_le
      exact repeatFrom_moves h ht recovering owner content hcontent n n' (count + 1) (by omega)
        (by omega) (hlocated next rfl)

/-! ### Productions -/

mutual

/-- Matching a production in two places. -/
theorem matchProduction_moves (h : s.Displaced text d) (hc : s.Certified empties rank)
    (ht : s.TablesMove d answers answers') (owner : String) : ∀ (p : Production) (pos : Nat),
    p.Solid empties → Moves d (s.matchProduction (tabled answers) owner p pos)
      ((s.reading text).matchProduction (tabled answers') owner p (place d pos))
  | .lit value, pos, _ => by
    simp only [matchProduction]
    exact Tracks.pure (h.matchLiteral hc.built value pos)
  | .ref name, pos, _ => by
    simp only [matchProduction, reading_grammar]
    split
    · rename_i t _
      exact Tracks.pure (h.matchToken name t pos)
    · exact ht.call name pos 0
  | .seq items, pos, hp => by
    simp only [matchProduction]
    rw [← Run.moved_begin]
    exact matchItems_moves h hc ht owner items hp.of_seq (.begin pos)
  | .choice members, pos, hp => by
    simp only [matchProduction, reading_grammar]
    refine Tracks.bind (matchMembers_moves h hc ht owner members 0 pos hp.of_choice) ?_
    rintro found _ rfl
    exact Tracks.pure (Candidate.best_moved _ _ _)
  | .rep content least recover, pos, hp => by
    have hcontent := fun pos => matchProduction_moves h hc ht owner content pos (hp.inside rfl)
    simp only [matchProduction, reading_recover, reading_table, h.size]
    rw [← Run.moved_begin]
    refine Tracks.bind (repeatFrom_moves h ht _ owner content hcontent _ _ 0 (by omega) (by omega)
      (.begin pos)) ?_
    rintro ⟨run, count⟩ _ ⟨rfl, hr⟩
    refine Tracks.pure ?_
    simp only
    split
    · rfl
    · rw [Option.map_some, hr.moved_toMatch]
  | .opt content, pos, hp => by
    simp only [matchProduction]
    refine Tracks.bind (matchProduction_moves h hc ht owner content pos (hp.inside rfl)) ?_
    rintro found _ rfl
    refine Tracks.pure ?_
    cases found with
    | none => rw [Option.map_some, Option.getD_none, Match.moved_empty]; rfl
    | some m => rfl
  | .blank, pos, _ => by
    simp only [matchProduction]
    exact Tracks.pure (by rw [Option.map_some, Match.moved_empty])
  | .field name content, pos, hp => by
    simp only [matchProduction]
    refine Tracks.bind (matchProduction_moves h hc ht owner content pos (hp.inside rfl)) ?_
    rintro found _ rfl
    refine Tracks.pure ?_
    cases found with
    | none => rfl
    | some m => simp only [Option.map_some, Match.moved_withFields]
  | .renamed content kind, pos, hp => by
    simp only [matchProduction]
    refine Tracks.bind (matchProduction_moves h hc ht owner content pos (hp.inside rfl)) ?_
    rintro found _ rfl
    refine Tracks.pure ?_
    cases found with
    | none => rfl
    | some m => simp only [Option.map_some, Match.moved_rename]
  | .prec _ content _ _, pos, hp => by
    simp only [matchProduction]
    exact matchProduction_moves h hc ht owner content pos (hp.inside rfl)

theorem matchItems_moves (h : s.Displaced text d) (hc : s.Certified empties rank)
    (ht : s.TablesMove d answers answers') (owner : String) : ∀ (ps : List Production) {run : Run},
    (∀ p ∈ ps, p.Solid empties) → run.Located →
    Moves d (s.matchItems (tabled answers) owner ps run)
      ((s.reading text).matchItems (tabled answers') owner ps (run.moved d))
  | [], run, _, hr => by
    simp only [matchItems]
    exact Tracks.pure (by rw [Option.map_some, hr.moved_toMatch])
  | p :: ps, run, hps, hr => by
    obtain ⟨hp, hps⟩ := List.forall_mem_cons.1 hps
    simp only [matchItems, Run.moved_cursor]
    refine Tracks.bind ((matchProduction_moves h hc ht owner p run.cursor hp).knowing
      (matchProduction_coupled owner p run.cursor fun k _ => ht.alike k)) ?_
    rintro found _ ⟨rfl, hfound⟩
    cases found with
    | none => exact Tracks.pure rfl
    | some m =>
      have hm := stop_pos_of_tiled
        ((hfound m rfl).tiled hc.built hc.ranked hc.shaped hc.skip hp)
      simp only [Option.map_some, ← hr.moved_push hm]
      exact matchItems_moves h hc ht owner ps hps (hr.push hm)

theorem matchMembers_moves (h : s.Displaced text d) (hc : s.Certified empties rank)
    (ht : s.TablesMove d answers answers') (owner : String) :
    ∀ (ps : List Production) (index pos : Nat), (∀ p ∈ ps, p.Solid empties) →
    Tracks anyMemos (s.matchMembers (tabled answers) owner ps index pos)
      ((s.reading text).matchMembers (tabled answers') owner ps index (place d pos))
      fun found found' => found' = found.map (Candidate.moved d)
  | [], _, _, _ => by
    simp only [matchMembers]
    exact Tracks.pure rfl
  | p :: ps, index, pos, hps => by
    obtain ⟨hp, hps⟩ := List.forall_mem_cons.1 hps
    simp only [matchMembers]
    refine Tracks.bind (matchProduction_moves h hc ht owner p pos hp) ?_
    rintro found _ rfl
    refine Tracks.bind (matchMembers_moves h hc ht owner ps (index + 1) pos hps) ?_
    rintro others _ rfl
    refine Tracks.pure ?_
    cases found <;> rfl

end

/-! ### Alternatives -/

theorem matchElement_moves (h : s.Displaced text d) (hc : s.Certified empties rank)
    (ht : s.TablesMove d answers answers') (rule : String) (minPrec : Int) (e : Element) (pos : Nat)
    (he : e.body.Solid empties) : Moves d (s.matchElement (tabled answers) rule minPrec e pos)
      ((s.reading text).matchElement (tabled answers') rule minPrec e (place d pos)) := by
  unfold matchElement
  split
  · refine Tracks.bind (ht.call rule pos minPrec) ?_
    rintro found _ rfl
    refine Tracks.pure ?_
    cases found with
    | none => rfl
    | some m => simp only [Option.map_some, Match.moved_withFields]
  · exact matchProduction_moves h hc ht rule e.body pos he

theorem matchElements_moves (h : s.Displaced text d) (hc : s.Certified empties rank)
    (ht : s.TablesMove d answers answers') (rule : String) (rightMin : Int) :
    ∀ (es : List Element) {run : Run}, (∀ e ∈ es, e.selfFields = e.body.selfFields? rule) →
    (∀ e ∈ es, e.body.Solid empties) → run.Located →
    Moves d (s.matchElements (tabled answers) rule rightMin es run)
      ((s.reading text).matchElements (tabled answers') rule rightMin es (run.moved d))
  | [], run, _, _, hr => by
    simp only [matchElements]
    exact Tracks.pure (by rw [Option.map_some, hr.moved_toMatch])
  | e :: es, run, hknows, hsolid, hr => by
    obtain ⟨hk, hknows⟩ := List.forall_mem_cons.1 hknows
    obtain ⟨he, hsolid⟩ := List.forall_mem_cons.1 hsolid
    simp only [matchElements, Run.moved_cursor]
    refine Tracks.bind ((matchElement_moves h hc ht rule _ e run.cursor he).knowing
      (matchElement_coupled rule _ e run.cursor fun k _ => ht.alike k)) ?_
    rintro found _ ⟨rfl, hfound⟩
    cases found with
    | none => exact Tracks.pure rfl
    | some m =>
      have hm := stop_pos_of_tiled
        ((hfound m rfl).tiled hc.built hc.ranked hc.shaped hc.skip hk he)
      simp only [Option.map_some, ← hr.moved_push hm]
      exact matchElements_moves h hc ht rule rightMin es hknows hsolid (hr.push hm)

theorem growOnce_moves (h : s.Displaced text d) (hc : s.Certified empties rank)
    (ht : s.TablesMove d answers answers') (rule : String) (minPrec : Int) {left : Match} :
    ∀ alts : List Alternative, (∀ a ∈ alts, s.table.Offers rule a ∧ 0 < left.stop) →
    Moves d (s.growOnce (tabled answers) rule minPrec left alts)
      ((s.reading text).growOnce (tabled answers') rule minPrec (left.moved d) alts)
  | [], _ => by
    simp only [growOnce]
    exact Tracks.pure rfl
  | a :: alts, ha => by
    obtain ⟨⟨hoffers, hleft⟩, halts⟩ := List.forall_mem_cons.1 ha
    have hrest := growOnce_moves h hc ht rule minPrec alts halts
    simp only [growOnce]
    split
    · exact hrest
    · rw [Match.moved_stop, ← Run.moved_begin]
      refine Tracks.bind (matchElements_moves h hc ht rule a.rightMin (a.elements.drop 1)
        (fun e he => hoffers.knows e (List.mem_of_mem_drop he))
        (fun e he => solid_elements hc.shaped hoffers e (List.mem_of_mem_drop he))
        (.begin left.stop)) ?_
      rintro found _ rfl
      cases found with
      | none => exact hrest
      | some m =>
        simp only [Option.map_some, Match.moved_stop, place_lt_place]
        split
        · exact Tracks.pure (by rw [Option.map_some, moved_extended a hleft (by omega)])
        · exact hrest

theorem growPass_moves (h : s.Displaced text d) (hc : s.Certified empties rank)
    (ht : s.TablesMove d answers answers') {rule : String} (minPrec : Int) {alts : RuleAlternatives}
    (hget : s.table.rules.get? rule = some alts) {left : Match} {pos : Nat}
    (hbegun : left.Begun s empties rule pos) :
    Moves d (s.growPass (tabled answers) rule minPrec alts left)
      ((s.reading text).growPass (tabled answers') rule minPrec alts (left.moved d)) := by
  -- a rule that may be empty does not grow, so what grows has taken in text
  have hgrowing : ∀ a, a ∈ alts.postfixed ∨ a ∈ alts.leftRec →
      s.table.Offers rule a ∧ 0 < left.stop := by
    intro a ha
    obtain ⟨hoffers, hself⟩ := hc.built.offers_growing hget ha
    have := hbegun.lt (hc.ranked.not_empty_of_growing hoffers hself)
    exact ⟨hoffers, by omega⟩
  unfold growPass
  refine Tracks.bind (growOnce_moves h hc ht rule minPrec alts.postfixed
    fun a ha => hgrowing a (Or.inl ha)) ?_
  rintro found _ rfl
  cases found with
  | none => exact growOnce_moves h hc ht rule minPrec alts.leftRec fun a ha => hgrowing a (Or.inr ha)
  | some m => exact Tracks.pure rfl

/-- Matches grow equally often in both places, whatever room they have for more. -/
theorem grow_moves (h : s.Displaced text d) (hc : s.Certified empties rank)
    (ht : s.TablesMove d answers answers') {rule : String} (minPrec : Int) {alts : RuleAlternatives}
    (hget : s.table.rules.get? rule = some alts) (pos : Nat) : ∀ (n n' : Nat) {left : Match},
    s.size - left.stop < n → s.size - left.stop < n' → left.Begun s empties rule pos →
    Tracks anyMemos (s.grow (tabled answers) rule minPrec alts n left)
      ((s.reading text).grow (tabled answers') rule minPrec alts n' (left.moved d))
      fun m m' => m' = m.moved d
  | 0, _, _, hn, _, _ => by omega
  | _, 0, _, _, hn', _ => by omega
  | n + 1, n' + 1, left, hn, hn', hbegun => by
    simp only [grow]
    refine Tracks.bind ((growPass_moves h hc ht minPrec hget hbegun).knowing
      (growPass_coupled hget left fun k _ => ht.alike k)) ?_
    rintro found _ ⟨rfl, hfound⟩
    cases found with
    | none => exact Tracks.pure rfl
    | some m =>
      have hnext := hfound m rfl
      obtain ⟨hlt, hle⟩ := hnext.stop_le
      obtain ⟨alts', a, right, hget', ha, _, hright, hstop, rfl⟩ := hnext
      exact grow_moves h hc ht minPrec hget pos n n' (by omega) (by omega)
        (hbegun.extended hc.built hc.ranked hget' ha hright hstop).2.2

/-! ### Rules -/

theorem seeds_moves (h : s.Displaced text d) (hc : s.Certified empties rank)
    (ht : s.TablesMove d answers answers') (rule : String) (pos : Nat) : ∀ alts : List Alternative,
    (∀ a ∈ alts, s.table.Offers rule a) →
    Tracks anyMemos (s.seeds (tabled answers) rule pos alts)
      ((s.reading text).seeds (tabled answers') rule (place d pos) alts)
      fun found found' => found' = found.map (Candidate.moved d)
  | [], _ => by
    simp only [seeds]
    exact Tracks.pure rfl
  | a :: alts, ha => by
    obtain ⟨hoffers, halts⟩ := List.forall_mem_cons.1 ha
    simp only [seeds]
    rw [← Run.moved_begin]
    refine Tracks.bind (matchElements_moves h hc ht rule a.rightMin a.elements hoffers.knows
      (solid_elements hc.shaped hoffers) (.begin pos)) ?_
    rintro found _ rfl
    refine Tracks.bind (seeds_moves h hc ht rule pos alts halts) ?_
    rintro others _ rfl
    refine Tracks.pure ?_
    cases found with
    | none => rfl
    | some m => simp only [Option.map_some, List.map_cons, Candidate.moved, moved_dress]

theorem matchAlternatives_moves (h : s.Displaced text d) (hc : s.Certified empties rank)
    (ht : s.TablesMove d answers answers') {rule : String} {alts : RuleAlternatives}
    (hget : s.table.rules.get? rule = some alts) (pos : Nat) (minPrec : Int) :
    Moves d (s.matchAlternatives (tabled answers) rule alts pos minPrec)
      ((s.reading text).matchAlternatives (tabled answers') rule alts (place d pos) minPrec) := by
  have hoffers : ∀ a ∈ alts.prefixed ++ alts.plain, s.table.Offers rule a := fun a ha =>
    (hc.built.offers_seed hget (List.mem_append.1 ha)).1
  unfold matchAlternatives
  refine Tracks.bind ((seeds_moves h hc ht rule pos _ hoffers).knowing
    (seeds_coupled rule pos _ fun _ _ k _ => ht.alike k)) ?_
  rintro found _ ⟨rfl, hfound⟩
  rw [reading_grammar, Candidate.best_moved]
  cases hbest : Candidate.best s.grammar.conflicts rule found with
  | none => exact Tracks.pure rfl
  | some left =>
    obtain ⟨x, hx, rfl⟩ := Candidate.exists_of_best hbest
    obtain ⟨a, ha, seed, hseed, hx⟩ := hfound x hx
    have hbegun := begun_seed hc.built hc.ranked (hoffers a ha) hseed
    rw [← hx] at hbegun
    simp only [Option.map_some, h.size]
    refine Tracks.bind (grow_moves h hc ht minPrec hget pos _ _ (by omega) (by omega) hbegun) ?_
    rintro grown _ rfl
    exact Tracks.pure rfl

/-- **Answers move with the text**, if the answers that they are made of do. -/
theorem answer_moves (h : s.Displaced text d) (hc : s.Certified empties rank)
    (ht : s.TablesMove d answers answers') (rule : String) (pos : Nat) (minPrec : Int) :
    Moves d (s.answer (tabled answers) ⟨rule, pos, minPrec⟩)
      ((s.reading text).answer (tabled answers') ⟨rule, place d pos, minPrec⟩) := by
  unfold answer
  rw [reading_table]
  cases hget : s.table.rules.get? rule with
  | none => exact Tracks.pure rfl
  | some alts =>
    refine Tracks.bind (matchAlternatives_moves h hc ht hget pos minPrec) ?_
    rintro found _ rfl
    refine Tracks.pure ?_
    cases found with
    | none => rfl
    | some m => simp only [Option.map_some, Match.moved_finish]

/-! ### Whole texts -/

/-- What was read, and up to where, moves with what the start rule leaves. -/
theorem readOn_moved (start : String) (items : List Item) (pos : Nat) (found : Option Match) :
    readOn start (items.map (Item.moved d)) (place d pos) (found.map (Match.moved d)) =
      ((readOn start items pos found).1.map (Item.moved d),
        place d (readOn start items pos found).2) := by
  cases found with
  | none => rfl
  | some m =>
    simp only [Option.map_some, readOn, rootItems_moved, Match.moved_stop, place_max,
      List.map_append, List.map_reverse]

theorem parsePass_moves (h : s.Displaced text d) (ht : s.TablesMove d answers answers') (pos : Nat)
    (items : List Item) : Tracks anyMemos (s.parsePass (tabled answers) pos items)
      ((s.reading text).parsePass (tabled answers') (place d pos) (items.map (Item.moved d)))
      fun x y => y = (x.1.map (Item.moved d), x.2.map (place d)) := by
  unfold parsePass
  rw [reading_grammar, reading_recover, reading_table]
  refine Tracks.bind (ht.call s.grammar.start pos 0) ?_
  rintro found _ rfl
  simp only [readOn_moved, h.skip_place, h.size, h.rawTokenEnd, Nat.add_le_add_iff_right]
  split
  · exact Tracks.pure rfl
  · have herror : ∀ {stop : Nat}, 0 < stop → ∀ start,
        Item.moved d (Node.error start stop s.table.rootExpected, []) =
          (Node.error (start + d) (stop + d) s.table.rootExpected, []) := by
      intro stop hstop start
      rw [Item.moved, Node.moved_error hstop]
    split
    · have hstop := Nat.zero_lt_of_lt
        (lt_rawTokenEnd s (s.skip (readOn s.grammar.start items pos found).2))
      refine Tracks.pure ?_
      rw [Option.map_some, List.map_cons, herror hstop, place_of_pos hstop]
    · refine Tracks.pure ?_
      rw [Option.map_none, List.map_cons, herror (by omega)]

theorem parseFrom_moves (h : s.Displaced text d) (ht : s.TablesMove d answers answers') :
    ∀ (n n' pos : Nat) (items : List Item), s.size - pos < n → s.size - pos < n' →
    Tracks anyMemos (s.parseFrom (tabled answers) n pos items)
      ((s.reading text).parseFrom (tabled answers') n' (place d pos) (items.map (Item.moved d)))
      fun read read' => read' = read.map (Item.moved d)
  | 0, _, _, _, hn, _ => by omega
  | _, 0, _, _, _, hn' => by omega
  | n + 1, n' + 1, pos, items, hn, hn' => by
    simp only [parseFrom]
    refine Tracks.bind ((parsePass_moves h ht pos items).knowing
      (parsePass_coupled (ht.alike _) items)) ?_
    rintro ⟨read, next⟩ _ ⟨rfl, _, hgo⟩
    cases next with
    | none => exact Tracks.pure rfl
    | some next =>
      obtain ⟨hlt, hle, _⟩ := hgo next rfl
      exact parseFrom_moves h ht n n' next read (by omega) (by omega)

/-- Trees that are made of answers that move with the text. -/
theorem parseBy_moves (h : s.Displaced text d) (ht : s.TablesMove d answers answers') :
    Tracks anyMemos (s.parseBy (tabled answers)) ((s.reading text).parseBy (tabled answers'))
      fun root root' => root' =
        { root with stop := root.stop + d, children := root.children.map (Node.moved d) } := by
  unfold parseBy
  rw [reading_grammar, h.size]
  refine Tracks.bind (parseFrom_moves h ht _ _ 0 [] (by omega) (by omega)) ?_
  rintro read _ rfl
  refine Tracks.pure ?_
  simp only [← List.map_reverse, Node.ofItems, List.zipIdx_map, List.flatMap_map, List.map_map]
  rfl

end Engine

/-! ## Answers -/

variable {empties : List String} {rank : String → Nat} {height height' : MemoKey → Nat}

/-- Answers with limited room for rules inside each other move with the text. -/
theorem tablesMove_answerWithin (h : s.Displaced text d) (hc : s.Certified empties rank) :
    ∀ n, s.TablesMove d (s.answerWithin n) ((s.reading text).answerWithin n)
  | 0 => ⟨nofun, fun _ _ _ => rfl⟩
  | n + 1 => by
    refine ⟨yields_answerWithin (n + 1), fun rule pos minPrec => ?_⟩
    obtain ⟨_, _, μ, hμ⟩ := matchOf_of_coupled (answer_coupled fun k (_ : s.Asks _ k) =>
      tabled_alike rfl (yields_answerWithin n k)) {} {}
    obtain ⟨_, _, μ', hμ'⟩ := matchOf_of_coupled (answer_coupled fun k
      (_ : (s.reading text).Asks _ k) => tabled_alike rfl (yields_answerWithin n k)) {} {}
    have hmoves := answer_moves h hc (tablesMove_answerWithin h hc n) rule pos minPrec
    exact (hmoves {} {} trivial _ _ μ μ' hμ hμ').2

/-- Answers move with the text. -/
theorem tablesMove_truth (h : s.Displaced text d) (hc : s.Certified empties rank)
    (hfall : s.Falling height) (hfall' : (s.reading text).Falling height') :
    s.TablesMove d (s.truth height) ((s.reading text).truth height') := by
  refine ⟨yields_truth, fun rule pos minPrec => ?_⟩
  have hmoved := (tablesMove_answerWithin h hc
    (max (height ⟨rule, pos, minPrec⟩) (height' ⟨rule, place d pos, minPrec⟩) + 1)).moved
      rule pos minPrec
  unfold truth
  rw [answerWithin_settled hfall _ _ ⟨rule, pos, minPrec⟩ (Nat.lt_succ_self _)
      (Nat.lt_succ_of_le (Nat.le_max_left ..)),
    answerWithin_settled hfall' _ _ ⟨rule, place d pos, minPrec⟩ (Nat.lt_succ_self _)
      (Nat.lt_succ_of_le (Nat.le_max_right ..)), hmoved]

/-- **Trees move with the text**: everything below the root lies further to the right. -/
theorem parse_displaced (h : s.Displaced text d) (hc : s.Certified empties rank)
    (hfall : s.Falling height) (hfall' : (s.reading text).Falling height') {limit limit' : Nat}
    {root root' : Node} {μ μ' : Memo} (hroot : s.parse limit {} = .ok root μ)
    (hroot' : (s.reading text).parse limit' {} = .ok root' μ') :
    root' = { root with stop := root.stop + d, children := root.children.map (Node.shift d) } := by
  obtain ⟨ν, hν⟩ := parse_faithful hfall hroot
  obtain ⟨ν', hν'⟩ := parse_faithful hfall' hroot'
  obtain ⟨_, hmoved⟩ :=
    parseBy_moves h (tablesMove_truth h hc hfall hfall') {} {} trivial root root' ν ν' hν hν'
  obtain ⟨stop, htiles, _⟩ := parse_tiles hc hroot
  rw [hmoved, Node.moved_eq_shift htiles.stop_pos]

end Session

end LayeredGrammar
