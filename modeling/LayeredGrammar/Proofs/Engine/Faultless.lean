import LayeredGrammar.Proofs.Termination
import LayeredGrammar.Proofs.Scanning
import LayeredGrammar.Proofs.Engine.Checked

/-!
# No lookup of the engine fails

In a session of a grammar that builds every step of the checked engine is the step of the plain
engine: inside the text there is a character and so a raw token, literals have a last character,
choices between alternatives that match have a best one, tokens and rules that are referred to exist
(`Session.Closed`), and the rules that a rule asks for are rules again (`Session.Checked.Sure`).

* `CheckedEngine.faultless` — a plain step as a checked one. Each equation says that a step of the
  checked engine is faultless, from the equations of the steps inside it.
* `Session.Checked.sure_matchRule` — the circle of rules, by induction on the limit.
* `ParseTable.parseChecked_eq` — a parse of a whole text.
-/

namespace LayeredGrammar

/-! ## Faultless steps -/

namespace CheckedEngine

variable {α β : Type}

/-- A plain step as a checked one that reports no fault. -/
def faultless (x : Engine α) : CheckedEngine α := fun μ =>
  match x μ with
  | .ok a μ' => .ok a μ'
  | .error _ μ' => .error .limit μ'

theorem faultless_pure (a : α) : faultless (pure a : Engine α) = pure a := rfl

theorem faultless_bind (x : Engine α) (f : α → Engine β) :
    faultless (x >>= f) = faultless x >>= fun a => faultless (f a) := by
  funext μ
  simp only [faultless, bind, EStateM.bind]
  cases x μ <;> rfl

theorem lookup_ok (a : α) : lookup (.ok a : Except Fault α) = pure a := rfl

theorem faultless_remembered (key : MemoKey) (compute : Engine (Option Match)) :
    faultless (Engine.remembered key compute) = remembered key (faultless compute) := by
  have hget : ∀ (f : Memo → CheckedEngine (Option Match)) (μ : Memo), (get >>= f) μ = f μ μ :=
    fun _ _ => rfl
  funext μ
  unfold faultless remembered
  rw [Engine.remembered_apply, hget]
  cases μ[key]? with
  | none => rfl
  | some entry => cases entry <;> rfl

theorem faultless_record (key : MemoKey) (entry : MemoEntry) :
    faultless (Engine.record key entry) = record key entry := rfl

end CheckedEngine

/-! ## Choices -/

namespace Candidate

/-- Of several candidates, one is outdone by none. -/
theorem exists_leader : ∀ (c : Candidate) (cs : List Candidate),
    ∃ best ∈ c :: cs, ∀ x ∈ c :: cs, x.outdoes best = false
  | c, [] => ⟨c, List.mem_cons_self, by simp [outdoes]⟩
  | c, d :: cs => by
    obtain ⟨best, hbest, hleads⟩ := exists_leader d cs
    by_cases hc : c.outdoes best = true
    · refine ⟨c, List.mem_cons_self, List.forall_mem_cons.2 ⟨by simp [outdoes], fun x hx => ?_⟩⟩
      have hx := hleads x hx
      simp only [outdoes, Bool.or_eq_true, Bool.or_eq_false_iff, decide_eq_true_eq,
        decide_eq_false_iff_not, Bool.and_eq_true, Bool.and_eq_false_imp, beq_iff_eq] at hc hx ⊢
      omega
    · exact ⟨best, List.mem_cons_of_mem _ hbest,
        List.forall_mem_cons.2 ⟨by simpa using hc, hleads⟩⟩

theorem leaders_ne_nil (c : Candidate) (cs : List Candidate) : leaders (c :: cs) ≠ [] := by
  obtain ⟨best, hbest, hleads⟩ := exists_leader c cs
  refine List.ne_nil_of_mem (List.mem_filter.2 ⟨hbest, ?_⟩)
  rw [Bool.not_eq_true', List.any_eq_false]
  exact fun x hx => by simp [hleads x hx]

theorem preferring_ne_nil {test : Candidate → Bool} {cs : List Candidate} (h : cs ≠ []) :
    preferring test cs ≠ [] := by
  unfold preferring
  simp only
  split
  · exact h
  · rename_i hkept
    exact fun hnil => hkept (by rw [hnil]; rfl)

/-- A choice between alternatives that match has a winner: a preferred label is that of one of the
candidates. -/
theorem isSome_best (registry : ConflictRegistry) (owner : String) (c : Candidate)
    (cs : List Candidate) : (best registry owner (c :: cs)).isSome = true := by
  have hdecided : ∀ favoured, favoured ≠ [] → ((earliest? (preferring (!·.found.layered)
      (preferring (·.found.lead) favoured))).map (·.found)).isSome = true := by
    intro favoured hfavoured
    cases hbase : preferring (!·.found.layered) (preferring (·.found.lead) favoured) with
    | nil => exact absurd hbase (preferring_ne_nil (preferring_ne_nil hfavoured))
    | cons d ds => rfl
  refine hdecided _ ?_
  split
  · rename_i label hlabel
    obtain ⟨entry, _, hdecides⟩ := List.exists_of_findSome?_eq_some hlabel
    have hpresent : some label ∈ (leaders (c :: cs)).map (·.label) := by
      unfold ConflictRegistry.decides at hdecides
      split at hdecides
      · cases hdecides
      · split at hdecides
        · rename_i hcond
          cases hdecides
          rw [Bool.and_eq_true, List.contains_iff_mem] at hcond
          obtain ⟨l, hl, heq⟩ := List.mem_filterMap.1 (List.mem_filter.1 hcond.1).1
          exact heq ▸ hl
        · cases hdecides
    obtain ⟨x, hx, heq⟩ := List.mem_map.1 hpresent
    exact List.ne_nil_of_mem (List.mem_filter.2 ⟨hx, by simp [heq]⟩)
  · exact leaders_ne_nil c cs

/-- No choice runs out of candidates. -/
theorem bestChecked_eq (registry : ConflictRegistry) (owner : String) (cs : List Candidate) :
    bestChecked registry owner cs = .ok (best registry owner cs) := by
  cases cs with
  | nil => rw [best_nil]; rfl
  | cons c cs =>
    obtain ⟨m, hm⟩ := Option.isSome_iff_exists.1 (isSome_best registry owner c cs)
    simp only [bestChecked, hm]

end Candidate

/-! ## Scanning -/

namespace Session

open CheckedEngine

variable {s : Session}

/-- The literals of a grammar that builds have a last character, and know whether it is one of a
word. -/
theorem literal_of_mem (hb : s.table.Built) {l : Literal} (h : l ∈ s.table.literals) :
    ∃ last, l.chars.getLast? = some last ∧ l.wordLike = Text.isWordChar last := by
  rw [hb.table] at h
  obtain ⟨text, htext, rfl⟩ := List.mem_map.1 (mem_sortBy.1 h)
  have hne : text.toList ≠ [] := by
    intro hnil
    rw [String.toList_eq_nil_iff] at hnil
    exact hb.literals (hnil ▸ htext)
  refine ⟨text.toList.getLast hne, List.getLast?_eq_some_getLast hne, ?_⟩
  show text.toList.getLast?.any Text.isWordChar = _
  rw [List.getLast?_eq_some_getLast hne]
  rfl

namespace Checked

/-- Literals that do not start with the character at a position do not stand there, so they may be
left out. -/
theorem firstFitting_eq {pos : Nat} {c : Char} (hc : s.text[pos]? = some c) :
    ∀ {ls : List Literal},
    (∀ l ∈ ls, ∃ last, l.chars.getLast? = some last ∧ l.wordLike = Text.isWordChar last) →
    firstFitting s pos (ls.filter (·.chars.head? == some c)) = .ok (ls.find? (s.fits pos))
  | [], _ => rfl
  | l :: ls, h => by
    obtain ⟨⟨last, hlast, hword⟩, hls⟩ := List.forall_mem_cons.1 h
    have ih := firstFitting_eq hc hls
    by_cases hat : hasAt s.text pos l.chars = true
    · have hhead : (l.chars.head? == some c) = true := by
        cases hchars : l.chars with
        | nil => rw [hchars] at hlast; cases hlast
        | cons d ds =>
          rw [hchars] at hat
          simp only [hasAt, Bool.and_eq_true, beq_iff_eq, hc] at hat
          simp [hat.1]
      rw [List.filter_cons, if_pos hhead, firstFitting, if_pos hat]
      simp only [hlast, List.find?_cons, fits, hat, hword, Bool.true_and, Regex.wordAt]
      by_cases hstop : pos + l.chars.length < s.size
      · rw [Array.getElem?_eq_getElem hstop]
        cases hw : Text.isWordChar last with
        | false => simp
        | true =>
          simp only [hstop, decide_true, Bool.and_self, if_true, Bool.true_and]
          cases hw' : Text.isWordChar s.text[pos + l.chars.length] with
          | false => simp
          | true => simpa using ih
      · rw [Array.getElem?_eq_none (Nat.le_of_not_lt hstop)]
        simp [hstop]
    · have hfits : s.fits pos l = false := by
        unfold fits
        rw [Bool.not_eq_true] at hat
        rw [hat, Bool.false_and]
      rw [List.find?_cons, hfits]
      by_cases hhead : (l.chars.head? == some c) = true
      · rw [List.filter_cons, if_pos hhead, firstFitting, if_neg hat, ih]
      · rw [List.filter_cons, if_neg hhead, ih]

theorem literalAt_eq (hb : s.table.Built) (pos : Nat) : literalAt s pos = .ok (s.literalAt pos) := by
  unfold literalAt Session.literalAt
  split
  · rfl
  · rename_i hlt
    have hlt : pos < s.text.size := Nat.lt_of_not_le hlt
    rw [Array.getElem?_eq_getElem hlt]
    exact firstFitting_eq (Array.getElem?_eq_getElem hlt) fun l hl => literal_of_mem hb hl

/-- Inside the text there is always a raw token. -/
theorem rawTokenEnd_eq (hb : s.table.Built) {pos : Nat} (hpos : pos < s.size) :
    rawTokenEnd s pos = .ok (s.rawTokenEnd pos) := by
  have hend : ∀ longest : Nat, (if pos < longest then .ok longest else .ok (pos + 1)) =
      (.ok (max longest (pos + 1)) : Except Fault Nat) := by
    intro longest
    split
    · rename_i hlt
      rw [Nat.max_eq_left hlt]
    · rw [Nat.max_eq_right (by omega)]
  unfold rawTokenEnd Session.rawTokenEnd
  rw [literalAt_eq hb, Array.getElem?_eq_getElem hpos]
  exact hend _

theorem matchLiteral_eq (hb : s.table.Built) (value : String) (pos : Nat) :
    matchLiteral s value pos = .ok (s.matchLiteral value pos) := by
  unfold matchLiteral Session.matchLiteral
  simp only [literalAt_eq hb, bind, Except.bind]
  cases s.literalAt (s.skip pos) with
  | none => rfl
  | some l =>
    simp only
    split <;> rfl

theorem regionPass_eq (hb : s.table.Built) (depth cursor : Nat) :
    regionPass s depth cursor = .ok (s.regionPass depth cursor) := by
  unfold regionPass Session.regionPass rawToken?
  simp only
  by_cases hlt : s.skip cursor < s.size
  · rw [if_neg (Nat.not_le.2 hlt), if_pos hlt, rawTokenEnd_eq hb hlt]
    simp only [bind, Except.bind]
    repeat' split
    all_goals rfl
  · rw [if_pos (Nat.le_of_not_lt hlt), if_neg hlt]

theorem regionEnd_eq (hb : s.table.Built) : ∀ n depth cursor : Nat,
    regionEnd s n depth cursor = .ok (s.regionEnd n depth cursor)
  | 0, _, _ => rfl
  | n + 1, depth, cursor => by
    unfold regionEnd Session.regionEnd
    rw [regionPass_eq hb]
    simp only [bind, Except.bind]
    cases s.regionPass depth cursor with
    | none => rfl
    | some x =>
      obtain ⟨stop, next⟩ := x
      cases next with
      | none => rfl
      | some depth' => exact regionEnd_eq hb n depth' stop

theorem errorSpan_eq (hb : s.table.Built) (pos : Nat) :
    errorSpan s pos = .ok (s.errorSpan pos) := by
  unfold errorSpan Session.errorSpan rawToken?
  simp only
  by_cases hlt : s.skip pos < s.size
  · rw [if_neg (Nat.not_le.2 hlt), if_pos hlt, rawTokenEnd_eq hb hlt]
    simp only [bind, Except.bind, regionEnd_eq hb]
    split <;> rfl
  · rw [if_pos (Nat.le_of_not_lt hlt), if_neg hlt]

/-! ## Productions -/

variable {call : RuleMatcher} {call' : CheckedMatcher}

/-- A checked way of asking for rules that finds no fault in the rules of the table. -/
def Sure (s : Session) (call : RuleMatcher) (call' : CheckedMatcher) : Prop :=
  ∀ rule ∈ s.table.rules.names, ∀ pos minPrec, call' rule pos minPrec =
    faultless (call rule pos minPrec)

theorem repeatPass_eq (hb : s.table.Built) {f : Nat → Engine (Option Match)}
    {f' : Nat → CheckedEngine (Option Match)} (hf : ∀ pos, f' pos = faultless (f pos))
    (recovering : Bool) (expected : List Terminal) (run : Run) :
    repeatPass s recovering expected f' run =
      faultless (s.repeatPass recovering expected f run) := by
  unfold repeatPass Session.repeatPass
  rw [faultless_bind, hf]
  congr 1
  funext found
  cases found.filter (run.cursor < ·.stop) with
  | some m => rfl
  | none =>
    cases recovering with
    | false => rfl
    | true =>
      simp only [if_true, errorSpan_eq hb, lookup_ok, pure_bind]
      cases s.errorSpan run.cursor <;> rfl

theorem repeatFrom_eq (hb : s.table.Built) {f : Nat → Engine (Option Match)}
    {f' : Nat → CheckedEngine (Option Match)} (hf : ∀ pos, f' pos = faultless (f pos))
    (recovering : Bool) (expected : List Terminal) : ∀ (n count : Nat) (run : Run),
    repeatFrom s recovering expected f' n count run =
      faultless (s.repeatFrom recovering expected f n count run)
  | 0, _, _ => rfl
  | n + 1, count, run => by
    unfold repeatFrom Session.repeatFrom
    rw [faultless_bind, repeatPass_eq hb hf]
    congr 1
    funext next
    cases next with
    | none => rfl
    | some next => exact repeatFrom_eq hb hf recovering expected n (count + 1) next

/-- A token that the grammar has is matched without a fault. -/
theorem matchToken_eq {name : String} {t : Token} (h : s.grammar.tokens.get? name = some t)
    (pos : Nat) : matchToken s name pos = .ok (s.matchToken name t pos) := by
  unfold matchToken
  rw [h]

mutual

theorem matchProduction_eq (hb : s.table.Built) (hsure : Sure s call call') (owner : String) :
    ∀ (p : Production) (pos : Nat), s.Closed p →
    matchProduction s call' owner p pos = faultless (s.matchProduction call owner p pos)
  | .lit value, pos, _ => by
    unfold matchProduction Session.matchProduction
    rw [matchLiteral_eq hb]
    rfl
  | .ref name, pos, h => by
    unfold matchProduction Session.matchProduction
    cases ht : s.grammar.tokens.get? name with
    | some t =>
      rw [if_pos (NameTable.has_iff.2 (NameTable.mem_names_of_get? ht)), matchToken_eq ht]
      rfl
    | none =>
      have hnot : name ∉ s.grammar.tokens.names := NameTable.get?_eq_none.1 ht
      have hrule := (h name (Production.mem_walk_self _)).resolve_right hnot
      rw [if_neg (by rw [NameTable.has_iff]; exact hnot)]
      exact hsure name hrule pos 0
  | .seq items, pos, h => by
    unfold matchProduction Session.matchProduction
    exact matchItems_eq hb hsure owner items _ fun p hp n hn =>
      h n (Production.walk_of_child hp hn)
  | .choice members, pos, h => by
    unfold matchProduction Session.matchProduction
    rw [faultless_bind, matchMembers_eq hb hsure owner members 0 pos fun p hp n hn =>
      h n (Production.walk_of_child hp hn)]
    congr 1
    funext found
    rw [Candidate.bestChecked_eq]
    rfl
  | .rep content least recover, pos, h => by
    unfold matchProduction Session.matchProduction
    rw [faultless_bind, repeatFrom_eq hb fun pos => matchProduction_eq hb hsure owner content pos
      fun n hn => h n (Production.walk_of_child List.mem_cons_self hn)]
    rfl
  | .opt content, pos, h => by
    unfold matchProduction Session.matchProduction
    rw [faultless_bind, matchProduction_eq hb hsure owner content pos
      fun n hn => h n (Production.walk_of_child List.mem_cons_self hn)]
    rfl
  | .blank, _, _ => by
    unfold matchProduction Session.matchProduction
    rfl
  | .field name content, pos, h => by
    unfold matchProduction Session.matchProduction
    rw [faultless_bind, matchProduction_eq hb hsure owner content pos
      fun n hn => h n (Production.walk_of_child List.mem_cons_self hn)]
    rfl
  | .renamed content kind, pos, h => by
    unfold matchProduction Session.matchProduction
    rw [faultless_bind, matchProduction_eq hb hsure owner content pos
      fun n hn => h n (Production.walk_of_child List.mem_cons_self hn)]
    rfl
  | .prec _ content _ _, pos, h => by
    unfold matchProduction Session.matchProduction
    exact matchProduction_eq hb hsure owner content pos
      fun n hn => h n (Production.walk_of_child List.mem_cons_self hn)

theorem matchItems_eq (hb : s.table.Built) (hsure : Sure s call call') (owner : String) :
    ∀ (ps : List Production) (run : Run), (∀ p ∈ ps, s.Closed p) →
    matchItems s call' owner ps run = faultless (s.matchItems call owner ps run)
  | [], _, _ => by
    unfold matchItems Session.matchItems
    rfl
  | p :: ps, run, h => by
    obtain ⟨hp, hps⟩ := List.forall_mem_cons.1 h
    unfold matchItems Session.matchItems
    rw [faultless_bind, matchProduction_eq hb hsure owner p run.cursor hp]
    congr 1
    funext found
    cases found with
    | none => rfl
    | some m => exact matchItems_eq hb hsure owner ps (run.push m) hps

theorem matchMembers_eq (hb : s.table.Built) (hsure : Sure s call call') (owner : String) :
    ∀ (ps : List Production) (index pos : Nat), (∀ p ∈ ps, s.Closed p) →
    matchMembers s call' owner ps index pos = faultless (s.matchMembers call owner ps index pos)
  | [], _, _, _ => by
    unfold matchMembers Session.matchMembers
    rfl
  | p :: ps, index, pos, h => by
    obtain ⟨hp, hps⟩ := List.forall_mem_cons.1 h
    unfold matchMembers Session.matchMembers
    rw [faultless_bind, matchProduction_eq hb hsure owner p pos hp]
    congr 1
    funext found
    rw [faultless_bind, matchMembers_eq hb hsure owner ps (index + 1) pos hps]
    rfl

end

/-! ## Rules -/

theorem matchElement_eq (hb : s.table.Built) (hsure : Sure s call call') {rule : String}
    (hrule : rule ∈ s.table.rules.names) (minPrec : Int) (e : Element) (pos : Nat)
    (h : s.Closed e.body) :
    matchElement s call' rule minPrec e pos =
      faultless (s.matchElement call rule minPrec e pos) := by
  unfold matchElement Session.matchElement
  cases e.selfFields with
  | none => exact matchProduction_eq hb hsure rule e.body pos h
  | some names =>
    simp only
    rw [faultless_bind, hsure rule hrule]
    rfl

theorem matchElements_eq (hb : s.table.Built) (hsure : Sure s call call') {rule : String}
    (hrule : rule ∈ s.table.rules.names) (rightMin : Int) : ∀ (es : List Element) (run : Run),
    (∀ e ∈ es, s.Closed e.body) →
    matchElements s call' rule rightMin es run =
      faultless (s.matchElements call rule rightMin es run)
  | [], _, _ => rfl
  | e :: es, run, h => by
    obtain ⟨he, hes⟩ := List.forall_mem_cons.1 h
    unfold matchElements Session.matchElements
    rw [faultless_bind, matchElement_eq hb hsure hrule _ e run.cursor he]
    congr 1
    funext found
    cases found with
    | none => rfl
    | some m => exact matchElements_eq hb hsure hrule rightMin es (run.push m) hes

theorem seeds_eq (hb : s.table.Built) (hsure : Sure s call call') {rule : String}
    (hrule : rule ∈ s.table.rules.names) (pos : Nat) : ∀ as : List Alternative,
    (∀ a ∈ as, ∀ e ∈ a.elements, s.Closed e.body) →
    seeds s call' rule pos as = faultless (s.seeds call rule pos as)
  | [], _ => rfl
  | a :: as, h => by
    obtain ⟨ha, has⟩ := List.forall_mem_cons.1 h
    unfold seeds Session.seeds
    rw [faultless_bind, matchElements_eq hb hsure hrule a.rightMin a.elements _ ha]
    congr 1
    funext found
    rw [faultless_bind, seeds_eq hb hsure hrule pos as has]
    rfl

theorem growOnce_eq (hb : s.table.Built) (hsure : Sure s call call') {rule : String}
    (hrule : rule ∈ s.table.rules.names) (minPrec : Int) (left : Match) :
    ∀ as : List Alternative, (∀ a ∈ as, ∀ e ∈ a.elements, s.Closed e.body) →
    growOnce s call' rule minPrec left as = faultless (s.growOnce call rule minPrec left as)
  | [], _ => rfl
  | a :: as, h => by
    obtain ⟨ha, has⟩ := List.forall_mem_cons.1 h
    have ih := growOnce_eq hb hsure hrule minPrec left as has
    unfold growOnce Session.growOnce
    split
    · exact ih
    · rw [faultless_bind, matchElements_eq hb hsure hrule a.rightMin (a.elements.drop 1) _
        fun e he => ha e (List.mem_of_mem_drop he)]
      congr 1
      funext found
      cases found with
      | none => exact ih
      | some m =>
        simp only
        split
        · rfl
        · exact ih

theorem growPass_eq (hb : s.table.Built) (hsure : Sure s call call') {rule : String}
    (hrule : rule ∈ s.table.rules.names) (minPrec : Int) {alts : RuleAlternatives}
    (h : ∀ a, a ∈ alts.postfixed ∨ a ∈ alts.leftRec → ∀ e ∈ a.elements, s.Closed e.body)
    (left : Match) : growPass s call' rule minPrec alts left =
      faultless (s.growPass call rule minPrec alts left) := by
  unfold growPass Session.growPass
  rw [faultless_bind, growOnce_eq hb hsure hrule minPrec left alts.postfixed
    fun a ha => h a (Or.inl ha)]
  congr 1
  funext found
  cases found with
  | some m => rfl
  | none => exact growOnce_eq hb hsure hrule minPrec left alts.leftRec fun a ha => h a (Or.inr ha)

theorem grow_eq (hb : s.table.Built) (hsure : Sure s call call') {rule : String}
    (hrule : rule ∈ s.table.rules.names) (minPrec : Int) {alts : RuleAlternatives}
    (h : ∀ a, a ∈ alts.postfixed ∨ a ∈ alts.leftRec → ∀ e ∈ a.elements, s.Closed e.body) :
    ∀ (n : Nat) (left : Match),
    grow s call' rule minPrec alts n left = faultless (s.grow call rule minPrec alts n left)
  | 0, _ => rfl
  | n + 1, left => by
    unfold grow Session.grow
    rw [faultless_bind, growPass_eq hb hsure hrule minPrec h left]
    congr 1
    funext found
    cases found with
    | none => rfl
    | some m => exact grow_eq hb hsure hrule minPrec h n m

/-- The elements of the alternatives of a rule refer to rules and tokens. -/
theorem closed_of_alternative (hb : s.table.Built) {rule : String} {alts : RuleAlternatives}
    (ht : s.table.rules.get? rule = some alts) {a : Alternative}
    (ha : (a ∈ alts.prefixed ∨ a ∈ alts.plain) ∨ a ∈ alts.postfixed ∨ a ∈ alts.leftRec) :
    ∀ e ∈ a.elements, s.Closed e.body := by
  have hoffers : s.table.Offers rule a := by
    rcases ha with ha | ha
    · exact (hb.offers_seed ht ha).1
    · exact (hb.offers_growing ht ha).1
  exact fun e he n hn => hb.closed_of_offers hoffers he (Production.mem_references.2 hn)

theorem matchAlternatives_eq (hb : s.table.Built) (hsure : Sure s call call') {rule : String}
    {alts : RuleAlternatives} (ht : s.table.rules.get? rule = some alts) (pos : Nat)
    (minPrec : Int) : matchAlternatives s call' rule alts pos minPrec =
      faultless (s.matchAlternatives call rule alts pos minPrec) := by
  have hrule : rule ∈ s.table.rules.names := NameTable.mem_names_of_get? ht
  unfold matchAlternatives Session.matchAlternatives
  rw [faultless_bind, seeds_eq hb hsure hrule pos _ fun a ha =>
    closed_of_alternative hb ht (Or.inl (List.mem_append.1 ha))]
  congr 1
  funext found
  rw [Candidate.bestChecked_eq, lookup_ok, pure_bind]
  cases Candidate.best s.grammar.conflicts rule found with
  | none => rfl
  | some left =>
    simp only
    rw [faultless_bind, grow_eq hb hsure hrule minPrec fun a ha =>
      closed_of_alternative hb ht (Or.inr ha)]
    rfl

/-- A rule of the table is looked up and matched without a fault. -/
theorem answer_eq (hb : s.table.Built) (hsure : Sure s call call') {key : MemoKey}
    (hrule : key.rule ∈ s.table.rules.names) :
    answer s call' key = faultless (s.answer call key) := by
  unfold answer Session.answer
  cases ht : s.table.rules.get? key.rule with
  | none => exact absurd hrule (NameTable.get?_eq_none.1 ht)
  | some alts =>
    simp only
    rw [faultless_bind, matchAlternatives_eq hb hsure ht]
    rfl

theorem matchFresh_eq (hb : s.table.Built) (hsure : Sure s call call') {key : MemoKey}
    (hrule : key.rule ∈ s.table.rules.names) :
    matchFresh s call' key = faultless (s.matchFresh call key) := by
  unfold matchFresh Session.matchFresh
  simp only [faultless_bind, faultless_record, answer_eq hb hsure hrule, faultless_pure]

/-- **No rule of the table meets a fault**, however many rules may be inside each other: the rules
that a rule asks for are rules of the table again. -/
theorem sure_matchRule (hb : s.table.Built) : ∀ limit : Nat,
    Sure s (s.matchRule limit) (matchRule s limit)
  | 0, rule, _, pos, minPrec => by
    unfold matchRule Session.matchRule
    rw [faultless_remembered]
    rfl
  | limit + 1, rule, hrule, pos, minPrec => by
    unfold matchRule Session.matchRule
    rw [faultless_remembered, matchFresh_eq hb (sure_matchRule hb limit) hrule]

/-! ## Whole texts -/

theorem parsePass_eq (hb : s.table.Built) (hsure : Sure s call call') (pos : Nat)
    (items : List Item) :
    parsePass s call' pos items = faultless (s.parsePass call pos items) := by
  have hstart : s.grammar.start ∈ s.table.rules.names := by
    rw [hb.names_rules]
    exact hb.start
  unfold parsePass Session.parsePass
  rw [faultless_bind, hsure _ hstart]
  congr 1
  funext found
  simp only
  split
  · rfl
  · rename_i hlt
    split
    · rw [rawTokenEnd_eq hb (Nat.lt_of_not_le hlt)]
      rfl
    · rfl

theorem parseFrom_eq (hb : s.table.Built) (hsure : Sure s call call') :
    ∀ (n pos : Nat) (items : List Item),
    parseFrom s call' n pos items = faultless (s.parseFrom call n pos items)
  | 0, _, _ => rfl
  | n + 1, pos, items => by
    unfold parseFrom Session.parseFrom
    rw [faultless_bind, parsePass_eq hb hsure]
    congr 1
    funext next
    obtain ⟨read, next⟩ := next
    cases next with
    | none => rfl
    | some next => exact parseFrom_eq hb hsure n next read

theorem parse_eq (hb : s.table.Built) (limit : Nat) :
    parse s limit = faultless (s.parse limit) := by
  unfold parse Session.parse Session.parseBy
  rw [faultless_bind, parseFrom_eq hb (sure_matchRule hb limit)]
  rfl

end Checked

end Session

/-! ## Parsing -/

theorem Tree.hasError_eq (tree : Tree) : tree.hasError = !tree.diagnostics.isEmpty := by
  rw [Bool.eq_iff_iff]
  simp [hasError, Node.hasError, diagnostics, List.filter_eq_nil_iff]

/-- **A parse meets no fault**: it ends as it does without checks. -/
theorem ParseTable.parseChecked_eq {table : ParseTable} (hb : table.Built) (recover strict : Bool)
    (text : List Char) (limit : Nat) : table.parseChecked recover strict text limit =
      (table.parse recover strict text limit).mapError Sum.inl := by
  unfold parseChecked parse
  rw [Session.Checked.parse_eq hb]
  unfold CheckedEngine.faultless
  cases Session.parse ⟨table, recover, text.toArray⟩ limit {} with
  | error _ _ => rfl
  | ok root _ =>
    simp only
    rw [Tree.hasError_eq]
    cases strict with
    | false => rfl
    | true => cases Tree.diagnostics ⟨root, text⟩ <;> rfl

end LayeredGrammar
