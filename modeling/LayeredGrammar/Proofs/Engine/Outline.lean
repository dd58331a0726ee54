import LayeredGrammar.Proofs.Engine.Growth
import Mathlib.Data.List.Forall2

/-!
# Children that are known beforehand

Some productions always leave one item, and its field names, often its kind too, stand in the grammar
(`Production.outline?`). An alternative made of such parts and of references to its own rule leaves
one item for each of them; if it ends in a reference to the rule, then what it matches ends where the
answer for that reference does (`Session.inRow_outlined`).
-/

namespace LayeredGrammar

/-- What is known of an item: its kind, if it is always the same, and its field names. -/
abbrev ItemOutline := Option String × List String

/-- An item is as its outline says. -/
def ItemOutline.Fits (o : ItemOutline) (x : Item) : Prop :=
  x.2 = o.2 ∧ ∀ kind ∈ o.1, x.1.kind = kind

namespace Production

/-- Whether a production is a literal. -/
def isLiteral : Production → Bool
  | .lit _ => true
  | _ => false

/-- The outline of the only item that a production leaves, if it is known to leave just one. -/
def outline? : Production → Option ItemOutline
  | .lit value => some (some value, [])
  | .ref name => if Match.isHidden name then none else some (some name, [])
  | .field name content => (outline? content).map fun o => (o.1, o.2 ++ [name])
  | .renamed (.ref name) kind => if Match.isHidden name then none else some (some kind, [])
  | .choice members => if members.all isLiteral then some (none, []) else none
  | _ => none

end Production

/-- The outline of what an element of an alternative leaves; nothing but the field names is known of
what the rule of the alternative itself answers. -/
def Element.outline? (e : Element) : Option ItemOutline :=
  match e.selfFields with
  | some names => some (none, names)
  | none => e.body.outline?

namespace Match

theorem items_withFields {m : Match} {n : Node} {own : List String} (h : m.items = [(n, own)])
    (names : List String) : (m.withFields names).items = [(n, own ++ names)] := by
  unfold withFields
  rw [h]
  rfl

/-- A rule with a node of its own leaves one item of that kind. -/
theorem items_finish {rule : String} (h : isHidden rule = false) (m : Match) :
    ∃ n, (m.finish rule).items = [(n, [])] ∧ n.kind = rule := by
  obtain ⟨hhidden, _⟩ | ⟨_, heq | ⟨_, _, _, _, heq⟩⟩ := finish_cases rule m
  · exact absurd (h.symm.trans hhidden) nofun
  · rw [heq]
    exact ⟨_, rfl, rfl⟩
  · rw [heq]
    exact ⟨_, rfl, rfl⟩

theorem items_dress {a : Alternative} {kind : String} (h : a.kind = some kind) (m : Match) :
    (Session.dress a m).items = [(Node.ofItems kind m.items m.start m.stop, [])] := by
  unfold Session.dress
  rw [h]
  cases a.layered <;> rfl

theorem items_dress_of_none {a : Alternative} (h : a.kind = none) (m : Match) :
    (Session.dress a m).items = m.items := by
  unfold Session.dress
  rw [h]
  cases a.layered <;> rfl

end Match

theorem Run.items_push_begin (pos : Nat) (m : Match) :
    ((Run.begin pos).push m).toMatch.items = m.items := by
  unfold push
  split
  · rename_i hempty
    rw [List.isEmpty_iff.1 hempty]
    rfl
  · unfold take toMatch
    show (m.items.reverse ++ []).reverse = m.items
    rw [List.append_nil, List.reverse_reverse]

namespace Session

open Engine (Coupled Coupling)

variable {s : Session}

theorem fits_ref {name : String} {pos : Nat} {m : Match} (hname : Match.isHidden name = false)
    (h : s.Yields (.production (.ref name) pos) m) : ∃ n, m.items = [(n, [])] ∧ n.kind = name := by
  cases h with
  | token _ h =>
    obtain ⟨stop, _, _, _, rfl⟩ := matchToken_eq_some h
    exact ⟨_, rfl, rfl⟩
  | ref _ h =>
    cases h with
    | rule _ _ _ _ => exact Match.items_finish hname _

/-- What a production with an outline leaves. -/
theorem Yields.fits : ∀ (p : Production) {pos : Nat} {m : Match} {o : ItemOutline},
    p.outline? = some o → s.Yields (.production p pos) m → ∃ x, m.items = [x] ∧ o.Fits x
  | .lit value, _, _, _, ho, h => by
    cases ho
    cases h with
    | lit h =>
      obtain ⟨l, _, _, rfl⟩ := matchLiteral_eq_some h
      exact ⟨_, rfl, rfl, fun kind hkind => Option.some.inj hkind⟩
  | .ref name, _, _, _, ho, h => by
    unfold Production.outline? at ho
    split at ho
    · cases ho
    · rename_i hname
      cases ho
      obtain ⟨n, hitems, hkind⟩ := fits_ref (Bool.not_eq_true _ ▸ hname) h
      exact ⟨_, hitems, rfl, fun kind hk => hkind.trans (Option.some.inj hk)⟩
  | .field name content, _, _, _, ho, h => by
    unfold Production.outline? at ho
    obtain ⟨inner, hinner, rfl⟩ := Option.map_eq_some_iff.1 ho
    cases h with
    | @field _ _ _ m h =>
      obtain ⟨⟨n, names⟩, hitems, hnames, hkind⟩ := Yields.fits content hinner h
      refine ⟨(n, names ++ [name]), Match.items_withFields hitems [name], ?_, hkind⟩
      show names ++ [name] = inner.2 ++ [name]
      rw [show names = inner.2 from hnames]
  | .renamed (.ref name) kind, _, _, _, ho, h => by
    unfold Production.outline? at ho
    split at ho
    · cases ho
    · rename_i hname
      cases ho
      cases h with
      | @renamed _ _ _ m h =>
        obtain ⟨n, hitems, _⟩ := fits_ref (Bool.not_eq_true _ ▸ hname) h
        refine ⟨({ n with kind := kind, named := true }, []), ?_, rfl,
          fun k hk => Option.some.inj hk⟩
        unfold Match.rename
        rw [hitems]
        rfl
  | .choice members, _, _, _, ho, h => by
    unfold Production.outline? at ho
    split at ho
    · rename_i hall
      cases ho
      cases h with
      | @choice _ p _ _ hp h =>
        have hlit := List.all_eq_true.1 hall p hp
        cases p with
        | lit value =>
          cases h with
          | lit h =>
            obtain ⟨l, _, _, rfl⟩ := matchLiteral_eq_some h
            exact ⟨_, rfl, rfl, nofun⟩
        | _ => cases hlit
    · cases ho
  | .seq _, _, _, _, ho, _ | .rep _ _ _, _, _, _, ho, _ | .opt _, _, _, _, ho, _
  | .blank, _, _, _, ho, _ | .prec _ _ _ _, _, _, _, ho, _ => by cases ho
  | .renamed (.lit _) _, _, _, _, ho, _ | .renamed (.seq _) _, _, _, _, ho, _
  | .renamed (.choice _) _, _, _, _, ho, _ | .renamed (.rep _ _ _) _, _, _, _, ho, _
  | .renamed (.opt _) _, _, _, _, ho, _ | .renamed .blank _, _, _, _, ho, _
  | .renamed (.field _ _) _, _, _, _, ho, _ | .renamed (.renamed _ _) _, _, _, _, ho, _
  | .renamed (.prec _ _ _ _) _, _, _, _, ho, _ => by cases ho

/-! ## Alternatives -/

variable {answers : MemoKey → Option Match} {rule : String} {rightMin : Int}

/-- The answers for a rule leave one item without field names. -/
def Single (answers : MemoKey → Option Match) (rule : String) : Prop :=
  ∀ k m, k.rule = rule → answers k = some m → ∃ n, m.items = [(n, [])]

/-- If an alternative ends in a reference to its rule, its last item is what was answered there, and
the match ends with it. -/
def EndsWith (answers : MemoKey → Option Match) (rule : String) (rightMin : Int)
    (es : List Element) (items : List Item) (stop : Nat) : Prop :=
  ∀ e ∈ es.getLast?, e.selfFields.isSome = true → ∃ k m n names, k.rule = rule ∧
    k.minPrec = rightMin ∧ answers k = some m ∧ m.items = [(n, [])] ∧ m.stop = stop ∧
    items.getLast? = some (n, names)

/-- An element with an outline leaves one item, which is an answer if it refers to the rule. -/
theorem matchElement_outlined (ht : s.Truthful answers) (hsingle : Single answers rule)
    {e : Element} {o : ItemOutline} (ho : e.outline? = some o) {minPrec : Int} {pos : Nat} {m : Match}
    {μ μ' : Memo} (hrun : s.matchElement (tabled answers) rule minPrec e pos μ = .ok (some m) μ') :
    ∃ x, m.items = [x] ∧ o.Fits x ∧ (e.selfFields.isSome = true →
      ∃ k m' n names, k.rule = rule ∧ k.minPrec = minPrec ∧ answers k = some m' ∧
        m'.items = [(n, [])] ∧ m'.stop = m.stop ∧ x = (n, names)) := by
  unfold Element.outline? at ho
  unfold matchElement at hrun
  cases hself : e.selfFields with
  | none =>
    rw [hself] at ho hrun
    obtain ⟨_, _, _, hyields⟩ :=
      (matchProduction_coupled rule e.body pos fun k _ => tabled_alike rfl (ht k)).of_ok
        (c := anyhow) (ν := μ) trivial hrun
    obtain ⟨x, hitems, hfits⟩ := Yields.fits e.body ho (hyields m rfl)
    exact ⟨x, hitems, hfits, nofun⟩
  | some names =>
    rw [hself] at ho hrun
    cases ho
    obtain ⟨answer, _, hanswer, hrun⟩ := Engine.bind_eq_ok hrun
    cases hanswer
    cases hk : answers ⟨rule, pos, minPrec⟩ with
    | none =>
      rw [hk] at hrun
      cases hrun
    | some m' =>
      rw [hk] at hrun
      cases hrun
      obtain ⟨n, hitems⟩ := hsingle _ m' rfl hk
      exact ⟨(n, names), Match.items_withFields hitems names, ⟨rfl, nofun⟩, fun _ =>
        ⟨_, m', n, names, rfl, rfl, hk, hitems, rfl, rfl⟩⟩

theorem matchElements_outlined (ht : s.Truthful answers) (hsingle : Single answers rule) :
    ∀ {es : List Element} {os : List ItemOutline} {run : Run} {m : Match} {μ μ' : Memo},
    es.map Element.outline? = os.map some →
    s.matchElements (tabled answers) rule rightMin es run μ = .ok (some m) μ' →
    ∃ items, m.items = run.items.reverse ++ items ∧
      List.Forall₂ ItemOutline.Fits os items ∧ EndsWith answers rule rightMin es items m.stop
  | [], os, run, m, _, _, hos, hrun => by
    cases hrun
    obtain rfl : os = [] := List.map_eq_nil_iff.1 hos.symm
    exact ⟨[], (List.append_nil _).symm, .nil, nofun⟩
  | e :: es, os, run, m, μ, μ', hos, hrun => by
    cases os with
    | nil => cases hos
    | cons o os =>
    obtain ⟨ho, hos⟩ := List.cons.inj hos
    obtain ⟨found, ν, hfound, hrun⟩ := Engine.bind_eq_ok hrun
    cases found with
    | none => cases hrun
    | some first =>
    obtain ⟨x, hitems, hfits, hanswer⟩ := matchElement_outlined ht hsingle ho hfound
    have hpush : run.push first = run.take first := by
      unfold Run.push
      rw [hitems]
      rfl
    obtain ⟨items, hm, hall, hends⟩ := matchElements_outlined ht hsingle hos hrun
    refine ⟨x :: items, ?_, .cons hfits hall, ?_⟩
    · rw [hm, hpush]
      unfold Run.take
      rw [hitems, List.reverse_append, List.append_assoc]
      rfl
    · intro e' he' hself
      cases es with
      | nil =>
        cases he'
        obtain ⟨k, m', n, names, hrule, hmin, hk, hitems', hstop, rfl⟩ := hanswer hself
        obtain rfl : os = [] := List.map_eq_nil_iff.1 hos.symm
        obtain rfl := List.forall₂_nil_left_iff.1 hall
        refine ⟨k, m', n, names, hrule, hmin, hk, hitems', ?_, rfl⟩
        rw [hstop]
        cases hrun
        rw [hpush]
        rfl
      | cons e'' es =>
        obtain ⟨k, m', n, names, hrule, hmin, hk, hitems', hstop, hlast⟩ :=
          hends e' he' hself
        refine ⟨k, m', n, names, hrule, hmin, hk, hitems', hstop, ?_⟩
        cases items with
        | nil => cases hlast
        | cons y items => exact hlast

/-- **What elements with outlines leave**: one item for each, and if the last one refers to the rule
itself, the answer there. -/
theorem inRow_outlined (ht : s.Truthful answers) (hsingle : Single answers rule)
    {es : List Element} {os : List ItemOutline} (hos : es.map Element.outline? = os.map some)
    {pos : Nat} {m : Match} (hm : s.inRow answers rule rightMin es pos = some m) :
    List.Forall₂ ItemOutline.Fits os m.items ∧
      EndsWith answers rule rightMin es m.items m.stop := by
  unfold inRow at hm
  cases hrun : s.matchElements (tabled answers) rule rightMin es (.begin pos) {} with
  | error e μ =>
    rw [hrun] at hm
    cases hm
  | ok found μ =>
    rw [hrun] at hm
    rw [show found = some m from hm] at hrun
    obtain ⟨items, hitems, hall, hends⟩ := matchElements_outlined ht hsingle hos hrun
    obtain rfl : m.items = items := hitems
    exact ⟨hall, hends⟩

end Session

end LayeredGrammar
