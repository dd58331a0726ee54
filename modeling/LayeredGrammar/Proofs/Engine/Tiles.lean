import LayeredGrammar.Proofs.Engine.Progress
import LayeredGrammar.Proofs.Extras
import LayeredGrammar.Proofs.Grammar.Shape

/-!
# Matches tile the text

Nodes tile a stretch of text if each of them starts after the extras behind the one before it, and
the children of a node tile the node in turn (`Session.Tiles`). Nodes without children are not
empty.

* `Match.Tiled` is the invariant of matches and `Run.Tiled` that of matches in a row; wrapping,
  renaming and finishing a match keep it as long as there is something to put a node around.
* `Session.Yields.tiled` — in a table with certificates, every match tiles the text from the
  position where it was looked for.
-/

namespace LayeredGrammar

/-! ## Tiles -/

namespace Session

/-- Nodes one after another from one position to another, with nothing but extras in front of each,
all the way down. -/
inductive Tiles (s : Session) : Nat → List Node → Nat → Prop
  | nil {pos} : Tiles s pos [] pos
  | leaf {pos n ns stop} (hc : n.children = []) (hstart : n.start = s.skip pos)
    (hlt : n.start < n.stop) (h : Tiles s n.stop ns stop) : Tiles s pos (n :: ns) stop
  | branch {pos n ns stop} (hc : n.children ≠ []) (hstart : n.start = s.skip pos)
    (hn : Tiles s pos n.children n.stop) (h : Tiles s n.stop ns stop) : Tiles s pos (n :: ns) stop

namespace Tiles

variable {s : Session} {pos mid stop : Nat} {n : Node} {ms ns : List Node}

theorem append (h : s.Tiles pos ms mid) (h' : s.Tiles mid ns stop) :
    s.Tiles pos (ms ++ ns) stop := by
  induction h with
  | nil => exact h'
  | leaf hc hstart hlt _ ih => exact .leaf hc hstart hlt (ih h')
  | branch hc hstart hn _ _ ih => exact .branch hc hstart hn (ih h')

/-- Neither the kind of a node nor its fields matter. -/
theorem congr {m : Node} (h : s.Tiles pos [n] stop) (hc : m.children = n.children)
    (hs : m.start = n.start) (he : m.stop = n.stop) : s.Tiles pos [m] stop := by
  cases h with
  | leaf hc' hstart hlt h =>
    exact .leaf (hc.trans hc') (hs.trans hstart) (by rw [hs, he]; exact hlt) (he ▸ h)
  | branch hc' hstart hn h =>
    exact .branch (hc ▸ hc') (hs.trans hstart) (by rw [hc, he]; exact hn) (he ▸ h)

/-- A leaf after the extras. -/
theorem single (hc : n.children = []) (hstart : n.start = s.skip pos) (hlt : n.start < n.stop) :
    s.Tiles pos [n] n.stop :=
  .leaf hc hstart hlt .nil

theorem ofItems {items : List Item} (kind : String) {start : Nat}
    (h : s.Tiles pos (items.map (·.1)) stop) (hitems : items ≠ []) (hstart : start = s.skip pos) :
    s.Tiles pos [Node.ofItems kind items start stop] stop := by
  have hc : (Node.ofItems kind items start stop).children ≠ [] := by
    intro hnil
    exact hitems (List.map_eq_nil_iff.1 hnil)
  exact .branch hc hstart h .nil

theorem stop_eq (h : s.Tiles pos [] stop) : stop = pos := by
  cases h
  rfl

/-- The first of several nodes starts after the extras. -/
theorem head_start (h : s.Tiles pos ns stop) : ∀ n ∈ ns.head?, n.start = s.skip pos := by
  cases h with
  | nil => exact nofun
  | leaf hc hstart hlt h =>
    intro n hn
    cases hn
    exact hstart
  | branch hc hstart hn h =>
    intro n hn
    cases hn
    exact hstart

theorem getLast_stop_cons (h : s.Tiles n.stop ns stop) (ih : ∀ m ∈ ns.getLast?, m.stop = stop) :
    ∀ m ∈ (n :: ns).getLast?, m.stop = stop := by
  intro m hm
  cases ns with
  | nil =>
    cases hm
    exact h.stop_eq.symm
  | cons a ns =>
    rw [List.getLast?_cons_cons] at hm
    exact ih m hm

/-- The last of several nodes ends where they all end. -/
theorem getLast_stop (h : s.Tiles pos ns stop) : ∀ n ∈ ns.getLast?, n.stop = stop := by
  induction h with
  | nil => exact nofun
  | leaf hc hstart hlt h ih => exact getLast_stop_cons h ih
  | branch hc hstart hn h _ ih => exact getLast_stop_cons h ih

/-- A node with children starts where its first child starts and ends where its last child ends. -/
theorem spanned (h : s.Tiles pos ns stop) : ∀ n ∈ Node.walkAll ns, n.children ≠ [] →
    n.children.head?.map (·.start) = some n.start ∧
      n.children.getLast?.map (·.stop) = some n.stop := by
  induction h with
  | nil => exact nofun
  | @leaf _ n ns _ hc hstart hlt h ih =>
    intro m hm hne
    rw [Node.walkAll, Node.walk_eq, hc] at hm
    rcases List.mem_cons.1 hm with rfl | hm
    · exact absurd hc hne
    · exact ih m hm hne
  | @branch _ n ns _ hc hstart hn h ihn ih =>
    intro m hm hne
    rw [Node.walkAll, Node.walk_eq] at hm
    rcases List.mem_cons.1 hm with rfl | hm
    · obtain ⟨a, as, has⟩ := List.exists_cons_of_ne_nil hne
      have hfirst := hn.head_start a (by rw [has]; rfl)
      have hlast := hn.getLast_stop _ (List.getLast?_eq_some_getLast hne)
      constructor
      · rw [has, List.head?_cons, Option.map_some, hfirst, hstart]
      · rw [List.getLast?_eq_some_getLast hne, Option.map_some, hlast]
    · rcases List.mem_append.1 hm with hm | hm
      · exact ihn m hm hne
      · exact ih m hm hne

end Tiles

end Session

/-! ## Matches -/

/-- A match whose nodes tile the text from a position on. -/
structure Match.Tiled (m : Match) (s : Session) (pos : Nat) : Prop where
  tiles : s.Tiles pos (m.items.map (·.1)) m.stop
  start : m.items ≠ [] → m.start = s.skip pos

namespace Match.Tiled

variable {s : Session} {m left right : Match} {pos n : Nat}

theorem empty (pos : Nat) : (Match.empty pos).Tiled s pos :=
  ⟨.nil, fun h => absurd rfl h⟩

theorem withFields (h : m.Tiled s pos) (names : List String) :
    (m.withFields names).Tiled s pos := by
  refine ⟨?_, fun hne => h.start fun hnil => hne (List.map_eq_nil_iff.2 hnil)⟩
  unfold Match.withFields
  rw [List.map_map]
  exact h.tiles

theorem wrap (h : m.Tiled s pos) (hne : m.items ≠ []) (kind : String) :
    (m.wrap kind).Tiled s pos :=
  ⟨h.tiles.ofItems kind hne (h.start hne), fun _ => h.start hne⟩

/-- A match of one node, with another node in the same place. -/
theorem replace (h : m.Tiled s pos) {x y : Item} (hitems : m.items = [x])
    (hc : y.1.children = x.1.children) (hs : y.1.start = x.1.start) (he : y.1.stop = x.1.stop) :
    { m with items := [y] }.Tiled s pos := by
  have htiles := h.tiles
  rw [hitems] at htiles
  exact ⟨htiles.congr hc hs he, fun _ => h.start (by rw [hitems]; exact List.cons_ne_nil _ _)⟩

theorem rename (h : m.Tiled s pos) (hne : m.items ≠ []) (content : Production) (kind : String) :
    (m.rename content kind).Tiled s pos := by
  obtain ⟨node, names, hitems, _, heq⟩ | heq := rename_cases content kind m <;> rw [heq]
  · exact h.replace hitems rfl rfl rfl
  · exact h.wrap hne kind

theorem finish (h : m.Tiled s pos) (hp : m.Proper pos n) (hne : m.items ≠ []) (rule : String) :
    (m.finish rule).Tiled s pos := by
  obtain ⟨_, heq⟩ | ⟨_, heq | ⟨node, names, hitems, hnamed, heq⟩⟩ := finish_cases rule m <;> rw [heq]
  · exact h
  · exact h.wrap hne rule
  · have hchildren : node.children = [] :=
      hp.literal (node, names) (by rw [hitems]; exact List.mem_cons_self) hnamed
    exact h.replace hitems hchildren.symm rfl rfl

theorem dress (h : m.Tiled s pos) {a : Alternative} (hne : a.kind = none ∨ m.items ≠ []) :
    (Session.dress a m).Tiled s pos := by
  obtain ⟨layered, ⟨_, heq⟩ | ⟨kind, hkind, heq⟩⟩ := Session.dress_cases a m <;> rw [heq]
  · exact ⟨h.tiles, h.start⟩
  · have hmarked : { m with layered := layered }.Tiled s pos := ⟨h.tiles, h.start⟩
    exact hmarked.wrap (hne.resolve_left (by rw [hkind]; exact nofun)) kind

theorem join (hl : left.Tiled s pos) (hne : left.items ≠ []) (hr : right.Tiled s left.stop) :
    (left.join right).Tiled s pos := by
  refine ⟨?_, fun _ => hl.start hne⟩
  unfold Match.join
  rw [List.map_append]
  exact hl.tiles.append hr.tiles

theorem extended (hl : left.Tiled s pos) (hne : left.items ≠ []) (hr : right.Tiled s left.stop)
    (a : Alternative) : (Session.extended a left right).Tiled s pos := by
  have hne' : (left.withFields a.leadFields).items ≠ [] :=
    fun hnil => hne (List.map_eq_nil_iff.1 hnil)
  refine ((hl.withFields a.leadFields).join hne' hr).dress (Or.inr ?_)
  intro hnil
  exact hne' (List.append_eq_nil_iff.1 hnil).1

end Match.Tiled

/-! ## Matches in a row -/

/-- A run whose nodes tile the text from its origin to its cursor. -/
structure Run.Tiled (r : Run) (s : Session) : Prop where
  tiles : s.Tiles r.origin (r.items.reverse.map (·.1)) r.cursor
  start : r.start = if r.items.isEmpty then none else some (s.skip r.origin)

namespace Run.Tiled

variable {s : Session} {r : Run} {m : Match} {pos : Nat}

theorem begin (pos : Nat) : (Run.begin pos).Tiled s := ⟨.nil, rfl⟩

/-- What is taken in next starts where the run starts, if it is the first. -/
theorem start_getD (h : r.Tiled s) {start : Nat} (hstart : start = s.skip r.cursor) :
    r.start.getD start = s.skip r.origin := by
  rw [h.start]
  split
  · rename_i hnil
    have htiles := h.tiles
    rw [List.isEmpty_iff.1 hnil] at htiles
    rw [Option.getD_none, hstart, htiles.stop_eq]
  · rfl

theorem take (h : r.Tiled s) (hm : m.Tiled s r.cursor) (hne : m.items ≠ []) :
    (r.take m).Tiled s := by
  constructor
  · unfold Run.take
    rw [List.reverse_append, List.reverse_reverse, List.map_append]
    exact h.tiles.append hm.tiles
  · have hitems : (m.items.reverse ++ r.items).isEmpty = false := by simp [hne]
    unfold Run.take
    rw [hitems, h.start_getD (hm.start hne)]
    rfl

theorem push (h : r.Tiled s) (hm : m.Tiled s r.cursor) : (r.push m).Tiled s := by
  unfold Run.push
  split
  · exact ⟨h.tiles, h.start⟩
  · rename_i hne
    exact h.take hm fun hnil => hne (by rw [hnil]; rfl)

theorem pushError (h : r.Tiled s) {a b : Nat} (ha : a = s.skip r.cursor) (hab : a < b)
    (expected : List String) : (r.pushError a b expected).Tiled s := by
  constructor
  · unfold Run.pushError
    rw [List.reverse_cons, List.map_append]
    exact h.tiles.append (.single rfl ha hab)
  · unfold Run.pushError
    rw [h.start_getD ha]
    rfl

theorem toMatch (h : r.Tiled s) : r.toMatch.Tiled s r.origin := by
  refine ⟨h.tiles, fun hne => ?_⟩
  have hitems : r.items.isEmpty = false := by
    rw [List.isEmpty_eq_false_iff]
    exact fun hnil => hne (List.reverse_eq_nil_iff.2 hnil)
  unfold Run.toMatch
  rw [h.start, hitems]
  rfl

end Run.Tiled

/-! ## What the engine finds -/

namespace Session

variable {s : Session} {empties : List String} {rank : String → Nat}

theorem matchLiteral_tiled (hb : s.table.Built) {value : String} {pos : Nat} {m : Match}
    (h : s.matchLiteral value pos = some m) : m.Tiled s pos := by
  obtain ⟨l, hl, _, rfl⟩ := matchLiteral_eq_some h
  have hlt := (slice_of_literalAt hb hl).2
  exact ⟨.single rfl rfl (Nat.lt_add_of_pos_right hlt), fun _ => rfl⟩

theorem matchToken_tiled {name : String} {t : Token} {pos : Nat} {m : Match}
    (h : s.matchToken name t pos = some m) : m.Tiled s pos := by
  obtain ⟨stop, _, hlt, _, rfl⟩ := matchToken_eq_some h
  exact ⟨.single rfl rfl hlt, fun _ => rfl⟩

/-- What tiling means for each kind of task. The productions of the task must be solid, and a rule
must not be one that may be empty. -/
def Task.Tiled (s : Session) (empties : List String) : Task → Match → Prop
  | .production p pos, m => p.Solid empties → m.Tiled s pos
  | .items ps run, m => (∀ p ∈ ps, p.Solid empties) → run.Tiled s → m.Tiled s run.origin
  | .rounds content _ _ _ run, m => content.Solid empties → run.Tiled s → m.Tiled s run.origin
  | .element owner _ e pos, m => e.selfFields = e.body.selfFields? owner →
      e.body.Solid empties → m.Tiled s pos
  | .elements owner _ es run, m => (∀ e ∈ es, e.selfFields = e.body.selfFields? owner) →
      (∀ e ∈ es, e.body.Solid empties) → run.Tiled s → m.Tiled s run.origin
  | .growth owner _ left, m => ∀ pos, left.Begun s empties owner pos → left.Tiled s pos →
      m.Tiled s pos
  | .rule key, m => key.rule ∉ empties → m.Tiled s key.pos

/-- The start of a rule gets a node around it only if it takes in text. -/
theorem tiled_seed (hb : s.table.Built) (hr : s.table.Ranked empties rank)
    (hs : s.table.Shaped empties) {rule : String} {a : Alternative} {pos : Nat} {seed : Match}
    (ha : s.table.Offers rule a)
    (h : s.Yields (.elements rule a.rightMin a.elements (.begin pos)) seed)
    (htiled : seed.Tiled s pos) : (dress a seed).Tiled s pos := by
  refine htiled.dress ?_
  by_cases hrule : rule ∈ empties
  · exact Or.inl (hs.kind_eq_none ha hrule)
  · have hlt := (begun_seed hb hr ha h).lt hrule
    rw [stop_dress] at hlt
    exact Or.inr ((h.proper (Run.proper_begin _ _)).items_ne_nil hlt)

theorem solid_elements (hs : s.table.Shaped empties) {rule : String} {a : Alternative}
    (ha : s.table.Offers rule a) : ∀ e ∈ a.elements, e.body.Solid empties :=
  fun _ he => (hs.solid ha).of_seq _ (List.mem_map.2 ⟨_, he, rfl⟩)

/-- **Every match tiles the text**, from the position where it was looked for. -/
theorem Yields.tiled (hb : s.table.Built) (hr : s.table.Ranked empties rank)
    (hs : s.table.Shaped empties) (hskip : ∀ pos, s.skip (s.skip pos) = s.skip pos) {t : Task}
    {m : Match} (h : s.Yields t m) : t.Tiled s empties m := by
  induction h with
  | lit h => exact fun _ => matchLiteral_tiled hb h
  | token _ h => exact fun _ => matchToken_tiled h
  | ref _ _ ih => exact fun hsolid => ih hsolid.of_ref
  | seq _ ih => exact fun hsolid => ih hsolid.of_seq (.begin _)
  | choice hp _ ih => exact fun hsolid => ih (hsolid.of_choice _ hp)
  | rep _ ih => exact fun hsolid => ih (hsolid.inside rfl) (.begin _)
  | opt _ ih => exact fun hsolid => ih (hsolid.inside rfl)
  | omitted => exact fun _ => .empty _
  | blank => exact fun _ => .empty _
  | field _ ih => exact fun hsolid => (ih (hsolid.inside rfl)).withFields _
  | renamed h ih =>
    intro hsolid
    obtain ⟨hempty, hsolid⟩ := hsolid.of_renamed
    have hproper : Match.Proper _ _ _ := h.proper
    exact (ih hsolid).rename (hproper.items_ne_nil (h.consumes hb hr hempty)) _ _
  | prec _ ih => exact fun hsolid => ih (hsolid.inside rfl)
  | itemsDone => exact fun _ hrun => hrun.toMatch
  | @itemsNext _ _ run m _ _ _ ih ih' =>
    intro hsolid hrun
    have h := ih' (fun p hp => hsolid p (List.mem_cons_of_mem _ hp))
      (hrun.push (ih (hsolid _ List.mem_cons_self)))
    rwa [Run.origin_push] at h
  | roundsDone _ => exact fun _ hrun => hrun.toMatch
  | round h hlt _ ih ih' =>
    intro hsolid hrun
    have hproper : Match.Proper _ _ _ := h.proper
    exact ih' hsolid (hrun.take (ih hsolid) (hproper.items_ne_nil hlt))
  | region hspan _ ih' =>
    intro hsolid hrun
    exact ih' hsolid (hrun.pushError (errorSpan_start hspan).1 (errorSpan_lt hskip hspan) _)
  | selfElement he _ ih =>
    intro hknows hsolid
    have hself := Production.unfield_of_selfFields? (hknows.symm.trans he)
    have hsolid := hsolid.unfield
    rw [hself] at hsolid
    exact (ih hsolid.of_ref).withFields _
  | bodyElement _ _ ih => exact fun _ => ih
  | elementsDone => exact fun _ _ hrun => hrun.toMatch
  | @elementsNext _ _ _ _ run m _ _ _ ih ih' =>
    intro hknows hsolid hrun
    have h := ih' (fun e he => hknows e (List.mem_cons_of_mem _ he))
      (fun e he => hsolid e (List.mem_cons_of_mem _ he))
      (hrun.push (ih (hknows _ List.mem_cons_self) (hsolid _ List.mem_cons_self)))
    rwa [Run.origin_push] at h
  | grown => exact fun _ _ htiled => htiled
  | @grow _ _ _ a left right _ ht ha _ h hlt _ ih ih' =>
    intro pos hbegun htiled
    obtain ⟨hoffers, _⟩ := hb.offers_growing ht ha
    obtain ⟨hleft, _, hnext⟩ := hbegun.extended hb hr ht ha h hlt
    have hright : right.Tiled s left.stop :=
      ih (fun e he => hoffers.knows e (List.mem_of_mem_drop he))
        (fun e he => solid_elements hs hoffers e (List.mem_of_mem_drop he)) (.begin _)
    exact ih' pos hnext (htiled.extended hleft hright a)
  | @rule key _ a seed m ht ha h h' ih ih' =>
    intro hrule
    obtain ⟨hoffers, _⟩ := hb.offers_seed ht ha
    have hbegun := begun_seed hb hr hoffers h
    have htiled := tiled_seed hb hr hs hoffers h
      (ih hoffers.knows (solid_elements hs hoffers) (.begin _))
    have hm := h'.proper _ hbegun.proper
    have hstop : (dress a seed).stop ≤ m.stop := h'.consumes hb hr
    exact (ih' _ hbegun htiled).finish hm
      (hm.items_ne_nil (Nat.lt_of_lt_of_le (hbegun.lt hrule) hstop)) _

end Session

end LayeredGrammar
