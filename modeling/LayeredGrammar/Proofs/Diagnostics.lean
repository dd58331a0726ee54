import LayeredGrammar.Proofs.Engine.Faultless
import LayeredGrammar.Proofs.ErrorPlaces
import LayeredGrammar.Proofs.Safety

/-!
# Diagnostics in the order of the text

Error nodes have no children (`Session.childless_parse`), so they are among the nodes that cover the
text (`Session.filter_isError_sublist`). This is where their order comes from: those nodes stand one
behind the other, each of them behind extras (`Covers.pairwise`, `Covers.settled`). And as a newline
is an extra, the first line of an error region is not empty (`Session.found_ne_empty`).

So the diagnostics of a tree are in the order of the text, and the first of them, which is the message
if errors are not allowed, is the leftmost one (`ParseTable.parse_diagnostics`).
-/

namespace LayeredGrammar

/-! ## Nodes that cover a text -/

namespace Covers

variable {skip : Nat → Nat} {size pos : Nat} {ns : List Node}

theorem le_start (hskip : ∀ p ≤ size, p ≤ skip p) (h : Covers skip size pos ns)
    (hpos : pos ≤ size) : ∀ n ∈ ns, pos ≤ n.start := by
  induction ns generalizing pos with
  | nil => exact nofun
  | cons m ns ih =>
    obtain ⟨hstart, hlt, hle, hrest⟩ := h
    have hpos' : pos ≤ m.start := hstart ▸ hskip pos hpos
    intro n hn
    rcases List.mem_cons.1 hn with rfl | hn
    · exact hpos'
    · have := ih hrest hle n hn
      omega

/-- The nodes stand one behind the other. -/
theorem pairwise (hskip : ∀ p ≤ size, p ≤ skip p) (h : Covers skip size pos ns) :
    ns.Pairwise fun m n => m.stop ≤ n.start := by
  induction ns generalizing pos with
  | nil => exact .nil
  | cons m ns ih =>
    obtain ⟨_, _, hle, hrest⟩ := h
    exact List.pairwise_cons.2 ⟨hrest.le_start hskip hle, ih hrest⟩

/-- No node is empty, and none starts with what is skipped. -/
theorem settled (hskip : ∀ p, skip (skip p) = skip p) (h : Covers skip size pos ns) :
    ∀ n ∈ ns, n.start < n.stop ∧ n.stop ≤ size ∧ skip n.start = n.start := by
  induction ns generalizing pos with
  | nil => exact nofun
  | cons m ns ih =>
    obtain ⟨hstart, hlt, hle, hrest⟩ := h
    refine List.forall_mem_cons.2 ⟨⟨hlt, hle, ?_⟩, ih hrest⟩
    rw [hstart, hskip]

end Covers

namespace Session

open Catalog

variable {s : Session} {n : Node}

/-! ## Error nodes -/

/-- An error node has nothing below it. -/
def Childless (n : Node) : Prop := n.isError = true → n.children = []

theorem childless_parse (ht : Shipped s.table) {limit : Nat} {root : Node} {μ : Memo}
    (h : s.parse limit {} = .ok root μ) :
    root.isError = false ∧ Node.Throughout Childless root.children := by
  have hsourced : s.Sourced Childless (· = Node.errorKind) :=
    sourced_errors ht (fun _ hkind herror => absurd (eq_of_beq herror) hkind)
      fun _ _ _ _ _ _ _ => rfl
  obtain ⟨hkind, hnodes⟩ :=
    throughout_parse (fun _ _ hm => hm.throughout hsourced) (fun _ _ _ _ => rfl) h
  refine ⟨?_, hnodes⟩
  have hstart : root.kind = "translation_unit" := hkind.trans ht.settings.1
  unfold Node.isError
  rw [hstart]
  decide

/-- The error nodes of a text are among the nodes that cover it. -/
theorem filter_isError_sublist (ht : Shipped s.table) {limit : Nat} {root : Node} {μ : Memo}
    (h : s.parse limit {} = .ok root μ) :
    (root.walk.filter (·.isError)).Sublist (Node.tips root.children) := by
  obtain ⟨hroot, hnodes⟩ := childless_parse ht h
  have hwalk : root.walk.filter (·.isError) =
      ((Node.walkAll root.children).filter (·.isError)).filter (·.children.isEmpty) := by
    rw [Node.walk_eq, List.filter_cons_of_neg (by rw [hroot]; exact Bool.false_ne_true)]
    refine (List.filter_eq_self.2 fun n hn => ?_).symm
    obtain ⟨hn, herror⟩ := List.mem_filter.1 hn
    rw [hnodes n hn herror]
    rfl
  rw [hwalk, List.filter_comm]
  exact List.filter_sublist

theorem covers_parse (ht : Shipped s.table) {limit : Nat} {root : Node} {μ : Memo}
    (h : s.parse limit {} = .ok root μ) : Covers s.skip s.size 0 (Node.tips root.children) := by
  obtain ⟨stop, htiles, hstop, hskip⟩ := parse_tiles (certified ht) h
  have hcovers : Covers s.skip s.size 0 (Node.tips root.children ++ []) := htiles.covers hstop hskip
  rwa [List.append_nil] at hcovers

/-- What is not skipped does not begin with a newline. -/
theorem getElem?_ne_newline (hs : s.SkipsBlanks) {pos : Nat} (hpos : s.skip pos = pos) :
    s.text[pos]? ≠ some '\n' := by
  intro hnewline
  have hlt : pos < s.size := (Array.getElem?_eq_some_iff.1 hnewline).1
  have hbehind : pos + 1 ≤ s.skip (pos + 1) := le_skip hlt
  rw [← skip_blank hs hnewline (by decide), hpos] at hbehind
  omega

/-- The first line of a node that is not empty and starts with nothing to skip is not empty. -/
theorem found_ne_empty (hs : s.SkipsBlanks) (hlt : n.start < n.stop) (hstop : n.stop ≤ s.size)
    (hstart : s.skip n.start = n.start) : (Diagnostic.ofNode s.text.toList n).found ≠ "" := by
  have hin : n.start < s.text.toList.length := by
    rw [Array.length_toList]
    exact Nat.lt_of_lt_of_le hlt hstop
  have hnewline : s.text.toList[n.start] ≠ '\n' := by
    intro h
    refine getElem?_ne_newline hs hstart ?_
    rw [← Array.getElem?_toList, List.getElem?_eq_getElem hin, h]
  obtain ⟨width, hwidth⟩ : ∃ width, n.stop - n.start = width + 1 := ⟨n.stop - n.start - 1, by omega⟩
  have htext : n.text s.text.toList =
      s.text.toList[n.start] :: (s.text.toList.drop (n.start + 1)).take width := by
    unfold Node.text
    rw [hwidth, List.drop_eq_getElem_cons hin, List.take_succ_cons]
  intro hempty
  have hnil : (Diagnostic.ofNode s.text.toList n).found.toList = [] := by rw [hempty]; rfl
  simp only [Diagnostic.ofNode, String.toList_ofList] at hnil
  rw [htext, firstLine,
    List.takeWhile_cons_of_pos (p := (· != '\n')) (bne_iff_ne.2 hnewline)] at hnil
  cases hnil

end Session

/-! ## Ready-made grammars -/

namespace ParseTable

variable {table : ParseTable} {recover : Bool} {text : List Char} {limit : Nat} {tree : Tree}

theorem diagnostics_eq (h : table.parse recover false text limit = .ok tree) :
    tree.diagnostics = (tree.root.walk.filter (·.isError)).map (Diagnostic.ofNode text) := by
  unfold parse at h
  split at h
  · cases h
  · cases h
    rfl

theorem diagnostics_settled (ht : Catalog.Shipped table)
    (h : table.parse recover false text limit = .ok tree) : ∀ d ∈ tree.diagnostics,
      d.start < d.stop ∧ d.stop ≤ text.length ∧
        table.grammar.extras.skip text.toArray d.start = d.start ∧ d.found ≠ "" := by
  obtain ⟨μ, hroot⟩ := parse_eq_ok h
  have hskip := (Session.certified (s := ⟨table, recover, text.toArray⟩) ht).skip
  have hcovers := Session.covers_parse ht hroot
  have hsublist := Session.filter_isError_sublist ht hroot
  rw [diagnostics_eq h]
  intro d hd
  obtain ⟨n, hn, rfl⟩ := List.mem_map.1 hd
  obtain ⟨hlt, hle, hsettled⟩ := hcovers.settled hskip n (hsublist.subset hn)
  refine ⟨hlt, ?_, hsettled, Session.found_ne_empty ht.skipsBlanks hlt hle hsettled⟩
  rwa [← List.size_toArray]

theorem diagnostics_pairwise (ht : Catalog.Shipped table)
    (h : table.parse recover false text limit = .ok tree) :
    tree.diagnostics.Pairwise fun d e => d.start < e.start ∧ d.stop ≤ e.start := by
  obtain ⟨μ, hroot⟩ := parse_eq_ok h
  have hbehind : tree.diagnostics.Pairwise fun d e => d.stop ≤ e.start := by
    have htips := (Session.covers_parse ht hroot).pairwise fun _ => Session.le_skip
    rw [diagnostics_eq h]
    exact (htips.sublist (Session.filter_isError_sublist ht hroot)).map _ fun _ _ hle => hle
  refine hbehind.imp_of_mem fun hd _ hle => ⟨?_, hle⟩
  exact Nat.lt_of_lt_of_le (diagnostics_settled ht h _ hd).1 hle

/-- **Diagnostics are in the order of the text.** With and without recovery, the diagnostics of a
tree of a ready-made grammar are those of its error nodes, in walk order; they are not empty, do not
overlap and come one after the other, none starts with extras, and something is found in each. Where
errors are not allowed, the text has the same tree if it has no diagnostics; else it has none, and is
rejected with all of them and the description of the leftmost one. -/
theorem parse_diagnostics (ht : Catalog.Shipped table)
    (h : table.parse recover false text limit = .ok tree) :
    tree.diagnostics = (tree.root.walk.filter (·.isError)).map (Diagnostic.ofNode text) ∧
    (∀ d ∈ tree.diagnostics, d.start < d.stop ∧ d.stop ≤ text.length ∧
      table.grammar.extras.skip text.toArray d.start = d.start ∧ d.found ≠ "") ∧
    tree.diagnostics.Pairwise (fun d e => d.start < e.start ∧ d.stop ≤ e.start) ∧
    tree.hasError = !tree.diagnostics.isEmpty ∧
    (tree.diagnostics = [] → table.parse recover true text limit = .ok tree) ∧
    (tree.diagnostics ≠ [] → ∃ e, table.parse recover true text limit = .error e ∧
      e.diagnostics = tree.diagnostics ∧ ∃ leftmost ∈ tree.diagnostics,
        e.message = leftmost.format ∧
          ∀ d ∈ tree.diagnostics, d ≠ leftmost → leftmost.start < d.start) := by
  have hordered := diagnostics_pairwise ht h
  refine ⟨diagnostics_eq h, diagnostics_settled ht h, hordered, tree.hasError_eq, ?_⟩
  rcases table.parse_strict recover text limit with ⟨hdeep, -⟩ | ⟨tree', htree, hstrict⟩
  · cases hdeep.symm.trans h
  cases htree.symm.trans h
  rcases hstrict with ⟨hnone, hok⟩ | ⟨first, others, hsome, herror⟩
  · exact ⟨fun _ => hok, fun hne => absurd hnone hne⟩
  · rw [hsome] at hordered ⊢
    refine ⟨nofun, fun _ => ⟨_, herror, rfl, first, List.mem_cons_self, rfl, fun d hd hne => ?_⟩⟩
    rcases List.mem_cons.1 hd with rfl | hd
    · exact absurd rfl hne
    · exact ((List.pairwise_cons.1 hordered).1 d hd).1

/-- A bracket that was never opened and an operator without operands: where errors are not allowed,
the bracket is the message. -/
theorem parse_diagnostics_stray : ∃ table tree e leftmost, Catalog.cTable.outcome = .ok table ∧
    table.parse true false ['\x7d', '='] 12 = .ok tree ∧
    tree.diagnostics.map (fun d => (d.start, d.found)) = [(0, "\x7d"), (1, "=")] ∧
    tree.diagnostics.Pairwise (fun d d' => d.start < d'.start ∧ d.stop ≤ d'.start) ∧
    table.parse true true ['\x7d', '='] 12 = .error e ∧ e.diagnostics = tree.diagnostics ∧
    leftmost ∈ tree.diagnostics ∧ e.message = leftmost.format ∧
    ∀ d ∈ tree.diagnostics, d ≠ leftmost → leftmost.start < d.start := by
  obtain ⟨table, tree, htable, htree, _, hfound⟩ := Catalog.exists_stray
  have hne : tree.diagnostics ≠ [] := by
    intro hnone
    rw [hnone] at hfound
    cases hfound
  obtain ⟨-, -, hordered, -, -, hstrict⟩ := parse_diagnostics (.inl htable) htree
  obtain ⟨e, herror, hall, leftmost, hmem, hmessage, hleft⟩ := hstrict hne
  exact ⟨table, tree, e, leftmost, htable, htree, hfound, hordered, herror, hall, hmem, hmessage,
    hleft⟩

end ParseTable

end LayeredGrammar
