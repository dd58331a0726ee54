import LayeredGrammar.Engine.Match
import LayeredGrammar.Proofs.Grammar.Alternatives

/-!
# Kinds that mask error regions

A renamed reference to a rule gives its kind to the node of that rule. The match of a hidden rule can
be a single error region, which then has the kind in place of its own: the kinds given to hidden
rules mask errors.
-/

namespace LayeredGrammar

/-- The kind under which a production masks an error region: it gives its kind to a hidden rule, which
may consist of such a region alone. -/
def Production.mask? (g : Grammar) : Production → Option String
  | .renamed (.ref rule) kind =>
    if g.rules.has rule && Match.isHidden rule then some kind else none
  | _ => none

/-- The kinds under which a production, or one below it, masks error regions. -/
def Production.masks (g : Grammar) (p : Production) : List String := p.walk.filterMap (mask? g)

/-- The kinds under which the rules of a grammar mask error regions. -/
def Grammar.masks (g : Grammar) : List String := g.rules.flatMap (·.2.masks g)

/-- Whether a node can stand for an error region: it is one, or it has no children and a kind that
masks one. -/
def Node.isSuspect (masks : List String) (n : Node) : Bool :=
  n.named && n.children.isEmpty && (n.isError || masks.contains n.kind)

/-- The masks in the elements of alternatives are masks of the grammar. -/
theorem ParseTable.Offers.masks_element {t : ParseTable} {rule : String} {a : Alternative}
    {e : Element} (ha : t.Offers rule a) (he : e ∈ a.elements) :
    e.body.masks t.grammar ⊆ t.grammar.masks := by
  intro kind hk
  obtain ⟨body, index, layered, p, hb, hp, rfl⟩ := ha
  obtain ⟨r, hr, hmask⟩ := List.mem_filterMap.1 hk
  refine List.mem_flatMap.2 ⟨_, NameTable.mem_of_get? hb, List.mem_filterMap.2 ⟨r, ?_, hmask⟩⟩
  exact Production.walk_of_alternative body hp (Alternative.walk_of_element he hr)

end LayeredGrammar
