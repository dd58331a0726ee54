import LayeredGrammar.Proofs.Grammar.Alternatives
import LayeredGrammar.Proofs.Grammar.Stacked

/-!
# Changes of several layers

`Template.after` puts one change of a rule after another, so that a chain of changes is a template
again (`Template.chain`). If each of them keeps the body it inherits, the chain keeps the body it
started with (`Template.keepsInherited_chain`): a place stays a place when the body around it is put
into a place itself.

`Merged.Climbs` runs through several layers, each of which does to those below it what
`Merged.Extended` says.
-/

namespace LayeredGrammar

/-! ## Chains of changes -/

namespace Template

mutual

/-- A template whose places do not count as keeping the inherited body. -/
def detached : Template → Template
  | .inherited => .replica
  | .replica => .replica
  | .fixed p => .fixed p
  | .seq items => .seq (detachedAll items)
  | .choice members => .choice (detachedAll members)
  | .rep t least recover => .rep (detached t) least recover
  | .opt t => .opt (detached t)
  | .field name t => .field name (detached t)
  | .renamed t kind => .renamed (detached t) kind
  | .prec value t assoc unary => .prec value (detached t) assoc unary

/-- Several templates whose places do not count. -/
def detachedAll : List Template → List Template
  | [] => []
  | t :: ts => detached t :: detachedAll ts

end

mutual

/-- A template for what the other has made of the inherited body. A copy of that body keeps nothing of
what is in it. -/
def after (inner : Template) : Template → Template
  | .inherited => inner
  | .replica => inner.detached
  | .fixed p => .fixed p
  | .seq items => .seq (afterAll inner items)
  | .choice members => .choice (afterAll inner members)
  | .rep t least recover => .rep (after inner t) least recover
  | .opt t => .opt (after inner t)
  | .field name t => .field name (after inner t)
  | .renamed t kind => .renamed (after inner t) kind
  | .prec value t assoc unary => .prec value (after inner t) assoc unary

/-- Several templates for what the other has made of the inherited body. -/
def afterAll (inner : Template) : List Template → List Template
  | [] => []
  | t :: ts => after inner t :: afterAll inner ts

end

/-- Changes one after another, the first one first. -/
def chain (ts : List Template) : Template := ts.foldl after .inherited

mutual

theorem fill_detached (body : Production) : ∀ t : Template, t.detached.fill body = t.fill body
  | .inherited | .replica | .fixed _ => rfl
  | .seq items => congrArg Production.seq (fillAll_detached body items)
  | .choice members => congrArg Production.choice (fillAll_detached body members)
  | .rep t least recover => congrArg (Production.rep · least recover) (fill_detached body t)
  | .opt t => congrArg Production.opt (fill_detached body t)
  | .field name t => congrArg (Production.field name) (fill_detached body t)
  | .renamed t kind => congrArg (Production.renamed · kind) (fill_detached body t)
  | .prec value t assoc unary =>
    congrArg (Production.prec value · assoc unary) (fill_detached body t)

theorem fillAll_detached (body : Production) : ∀ ts : List Template,
    fillAll body (detachedAll ts) = fillAll body ts
  | [] => rfl
  | t :: ts => congrArg₂ List.cons (fill_detached body t) (fillAll_detached body ts)

end

mutual

theorem keepsInherited_detached : ∀ t : Template, t.detached.keepsInherited = false
  | .inherited | .replica | .fixed _ => rfl
  | .seq items | .choice items => anyKeepsInherited_detached items
  | .rep t _ _ | .opt t | .field _ t | .renamed t _ | .prec _ t _ _ => keepsInherited_detached t

theorem anyKeepsInherited_detached : ∀ ts : List Template,
    anyKeepsInherited (detachedAll ts) = false
  | [] => rfl
  | t :: ts => by
    rw [detachedAll, anyKeepsInherited, keepsInherited_detached t, anyKeepsInherited_detached ts]
    rfl

end

mutual

/-- A template after another makes of a body what it makes of the other's. -/
theorem fill_after (inner : Template) (body : Production) : ∀ t : Template,
    (after inner t).fill body = t.fill (inner.fill body)
  | .inherited => rfl
  | .replica => fill_detached body inner
  | .fixed _ => rfl
  | .seq items => congrArg Production.seq (fillAll_after inner body items)
  | .choice members => congrArg Production.choice (fillAll_after inner body members)
  | .rep t least recover => congrArg (Production.rep · least recover) (fill_after inner body t)
  | .opt t => congrArg Production.opt (fill_after inner body t)
  | .field name t => congrArg (Production.field name) (fill_after inner body t)
  | .renamed t kind => congrArg (Production.renamed · kind) (fill_after inner body t)
  | .prec value t assoc unary =>
    congrArg (Production.prec value · assoc unary) (fill_after inner body t)

theorem fillAll_after (inner : Template) (body : Production) : ∀ ts : List Template,
    fillAll body (afterAll inner ts) = fillAll (inner.fill body) ts
  | [] => rfl
  | t :: ts => congrArg₂ List.cons (fill_after inner body t) (fillAll_after inner body ts)

end

mutual

/-- A template after another keeps the body that the other inherits if both keep theirs. -/
theorem keepsInherited_after (inner : Template) : ∀ t : Template,
    (after inner t).keepsInherited = (t.keepsInherited && inner.keepsInherited)
  | .inherited => (Bool.true_and _).symm
  | .replica => keepsInherited_detached inner
  | .fixed _ => rfl
  | .seq items | .choice items => anyKeepsInherited_after inner items
  | .rep t _ _ | .opt t | .field _ t | .renamed t _ | .prec _ t _ _ => keepsInherited_after inner t

theorem anyKeepsInherited_after (inner : Template) : ∀ ts : List Template,
    anyKeepsInherited (afterAll inner ts) = (anyKeepsInherited ts && inner.keepsInherited)
  | [] => rfl
  | t :: ts => by
    rw [afterAll, anyKeepsInherited, anyKeepsInherited, keepsInherited_after inner t,
      anyKeepsInherited_after inner ts, Bool.and_or_distrib_right]

end

/-- A chain makes of a body what its changes make of it one after another. -/
theorem fill_chain (ts : List Template) (body : Production) :
    (chain ts).fill body = ts.foldl (fun p t => t.fill p) body := by
  have hfold : ∀ inner : Template,
      (ts.foldl after inner).fill body = ts.foldl (fun p t => t.fill p) (inner.fill body) := by
    induction ts with
    | nil => exact fun _ => rfl
    | cons t ts ih => exact fun inner => (ih (after inner t)).trans (by rw [fill_after]; rfl)
  exact hfold .inherited

/-- **A chain of changes that keep what they inherit keeps the first body.** -/
theorem keepsInherited_chain {ts : List Template} (h : ∀ t ∈ ts, t.keepsInherited = true) :
    (chain ts).keepsInherited = true := by
  have hfold : ∀ inner : Template, inner.keepsInherited = true →
      (ts.foldl after inner).keepsInherited = true := by
    induction ts with
    | nil => exact fun _ hinner => hinner
    | cons t ts ih =>
      intro inner hinner
      rw [List.forall_mem_cons] at h
      exact ih h.2 _ (by rw [keepsInherited_after, h.1, hinner]; rfl)
  exact hfold .inherited rfl

mutual

/-- A body that is kept is part of the new one. -/
theorem mem_walk_fill {body : Production} : ∀ (t : Template), t.keepsInherited = true →
    body ∈ (t.fill body).walk
  | .inherited, _ => Production.mem_walk_self body
  | .seq items, h => List.mem_cons_of_mem _ (mem_walkAll_fill items h)
  | .choice members, h => List.mem_cons_of_mem _ (mem_walkAll_fill members h)
  | .rep t _ _, h | .opt t, h | .field _ t, h | .renamed t _, h | .prec _ t _ _, h =>
    List.mem_cons_of_mem _ (mem_walk_fill t h)

theorem mem_walkAll_fill {body : Production} : ∀ (ts : List Template), anyKeepsInherited ts = true →
    body ∈ Production.walkAll (fillAll body ts)
  | t :: ts, h => by
    rw [fillAll, Production.walkAll, List.mem_append]
    rcases Bool.or_eq_true_iff.1 h with h | h
    · exact Or.inl (mem_walk_fill t h)
    · exact Or.inr (mem_walkAll_fill ts h)

end

end Template

namespace Merged

variable {l : Layer} {m m' : Merged}

/-! ## Running through layers -/

/-- Layers put on top of each other, one by one. -/
inductive Climbs : List Layer → Merged → Merged → Prop
  | done {m : Merged} : Climbs [] m m
  | step {l : Layer} {ls m m' top} (h : Extended l m m') (hs : Climbs ls m' top) :
    Climbs (l :: ls) m top

theorem climbs_foldlM : ∀ (ls : List Layer) (m m' : Merged),
    (ls.foldlM (addLayer true) m).outcome = .ok m' → Climbs ls m m'
  | [], _, _, h => by
    cases h
    exact .done
  | l :: ls, m, m', h => by
    rw [List.foldlM_cons] at h
    obtain ⟨next, hnext, h⟩ := Traced.outcome_bind.1 h
    exact .step (extended_addLayer hnext) (climbs_foldlM ls next m' h)

theorem climbs_ofLayers {layers : List Layer} (h : (ofLayers layers).outcome = .ok m) :
    Climbs layers {} m := by
  cases layers with
  | nil => cases h
  | cons base above =>
    unfold ofLayers at h
    obtain ⟨first, hfirst, h⟩ := Traced.outcome_bind.1 h
    exact .step (extended_addLayer hfirst) (climbs_foldlM above first m h)

/-- Layers merge if those on top of them do. -/
theorem ofLayers_split {below above : List Layer} (hne : below ≠ [])
    (h : (ofLayers (below ++ above)).outcome = .ok m) :
    ∃ lower, (ofLayers below).outcome = .ok lower ∧ Climbs above lower m := by
  cases below with
  | nil => exact absurd rfl hne
  | cons base below =>
    rw [List.cons_append] at h
    unfold ofLayers at h ⊢
    obtain ⟨first, hfirst, h⟩ := Traced.outcome_bind.1 h
    rw [List.foldlM_append] at h
    obtain ⟨lower, hlower, h⟩ := Traced.outcome_bind.1 h
    exact ⟨lower, Traced.outcome_bind.2 ⟨first, hfirst, hlower⟩, climbs_foldlM above lower m h⟩

theorem Climbs.split {below above : List Layer} (h : Climbs (below ++ above) m m') :
    ∃ lower, Climbs below m lower ∧ Climbs above lower m' := by
  induction below generalizing m with
  | nil => exact ⟨m, .done, h⟩
  | cons l below ih =>
    cases h with
    | step hl h =>
      obtain ⟨lower, hbelow, habove⟩ := ih h
      exact ⟨lower, .step hl hbelow, habove⟩

end Merged

end LayeredGrammar
