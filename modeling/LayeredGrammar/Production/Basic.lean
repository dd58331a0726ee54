/-!
# Productions

A production is the body of a grammar rule or a part of one: literals, references to rules and
tokens, sequences, choices, repetitions and options, together with three annotations that do not
change what is matched: field names, node kinds and precedences.

The views of this module are the ones the rest of the library works with: `walk` (the production
and everything below it, in preorder), the references and literals met on the way, the
alternatives of a rule body (`alternatives`), and the label of a single alternative (`label?`).
-/

namespace LayeredGrammar

/-- The side to which equal operators group. -/
inductive Assoc where
  | left
  | right
  deriving DecidableEq, Repr

/-- The side of its operand on which a one-operand operator stands. -/
inductive Fixity where
  | prefixOp
  | postfixOp
  deriving DecidableEq, Repr

/-- A rule body or a part of one. -/
inductive Production where
  /-- A literal text. -/
  | lit (value : String)
  /-- A rule or a token by name. -/
  | ref (name : String)
  /-- The items one after another. -/
  | seq (items : List Production)
  /-- One of the members. -/
  | choice (members : List Production)
  /-- At least `least` copies; with `recover`, text that fits none of them becomes an error
  region. -/
  | rep (content : Production) (least : Int) (recover : Bool)
  /-- The content or nothing. -/
  | opt (content : Production)
  /-- Nothing. -/
  | blank
  /-- The content, its nodes carrying a field name. -/
  | field (name : String) (content : Production)
  /-- The content under a node of the given kind. -/
  | renamed (content : Production) (kind : String)
  /-- An alternative with a precedence. -/
  | prec (value : Int) (content : Production) (assoc : Assoc) (unary : Option Fixity)
  deriving Repr, Inhabited

namespace Production

/-! ## Equality -/

mutual

/-- Whether two productions are built alike. -/
def same : Production → Production → Bool
  | .lit v, .lit w => v == w
  | .ref n, .ref m => n == m
  | .seq xs, .seq ys => sameAll xs ys
  | .choice xs, .choice ys => sameAll xs ys
  | .rep p i b, .rep q j c => same p q && i == j && b == c
  | .opt p, .opt q => same p q
  | .blank, .blank => true
  | .field n p, .field m q => n == m && same p q
  | .renamed p k, .renamed q l => same p q && k == l
  | .prec v p a u, .prec w q b t => v == w && same p q && a == b && u == t
  | _, _ => false

/-- Whether two lists of productions are built alike. -/
def sameAll : List Production → List Production → Bool
  | [], [] => true
  | p :: ps, q :: qs => same p q && sameAll ps qs
  | _, _ => false

end

mutual

theorem same_self : ∀ p : Production, same p p = true
  | .lit _ => by simp [same]
  | .ref _ => by simp [same]
  | .seq xs => by simp [same, sameAll_self xs]
  | .choice xs => by simp [same, sameAll_self xs]
  | .rep p _ _ => by simp [same, same_self p]
  | .opt p => by simp [same, same_self p]
  | .blank => by simp [same]
  | .field _ p => by simp [same, same_self p]
  | .renamed p _ => by simp [same, same_self p]
  | .prec _ p _ _ => by simp [same, same_self p]

theorem sameAll_self : ∀ ps : List Production, sameAll ps ps = true
  | [] => by simp [sameAll]
  | p :: ps => by simp [sameAll, same_self p, sameAll_self ps]

end

mutual

theorem eq_of_same : ∀ p q : Production, same p q = true → p = q
  | .lit _, q, h => by cases q <;> simp_all [same]
  | .ref _, q, h => by cases q <;> simp_all [same]
  | .seq xs, q, h => by
    cases q with
    | seq ys => rw [eq_of_sameAll xs ys (by simpa [same] using h)]
    | _ => simp [same] at h
  | .choice xs, q, h => by
    cases q with
    | choice ys => rw [eq_of_sameAll xs ys (by simpa [same] using h)]
    | _ => simp [same] at h
  | .rep p _ _, q, h => by
    cases q with
    | rep p' _ _ =>
      simp only [same, Bool.and_eq_true, beq_iff_eq] at h
      rw [eq_of_same p p' h.1.1, h.1.2, h.2]
    | _ => simp [same] at h
  | .opt p, q, h => by
    cases q with
    | opt p' => rw [eq_of_same p p' (by simpa [same] using h)]
    | _ => simp [same] at h
  | .blank, q, h => by cases q <;> simp_all [same]
  | .field _ p, q, h => by
    cases q with
    | field _ p' =>
      simp only [same, Bool.and_eq_true, beq_iff_eq] at h
      rw [h.1, eq_of_same p p' h.2]
    | _ => simp [same] at h
  | .renamed p _, q, h => by
    cases q with
    | renamed p' _ =>
      simp only [same, Bool.and_eq_true, beq_iff_eq] at h
      rw [h.2, eq_of_same p p' h.1]
    | _ => simp [same] at h
  | .prec _ p _ _, q, h => by
    cases q with
    | prec _ p' _ _ =>
      simp only [same, Bool.and_eq_true, beq_iff_eq] at h
      rw [h.1.1.1, eq_of_same p p' h.1.1.2, h.1.2, h.2]
    | _ => simp [same] at h

theorem eq_of_sameAll : ∀ ps qs : List Production, sameAll ps qs = true → ps = qs
  | [], qs, h => by cases qs <;> simp_all [sameAll]
  | p :: ps, qs, h => by
    cases qs with
    | nil => simp [sameAll] at h
    | cons q qs =>
      simp only [sameAll, Bool.and_eq_true] at h
      rw [eq_of_same p q h.1, eq_of_sameAll ps qs h.2]

end

instance : DecidableEq Production := fun p q =>
  decidable_of_iff (same p q = true) ⟨eq_of_same p q, fun h => h ▸ same_self p⟩

/-! ## Views -/

/-- The productions directly below one. -/
def children : Production → List Production
  | .seq items => items
  | .choice members => members
  | .rep p _ _ | .opt p | .field _ p | .renamed p _ | .prec _ p _ _ => [p]
  | .lit _ | .ref _ | .blank => []

mutual

/-- A production and everything below it, each before its children. -/
def walk : Production → List Production
  | .lit v => [.lit v]
  | .ref n => [.ref n]
  | .seq items => .seq items :: walkAll items
  | .choice members => .choice members :: walkAll members
  | .rep p least recover => .rep p least recover :: walk p
  | .opt p => .opt p :: walk p
  | .blank => [.blank]
  | .field n p => .field n p :: walk p
  | .renamed p k => .renamed p k :: walk p
  | .prec v p a u => .prec v p a u :: walk p

/-- The walks of several productions in a row. -/
def walkAll : List Production → List Production
  | [] => []
  | p :: ps => walk p ++ walkAll ps

end

/-- The production reached by child positions from the top. -/
def descendant? : Production → List Nat → Option Production
  | p, [] => some p
  | p, i :: path => p.children[i]?.bind (descendant? · path)

/-- The name a reference gives. -/
def refName? : Production → Option String
  | .ref n => some n
  | _ => none

/-- The text a literal gives. -/
def litValue? : Production → Option String
  | .lit v => some v
  | _ => none

/-- Names referred to, in walk order. -/
def references (p : Production) : List String := p.walk.filterMap refName?

/-- Literal texts, in walk order. -/
def literals (p : Production) : List String := p.walk.filterMap litValue?

mutual

/-- The alternatives of a rule body: choices at the top are opened in order. -/
def alternatives : Production → List Production
  | .choice members => alternativesAll members
  | p => [p]

/-- The alternatives of several bodies in a row. -/
def alternativesAll : List Production → List Production
  | [] => []
  | p :: ps => alternatives p ++ alternativesAll ps

end

/-- The rule or node kind that names an alternative, if any. -/
def label? : Production → Option String
  | .field _ p => label? p
  | .prec _ p _ _ => label? p
  | .renamed _ kind => some kind
  | .ref n => some n
  | _ => none

/-- The field names around a production, innermost first, and what they enclose. -/
def unfield : Production → List String × Production
  | .field n p => ((unfield p).1 ++ [n], (unfield p).2)
  | p => ([], p)

/-- The field names around a reference to `rule`, innermost first, if the production is one. -/
def selfFields? (rule : String) (p : Production) : Option (List String) :=
  if p.unfield.2 = .ref rule then some p.unfield.1 else none

end Production

end LayeredGrammar
