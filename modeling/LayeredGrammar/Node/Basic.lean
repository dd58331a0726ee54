import LayeredGrammar.Names

/-!
# Syntax trees

A node has a kind, a span of the source and children. Named nodes come from rules, tokens and
renamed productions; unnamed ones are literals, whose kind is their text. Fields name children by
position, the innermost name of a child first. An error node covers a region that fits nothing and
remembers what could have started there.
-/

namespace LayeredGrammar

/-- A node of a syntax tree. -/
structure Node where
  kind : String
  start : Nat
  stop : Nat
  children : List Node := []
  named : Bool := true
  /-- Field names with the position of the child they name. -/
  fields : List (String × Nat) := []
  /-- What was expected where an error region starts. -/
  expected : List String := []
  deriving Repr, Inhabited

namespace Node

/-- The kind of error nodes. -/
def errorKind : String := "ERROR"

/-- An error region. -/
def error (start stop : Nat) (expected : List String) : Node :=
  { kind := errorKind, start := start, stop := stop, expected := expected }

/-- A node without children. -/
def leaf (kind : String) (start stop : Nat) (named : Bool) : Node :=
  { kind := kind, start := start, stop := stop, named := named }

/-! ## Equality -/

mutual

/-- Whether two trees are built alike. -/
def same : Node → Node → Bool
  | ⟨k, s, e, cs, n, fs, xs⟩, ⟨k', s', e', cs', n', fs', xs'⟩ =>
    k == k' && s == s' && e == e' && n == n' && fs == fs' && xs == xs' && sameAll cs cs'

/-- Whether two lists of trees are built alike. -/
def sameAll : List Node → List Node → Bool
  | [], [] => true
  | a :: as, b :: bs => same a b && sameAll as bs
  | _, _ => false

end

mutual

theorem same_self : ∀ n : Node, same n n = true
  | ⟨_, _, _, cs, _, _, _⟩ => by simp [same, sameAll_self cs]

theorem sameAll_self : ∀ ns : List Node, sameAll ns ns = true
  | [] => by simp [sameAll]
  | n :: ns => by simp [sameAll, same_self n, sameAll_self ns]

end

mutual

theorem eq_of_same : ∀ m n : Node, same m n = true → m = n
  | ⟨_, _, _, cs, _, _, _⟩, ⟨_, _, _, cs', _, _, _⟩, h => by
    simp only [same, Bool.and_eq_true, beq_iff_eq] at h
    obtain ⟨⟨⟨⟨⟨⟨rfl, rfl⟩, rfl⟩, rfl⟩, rfl⟩, rfl⟩, hcs⟩ := h
    rw [eq_of_sameAll cs cs' hcs]

theorem eq_of_sameAll : ∀ ms ns : List Node, sameAll ms ns = true → ms = ns
  | [], [], _ => rfl
  | [], _ :: _, h => by simp [sameAll] at h
  | _ :: _, [], h => by simp [sameAll] at h
  | m :: ms, n :: ns, h => by
    simp only [sameAll, Bool.and_eq_true] at h
    rw [eq_of_same m n h.1, eq_of_sameAll ms ns h.2]

end

instance : DecidableEq Node := fun m n =>
  decidable_of_iff (same m n = true) ⟨eq_of_same m n, fun h => h ▸ same_self m⟩

/-! ## Walking -/

mutual

/-- A node and everything below it, each before its children. -/
def walk : Node → List Node
  | ⟨k, s, e, cs, n, fs, xs⟩ => ⟨k, s, e, cs, n, fs, xs⟩ :: walkAll cs

/-- The walks of several nodes in a row. -/
def walkAll : List Node → List Node
  | [] => []
  | n :: ns => walk n ++ walkAll ns

end

/-- Whether a node is an error region. -/
def isError (n : Node) : Bool := n.kind == errorKind

/-- Whether a node or one below it is an error region. -/
def hasError (n : Node) : Bool := n.walk.any isError

/-- The nodes of a kind, in walk order. -/
def findAll (n : Node) (kind : String) : List Node := n.walk.filter (·.kind == kind)

/-- The node reached by child positions from the top. -/
def descendant? : Node → List Nat → Option Node
  | n, [] => some n
  | n, i :: path => n.children[i]?.bind (descendant? · path)

/-! ## Children and fields -/

/-- The part of a source a node covers. -/
def text (source : List Char) (n : Node) : List Char :=
  (source.drop n.start).take (n.stop - n.start)

/-- The children that are not literals. -/
def namedChildren (n : Node) : List Node := n.children.filter (·.named)

/-- The names of the child at a position, innermost first. -/
def fieldNamesOf (n : Node) (index : Nat) : List String :=
  (n.fields.filter (·.2 == index)).map (·.1)

/-- All field names, in the order in which they first appear. -/
def fieldNames (n : Node) : List String := (n.fields.map (·.1)).eraseDups

/-- The positions a field names, in increasing order. -/
def fieldIndices (n : Node) (name : String) : List Nat :=
  sortBy (· ≤ ·) ((n.fields.filter (·.1 == name)).map (·.2)).eraseDups

/-- The children a field names, in order, unless a position has no child. -/
def fieldAll? (n : Node) (name : String) : Option (List Node) :=
  (n.fieldIndices name).mapM (n.children[·]?)

/-- The first named child of a field, or its first child if none is named. -/
def field? (n : Node) (name : String) : Option (Option Node) :=
  (n.fieldAll? name).map fun nodes => (nodes.find? (·.named)).or nodes.head?

/-! ## Symbolic expressions -/

mutual

/-- The named nodes of a tree as a symbolic expression, each child after its first field name. -/
def sexp : Node → String
  | ⟨kind, _, _, cs, named, fs, _⟩ =>
    if named then "(" ++ " ".intercalate (kind :: sexpChildren fs 0 cs) ++ ")" else ""

/-- The named nodes among children, the first of which has the given position. -/
def sexpChildren (fields : List (String × Nat)) (index : Nat) : List Node → List String
  | [] => []
  | n :: ns =>
    let shown :=
      if n.named then
        match fields.find? (·.2 == index) with
        | some (name, _) => [name ++ ": " ++ sexp n]
        | none => [sexp n]
      else []
    shown ++ sexpChildren fields (index + 1) ns

end

end Node

end LayeredGrammar
