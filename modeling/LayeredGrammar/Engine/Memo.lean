import LayeredGrammar.Engine.Match
import Std.Data.TreeMap

/-!
# Remembered matches

The engine asks for the same rule at the same position again and again, so the answers are
remembered, keyed by rule, position and least precedence. A rule is also marked while it is being
matched; asked for again meanwhile it does not match, and what is computed from that answer is
remembered as it is.

The only way for the engine to fail is to run into its limit on nested rules.
-/

namespace LayeredGrammar

/-- What is asked for: a rule at a position, with the least precedence its growth may use. -/
structure MemoKey where
  rule : String
  pos : Nat
  minPrec : Int
  deriving DecidableEq, Repr

namespace MemoKey

/-- Keys are ordered by position, then precedence, then rule. -/
def order : MemoKey → MemoKey → Ordering :=
  compareLex (compareOn pos) (compareLex (compareOn minPrec) (compareOn rule))

instance : Std.TransCmp order :=
  inferInstanceAs
    (Std.TransCmp (compareLex (compareOn pos) (compareLex (compareOn minPrec) (compareOn rule))))

theorem order_eq_iff {a b : MemoKey} : order a b = .eq ↔ a = b := by
  cases a
  cases b
  simp only [order, compareLex, compareOn, Ordering.then_eq_eq, Std.compare_eq_iff_eq, mk.injEq]
  grind

instance : Std.LawfulEqCmp order where
  compare_self := order_eq_iff.2 rfl
  eq_of_compare h := order_eq_iff.1 h

end MemoKey

/-- What is remembered under a key. -/
inductive MemoEntry where
  /-- The rule is being matched. -/
  | active
  /-- The rule was matched, or did not match. -/
  | known (m : Option Match)
  deriving DecidableEq, Repr

/-- Remembered matches. -/
abbrev Memo := Std.TreeMap MemoKey MemoEntry MemoKey.order

theorem Memo.getElem?_insert_eq (memo : Memo) (k a : MemoKey) (e : MemoEntry) :
    (memo.insert k e)[a]? = if k = a then some e else memo[a]? := by
  rw [Std.TreeMap.getElem?_insert]
  simp only [MemoKey.order_eq_iff]

/-- The limit on nested rules was reached. -/
inductive TooDeep where
  | tooDeep
  deriving DecidableEq, Repr

/-- A step of the engine: it reads and extends the memo, also when it runs into the limit. -/
abbrev Engine := EStateM TooDeep Memo

namespace Engine

/-- Note what is known under a key. -/
def record (key : MemoKey) (entry : MemoEntry) : Engine Unit := modify (·.insert key entry)

/-- The remembered answer, or that of `compute`. A rule that is being matched does not match. -/
def remembered (key : MemoKey) (compute : Engine (Option Match)) : Engine (Option Match) := do
  match (← get)[key]? with
  | some .active => pure none
  | some (.known m) => pure m
  | none => compute

end Engine

end LayeredGrammar
