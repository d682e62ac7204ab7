import Fluxion.Operator
import Fluxion.Scalar

/-!
# Expressions

Expressions are trees over numbers, variables and binary operators. While a derivative is being
computed, a tree also holds *markers*: a marker stands for the derivative of its target, which has yet
to be worked out. A tree that was put together by hand may have a hole where an operand should be.
-/

namespace Fluxion

/-- An expression tree with numbers of type `α`. -/
inductive Expr (α : Type) where
  /-- A number. -/
  | num (value : α)
  /-- A variable. -/
  | var (name : String)
  /-- An operator applied to two operands. -/
  | bin (op : Operator) (left right : Expr α)
  /-- A marker for the derivative of `target`. -/
  | pending (target : Expr α)
  /-- A missing operand. -/
  | hole
deriving DecidableEq, Repr, Inhabited

namespace Expr

variable {α : Type}

/-- The sum of two expressions. -/
abbrev add (l r : Expr α) : Expr α := bin .add l r

/-- The difference of two expressions. -/
abbrev sub (l r : Expr α) : Expr α := bin .sub l r

/-- The product of two expressions. -/
abbrev mul (l r : Expr α) : Expr α := bin .mul l r

/-- The quotient of two expressions. -/
abbrev div (l r : Expr α) : Expr α := bin .div l r

/-- An expression raised to a literal exponent. -/
abbrev pow (base : Expr α) (exponent : α) : Expr α := bin .pow base (num exponent)

/-- No operand is missing anywhere in the tree. -/
def isWhole : Expr α → Bool
  | num _ => true
  | var _ => true
  | bin _ l r => l.isWhole && r.isWhole
  | pending t => t.isWhole
  | hole => false

/-- The number of nodes on the longest path from the root; a hole is no node. -/
def depth : Expr α → Nat
  | num _ => 1
  | var _ => 1
  | bin _ l r => 1 + max l.depth r.depth
  | pending t => 1 + t.depth
  | hole => 0

/-- The same tree, numbers being compared as scalars compare. -/
def same [BEq α] : Expr α → Expr α → Bool
  | num a, num b => a == b
  | var x, var y => x == y
  | bin o l r, bin o' l' r' => o == o' && l.same l' && r.same r'
  | pending t, pending t' => t.same t'
  | hole, hole => true
  | _, _ => false

/-- The expression is a number equal to `v`. -/
def isNumber [BEq α] (v : α) : Expr α → Bool
  | num a => a == v
  | _ => false

/-- The expression is a product whose left factor is minus one. -/
def isNegation [Scalar α] : Expr α → Bool
  | bin .mul l _ => l.isNumber (-1)
  | _ => false

end Expr

end Fluxion
