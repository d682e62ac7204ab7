/-!
# Operators

The five binary operators, their symbols and how tightly they bind. Trees that were not read from
text may also carry a number that stands for no operator; passes that meet one refuse it.
-/

namespace Fluxion

/-- A binary arithmetic operator. -/
inductive Operator where
  | add
  | sub
  | mul
  | div
  | pow
  /-- A code that stands for no operator. -/
  | other (code : Int)
deriving DecidableEq, Repr, Inhabited

namespace Operator

/-- The five operators, in the order of the numeric codes. -/
def standard : List Operator := [add, sub, mul, div, pow]

/-- The operator with a numeric code. -/
def ofCode (code : Int) : Operator :=
  if code < 0 then other code else (standard[code.toNat]?).getD (other code)

/-- The numeric code of an operator. -/
def code : Operator → Int
  | add => 0
  | sub => 1
  | mul => 2
  | div => 3
  | pow => 4
  | other code => code

/-- The symbol of an operator; a question mark for a code that stands for none. -/
def symbol : Operator → String
  | add => "+"
  | sub => "-"
  | mul => "*"
  | div => "/"
  | pow => "^"
  | other _ => "?"

/-- The operator with a symbol. -/
def ofSymbol? (s : String) : Option Operator := standard.find? fun op => op.symbol == s

/-- How tightly the operands of the operator bind together. -/
def precedence : Operator → Nat
  | add | sub => 2
  | mul | div => 3
  | pow => 4
  | other _ => 5

/-- The precedence of whatever needs no parentheses: numbers, variables, markers. -/
def atomPrecedence : Nat := 5

/-- Addition or subtraction. -/
def isAdditive : Operator → Bool
  | add | sub => true
  | _ => false

end Operator

end Fluxion
