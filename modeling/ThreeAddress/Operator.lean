/-!
# Operators

Assignment and the four arithmetic operators, each written as one character. Assignment binds least,
products bind most.
-/

namespace ThreeAddress

inductive Operator where
  | assign
  | add
  | sub
  | mul
  | div
  deriving DecidableEq, Repr

namespace Operator

def ofChar? : Char → Option Operator
  | '=' => some .assign
  | '+' => some .add
  | '-' => some .sub
  | '*' => some .mul
  | '/' => some .div
  | _ => none

/-- The operator that the text is, if it is exactly one operator character. -/
def ofText? (text : String) : Option Operator :=
  match text.toList with
  | [c] => ofChar? c
  | _ => none

def symbol : Operator → String
  | .assign => "="
  | .add => "+"
  | .sub => "-"
  | .mul => "*"
  | .div => "/"

@[simp]
theorem ofText?_symbol (op : Operator) : ofText? op.symbol = some op := by
  cases op <;> rfl

def isArithmetic (op : Operator) : Bool :=
  op != .assign

/-- The greater the precedence, the tighter the operator binds. -/
def precedence : Operator → Nat
  | .assign => 0
  | .add | .sub => 1
  | .mul | .div => 2

end Operator

end ThreeAddress
