import ThreeAddress.Operator
import ThreeAddress.Token.Scan

/-!
# Three-address code

An instruction names one result and at most two operands. `Code` is code under construction: the
instructions so far and the number of temporaries handed out, which are `t0`, `t1` and so on. Code
only ever grows at its end.
-/

namespace ThreeAddress

inductive Instruction where
  /-- The target takes the value of the source. -/
  | copy (target source : String)
  /-- The target takes the value of an operator on two operands. -/
  | binary (target left : String) (op : Operator) (right : String)
  deriving DecidableEq, Repr

namespace Instruction

def text : Instruction → String
  | .copy target source => target ++ " = " ++ source
  | .binary target left op right =>
      target ++ " = " ++ left ++ " " ++ op.symbol ++ " " ++ right

def isBinary : Instruction → Bool
  | .copy .. => false
  | .binary .. => true

end Instruction

structure Code where
  instructions : Array Instruction
  temporaries : Nat
  deriving Repr

namespace Code

def empty : Code :=
  ⟨#[], 0⟩

/-- The name of the temporary with the given number. -/
def temporary (number : Nat) : String :=
  "t" ++ toString number

/-- The code with a copy behind it. -/
def copy (code : Code) (target source : String) : Code :=
  ⟨code.instructions.push (.copy target source), code.temporaries⟩

/-- The code with an operator applied behind it, and the name that then holds the result: the next
temporary for an arithmetic operator, the left operand for an assignment. -/
def apply (code : Code) (op : Operator) (left right : String) : String × Code :=
  if op.isArithmetic then
    let target := temporary code.temporaries
    (target, ⟨code.instructions.push (.binary target left op right), code.temporaries + 1⟩)
  else (left, code.copy left right)

/-- One line of text an instruction. -/
def lines (code : Code) : List String :=
  code.instructions.toList.map Instruction.text

end Code

/-- A `t` and one ASCII digit or more: the form of the names of temporaries. -/
def isTemporaryName (name : String) : Bool :=
  match name.toList with
  | 't' :: digits => Token.isNumber digits
  | _ => false

end ThreeAddress
