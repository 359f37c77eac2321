import ThreeAddress.Equation.Lexeme
import ThreeAddress.Tree

/-!
# Equation expressions

An equation is read with a stack of operands and a stack of operators. Before an operator goes onto
its stack, every operator there that binds at least as tightly is applied, so operators of the same
precedence, assignment included, group to the left. At the end all operators left are applied, and
exactly one operand has to remain.
-/

namespace ThreeAddress.Equation

inductive Expr where
  | operand (text : String)
  | binary (op : Operator) (left right : Expr)
  deriving DecidableEq, Repr

/-- The expression as a tree: operators over their two operands, operands at the leaves. -/
def Expr.toTree : Expr → Tree String
  | .operand text => .leaf text
  | .binary op left right => .node op.symbol [left.toTree, right.toTree]

/-- Why a text is no equation. -/
inductive Error where
  | empty
  | missingOperand (op : Operator)
  | danglingOperands (count : Nat)
  deriving DecidableEq, Repr

def Error.message : Error → String
  | .empty => "Equation error: no operands or operators found"
  | .missingOperand op =>
      "Equation error: operator '" ++ op.symbol ++ "' is missing an operand"
  | .danglingOperands count =>
      "Equation error: " ++ toString count ++ " operands are not joined by operators"

/-- The operands and operators not yet joined, the latest of each first. -/
structure Stacks where
  operands : List Expr
  operators : List Operator
  deriving Repr

namespace Stacks

/-- Applies the operators on top that satisfy the condition, each to the two latest operands. -/
def applyWhile (condition : Operator → Bool) :
    List Operator → List Expr → Except Error Stacks
  | [], operands => .ok ⟨operands, []⟩
  | op :: operators, operands =>
      if condition op then
        match operands with
        | right :: left :: rest => applyWhile condition operators (.binary op left right :: rest)
        | _ => .error (.missingOperand op)
      else .ok ⟨operands, op :: operators⟩

/-- Takes in one lexeme. -/
def push (pending : Stacks) : Lexeme → Except Error Stacks
  | .operand text => .ok ⟨.operand text :: pending.operands, pending.operators⟩
  | .operator op => do
      let ⟨operands, operators⟩ ←
        applyWhile (fun top => op.precedence ≤ top.precedence) pending.operators pending.operands
      return ⟨operands, op :: operators⟩

/-- The expression that remains when all operators are applied. -/
def finish (pending : Stacks) : Except Error Expr := do
  let ⟨operands, _⟩ ← applyWhile (fun _ => true) pending.operators pending.operands
  match operands with
  | [] => throw .empty
  | [expr] => return expr
  | operands => throw (.danglingOperands operands.length)

end Stacks

def Expr.ofLexemes? (lexemes : List Lexeme) : Except Error Expr := do
  let pending ← lexemes.foldlM Stacks.push ⟨[], []⟩
  pending.finish

/-- The expression that a text such as `x = a * b + 3` stands for. -/
def Expr.ofText? (text : String) : Except Error Expr :=
  ofLexemes? (lexemes text)

end ThreeAddress.Equation
