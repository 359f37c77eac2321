import ThreeAddress.Proofs.CanonicalTrees
import ThreeAddress.Proofs.Destinations

/-!
# What an equation keeps

The stacks join expressions and never drop one, so an equation that is read has one operand more
than operators, and the numbers of both tell most of the errors apart. The expression has all of
them: its operands are the leaves of its tree in the order of the text, its operators the inner
nodes, and the code of the tree has one instruction for each operator.
-/

namespace ThreeAddress

open Equation

namespace Equation

/-! ## Numbers of operands and operators -/

/-- How many operands the text has. -/
def operandCount (text : String) : Nat :=
  ((lexemes text).filterMap Lexeme.operand?).length

/-- How many operators the text has. -/
def operatorCount (text : String) : Nat :=
  ((lexemes text).filterMap Lexeme.operator?).length

theorem Expr.length_operands (expr : Expr) :
    (expr.inorder.filterMap Lexeme.operand?).length = expr.operators.length + 1 := by
  induction expr with
  | operand text => rfl
  | binary op left right ihleft ihright =>
    have hright : (Lexeme.operator op :: right.inorder).filterMap Lexeme.operand? =
        right.inorder.filterMap Lexeme.operand? := rfl
    rw [inorder, List.filterMap_append, hright, operators_binary, List.length_append,
      List.length_append, List.length_cons, ihleft, ihright]
    omega

namespace Stacks

-- Each expression on the stack has one operand more than operators.
theorem length_inPlace (operands : List Expr) :
    ((inPlace operands).filterMap Lexeme.operand?).length =
      ((inPlace operands).filterMap Lexeme.operator?).length + operands.length := by
  induction operands with
  | nil => rfl
  | cons expr operands ih =>
    have hexpr : (expr.inorder.filterMap Lexeme.operand?).length =
        (expr.inorder.filterMap Lexeme.operator?).length + 1 := expr.length_operands
    rw [inPlace_cons, List.filterMap_append, List.filterMap_append, List.length_append,
      List.length_append, ih, hexpr, List.length_cons]
    omega

/-- The operands taken outnumber the operators taken by as much as the operands that wait outnumber
the operators that wait. -/
theorem Contains.balance {pending : Stacks} {taken : List Lexeme} (h : pending.Contains taken) :
    (taken.filterMap Lexeme.operand?).length + pending.operators.length =
      (taken.filterMap Lexeme.operator?).length + pending.operands.length := by
  rw [← h.operands, ← h.operators.length_eq, List.length_append, length_inPlace]
  omega

end Stacks

/-- Reading stops at an operator of the text that misses an operand, or the text has more operands
than operators by the number of operands left, unless it has neither. -/
theorem Expr.ofText?_cases (text : String) :
    (∃ op ∈ (lexemes text).filterMap Lexeme.operator?,
        ofText? text = .error (.missingOperand op)) ∨
      ∃ operands, operandCount text = operatorCount text + operands.length ∧
        (operands = [] → operatorCount text = 0) ∧ ofText? text = Stacks.outcome operands := by
  refine (ofLexemes?_cases (lexemes text)).imp_right ?_
  rintro ⟨operands, hcontains, houtcome⟩
  refine ⟨operands, hcontains.balance, ?_, houtcome⟩
  rintro rfl
  exact hcontains.operators.length_eq.symm

/-- The numbers of operands and operators tell what is wrong with a text. It is empty exactly if it
has neither. Otherwise, if the operands are no more than the operators, some operator misses an
operand, and it is always one of the text. A text that is read has one operand more than operators,
and if operands are left, the text has as many more of them, which is two at least. -/
theorem Expr.ofText?_classified (text : String) :
    (ofText? text = .error .empty ↔ operandCount text = 0 ∧ operatorCount text = 0) ∧
      (0 < operandCount text + operatorCount text → operandCount text ≤ operatorCount text →
        ∃ op, ofText? text = .error (.missingOperand op)) ∧
      (∀ expr, ofText? text = .ok expr → operandCount text = operatorCount text + 1) ∧
      (∀ count, ofText? text = .error (.danglingOperands count) →
        operandCount text = operatorCount text + count ∧ 2 ≤ count) ∧
      ∀ op, ofText? text = .error (.missingOperand op) →
        op ∈ (lexemes text).filterMap Lexeme.operator? := by
  rcases ofText?_cases text with ⟨op, hmem, hread⟩ | ⟨operands, hcount, hnone, hread⟩
  · have hpos : 0 < operatorCount text := List.length_pos_of_mem hmem
    rw [hread]
    refine ⟨⟨nofun, fun h => ?_⟩, fun _ _ => ⟨op, rfl⟩, nofun, nofun, ?_⟩
    · omega
    · rintro other ⟨⟩
      exact hmem
  · rw [hread]
    match operands with
    | [] =>
      have hzero := hnone rfl
      rw [List.length_nil] at hcount
      refine ⟨iff_of_true rfl ⟨by omega, hzero⟩, fun _ _ => ?_, nofun, nofun, nofun⟩
      omega
    | [expr] =>
      rw [List.length_singleton] at hcount
      refine ⟨⟨nofun, fun h => ?_⟩, fun _ _ => ?_, fun _ _ => hcount, nofun, nofun⟩
      · omega
      · omega
    | first :: second :: rest =>
      rw [List.length_cons, List.length_cons] at hcount
      refine ⟨⟨nofun, fun h => ?_⟩, fun _ _ => ?_, nofun, ?_, nofun⟩
      · omega
      · omega
      · rintro count ⟨⟩
        refine ⟨hcount, ?_⟩
        rw [List.length_cons, List.length_cons]
        omega

theorem Expr.ofText?_classified_misplaced :
    (∃ op, ofText? "a + + b" = .error (.missingOperand op)) ∧
      (∃ expr, ofText? "a + * b c" = .ok expr ∧
        operandCount "a + * b c" = operatorCount "a + * b c" + 1) ∧
      (ofText? "a b * c d e" = .error (.danglingOperands 4) ∧
        operandCount "a b * c d e" = operatorCount "a b * c d e" + 4 ∧ 2 ≤ 4) ∧
      ofText? "+ + a b c" = .error (.missingOperand .add) ∧
        .add ∈ (lexemes "+ + a b c").filterMap Lexeme.operator? := by
  have hequal : operandCount "a + + b" = 2 ∧ operatorCount "a + + b" = 2 := by
    decide +kernel
  have hread : ofText? "a + * b c" =
      .ok (.binary .add (.operand "a") (.binary .mul (.operand "b") (.operand "c"))) := by
    decide +kernel
  have hdangling : ofText? "a b * c d e" = .error (.danglingOperands 4) := by
    decide +kernel
  have hmissing : ofText? "+ + a b c" = .error (.missingOperand .add) := by
    decide +kernel
  refine ⟨?_, ⟨_, hread, ?_⟩, ⟨hdangling, ?_⟩, hmissing, ?_⟩
  · exact (ofText?_classified "a + + b").2.1 (by omega) (by omega)
  · exact (ofText?_classified "a + * b c").2.2.1 _ hread
  · exact (ofText?_classified "a b * c d e").2.2.2.1 _ hdangling
  · exact (ofText?_classified "+ + a b c").2.2.2.2 _ hmissing

end Equation

/-! ## Nodes and instructions -/

namespace Tree

variable {α : Type}

/-- The values of the nodes that are no leaves, from the root down, each with the number of its
children. -/
def innerNodes (tree : Tree α) : List (α × Nat) :=
  tree.fold fun value below => if below.isEmpty then [] else (value, below.length) :: below.flatten

theorem innerNodes_pair (value : α) (left right : Tree α) :
    (node value [left, right]).innerNodes =
      (value, 2) :: (left.innerNodes ++ right.innerNodes) := by
  rw [innerNodes, fold_node]
  show (value, 2) :: [left.innerNodes, right.innerNodes].flatten = _
  rw [List.flatten_cons, List.flatten_singleton]

end Tree

/-- The operator of an instruction; a copy has none. -/
def Instruction.operator? : Instruction → Option Operator
  | .copy .. => none
  | .binary _ _ op _ => some op

/-- The operator of the instruction that is emitted for the operator: an assignment becomes a copy,
which has none. -/
def Operator.emitted? (op : Operator) : Option Operator :=
  if op.isArithmetic then some op else none

theorem Equation.Expr.innerNodes_toTree (expr : Expr) :
    expr.toTree.innerNodes.Perm (expr.operators.map fun op => (op.symbol, 2)) := by
  induction expr with
  | operand text => exact .nil
  | binary op left right ihleft ihright =>
    rw [toTree, Tree.innerNodes_pair, operators_binary, List.map_append, List.map_cons]
    exact ((ihleft.append ihright).cons _).trans List.perm_middle.symm

namespace Code

/-- The operators of the instructions in their order, nothing for a copy. -/
def emitted (code : Code) : List (Option Operator) :=
  code.instructions.toList.map Instruction.operator?

theorem emitted_apply (code : Code) (op : Operator) (left right : String) :
    (code.apply op left right).2.emitted = code.emitted ++ [op.emitted?] := by
  by_cases harith : op.isArithmetic = true
  · rw [apply_of_isArithmetic harith, Operator.emitted?, if_pos harith, emitted, join,
      Array.toList_push, List.map_append]
    rfl
  · rw [apply_of_not_isArithmetic harith, Operator.emitted?, if_neg harith, emitted, copy,
      Array.toList_push, List.map_append]
    rfl

theorem emitted_compute (code : Code) (expr : Expr) :
    (code.compute expr).2.emitted.Perm
      (code.emitted ++ expr.operators.map Operator.emitted?) := by
  induction expr generalizing code with
  | operand text => exact .of_eq (List.append_nil _).symm
  | binary op left right ihleft ihright =>
    have hboth := (ihright (code.compute left).2).trans ((ihleft code).append_right _)
    rw [List.append_assoc] at hboth
    rw [compute]
    dsimp only
    rw [emitted_apply, Expr.operators_binary, List.map_append, List.map_cons]
    -- the operator comes behind the code of both sides
    refine (hboth.append_right _).trans ?_
    rw [List.append_assoc, List.append_assoc]
    exact ((List.perm_append_singleton _ _).append_left _).append_left _

end Code

/-- Whatever the order of its operands and operators, an equation that is read keeps them all. The
leaves of its tree are the operands in the order of the text. The inner nodes have two children each
and are the operators. The code has one instruction for each operator, an operation for an
arithmetic one and a copy for an assignment. -/
theorem Equation.operands_operators_conserved {text : String} {expr : Expr}
    (h : Expr.ofText? text = .ok expr) :
    expr.toTree.leaves = (lexemes text).filterMap Lexeme.operand? ∧
      expr.toTree.innerNodes.Perm
        (((lexemes text).filterMap Lexeme.operator?).map fun op => (op.symbol, 2)) ∧
      ∃ code, Code.ofTree? expr.toTree = .ok code ∧
        code.emitted.Perm
          (((lexemes text).filterMap Lexeme.operator?).map Operator.emitted?) := by
  obtain ⟨hoperands, hoperators⟩ := Expr.inorder_of_ofLexemes? h
  refine ⟨?_, ?_, _, Code.ofTree?_toTree expr, ?_⟩
  · rw [Expr.leaves_toTree, hoperands]
  · exact expr.innerNodes_toTree.trans (hoperators.map _)
  · exact (Code.emitted_compute Code.empty expr).trans (hoperators.map _)

theorem Equation.operands_operators_conserved_misplaced :
    ∃ expr code, Expr.ofText? "x = a b + * c" = .ok expr ∧
      expr.toTree.leaves = ["x", "a", "b", "c"] ∧
      expr.toTree.innerNodes.Perm [("=", 2), ("+", 2), ("*", 2)] ∧
      Code.ofTree? expr.toTree = .ok code ∧
      code.emitted.Perm [none, some .add, some .mul] := by
  have hlexemes : lexemes "x = a b + * c" =
      [.operand "x", .operator .assign, .operand "a", .operand "b", .operator .add,
        .operator .mul, .operand "c"] := by
    decide +kernel
  have hread : Expr.ofText? "x = a b + * c" =
      .ok (.binary .assign (.operand "x")
        (.binary .add (.operand "a") (.binary .mul (.operand "b") (.operand "c")))) := by
    rw [Expr.ofText?, hlexemes]
    rfl
  obtain ⟨hleaves, hinner, code, hcode, hemitted⟩ := operands_operators_conserved hread
  rw [hlexemes] at hleaves hinner hemitted
  exact ⟨_, code, hread, hleaves, hinner, hcode, hemitted⟩

end ThreeAddress
