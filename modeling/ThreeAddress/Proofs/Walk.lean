import ThreeAddress.Lowering
import ThreeAddress.Proofs.Execution

/-!
# The walk, tree by tree

The frames of the walk are what is to be done with a name once it is known, so a walk over some
frames of a stack hands its result on to the frames below. It follows that a node is lowered by
lowering its first operand and then applying its operations one after the other.
-/

namespace ThreeAddress

open Equation

namespace Lowering

/-- Goes on with the frames below, if there is a name to go on with. -/
def resume (below : List Frame) : Except Malformed String × Code → Except Malformed String × Code
  | (.ok name, code) => walk (.leave name) below code
  | (.error node, code) => (.error node, code)

-- An inner node with a form is entered at its first operand.
theorem walk_enter {value : String} {child first : Tree String} {children : List (Tree String)}
    {operations : List Operation}
    (h : form? (.node value (child :: children)) = some (first, operations))
    (frames : List Frame) (code : Code) :
    walk (.enter (.node value (child :: children))) frames code =
      walk (.enter first) (.left operations :: frames) code := by
  rw [walk]
  split
  · rename_i hnone
    rw [h] at hnone
    cases hnone
  · rename_i hsome
    rw [h] at hsome
    cases hsome
    rfl

theorem walk_malformed {value : String} {child : Tree String} {children : List (Tree String)}
    (h : form? (.node value (child :: children)) = none) (frames : List Frame) (code : Code) :
    walk (.enter (.node value (child :: children))) frames code =
      (.error ⟨value, children.length + 1⟩, code) := by
  rw [walk]
  split
  · rfl
  · rename_i hsome
    rw [h] at hsome
    cases hsome

/-- A walk knows nothing of the frames below its own until it leaves the last of its own. -/
theorem walk_append (focus : Focus) (frames below : List Frame) (code : Code) :
    walk focus (frames ++ below) code = resume below (walk focus frames code) := by
  fun_induction walk focus frames code with
  | case1 value frames code ih => rw [walk, ih]
  | case2 frames code value child children h => rw [walk_malformed h, resume]
  | case3 frames code value child children first operations h ih => rw [walk_enter h, ← ih]; rfl
  -- no frame is left, so the name goes to the frames below
  | case4 name code => rfl
  | case5 name frames code ih => rw [List.cons_append, walk, ih]
  | case6 name op operand pending frames code ih =>
    rw [List.cons_append, walk, ← ih]
    rfl
  | case7 name op left pending frames code result later hresult ih =>
    rw [List.cons_append, walk, hresult]
    exact ih

/-- Applies the operations to the value under a name, from left to right. -/
def applyAll (code : Code) (name : String) : List Operation → Except Malformed String × Code
  | [] => (.ok name, code)
  | (op, operand) :: pending =>
      match code.lower operand with
      | (.error node, code) => (.error node, code)
      | (.ok right, code) =>
          let (result, code) := code.apply op name right
          applyAll code result pending

-- A name that reaches the operations of a node has them applied to it.
theorem walk_left (name : String) (operations : List Operation) (code : Code) :
    walk (.leave name) [.left operations] code = applyAll code name operations := by
  induction operations generalizing name code with
  | nil => rw [walk, walk, applyAll]
  | cons operation pending ih =>
    obtain ⟨op, operand⟩ := operation
    -- lowering the operand is a walk of its own over no frames
    rw [walk, applyAll, ← List.nil_append [Frame.right op name pending], walk_append]
    show resume _ (code.lower operand) = _
    cases code.lower operand with
    | mk outcome later =>
      cases outcome with
      | error node => rfl
      | ok right =>
        rw [resume, walk]
        exact ih ..

end Lowering

namespace Code

open Lowering

@[simp]
theorem lower_leaf (code : Code) (value : String) :
    code.lower (.node value []) = (.ok value, code) := by
  rw [lower, walk, walk]

-- A node is lowered by lowering its first operand and applying its operations.
theorem lower_of_form? {value : String} {child first : Tree String} {children : List (Tree String)}
    {operations : List Operation}
    (h : form? (.node value (child :: children)) = some (first, operations)) (code : Code) :
    code.lower (.node value (child :: children)) =
      match code.lower first with
      | (.error node, code) => (.error node, code)
      | (.ok name, code) => applyAll code name operations := by
  rw [lower, walk_enter h, ← List.nil_append [Frame.left operations], walk_append]
  show resume _ (code.lower first) = _
  cases code.lower first with
  | mk outcome later =>
    cases outcome with
    | error node => rfl
    | ok name => exact walk_left ..

/-- The tree of an expression gives the code that computes the expression. -/
theorem lower_toTree (code : Code) (expr : Expr) :
    code.lower expr.toTree = (.ok (code.compute expr).1, (code.compute expr).2) := by
  induction expr generalizing code with
  | operand text => exact lower_leaf code text
  | binary op left right ihleft ihright =>
    have hform : form? (.node op.symbol [left.toTree, right.toTree]) =
        some (left.toTree, [(op, right.toTree)]) := by
      rw [form?, Operator.ofText?_symbol]
    rw [Expr.toTree, lower_of_form? hform, ihleft]
    dsimp only
    rw [applyAll, ihright]
    rfl

theorem ofTree?_toTree (expr : Expr) : ofTree? expr.toTree = .ok (empty.compute expr).2 := by
  rw [ofTree?, lower_toTree]

end Code

end ThreeAddress
