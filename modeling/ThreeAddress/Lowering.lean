import ThreeAddress.Code
import ThreeAddress.Tree

/-!
# Lowering a tree to three-address code

A leaf stands for its own value. Any other node has to be an operator over two operands, a node with
one child, a child between leaves that are parentheses, or operands with arithmetic operator leaves
between them. In each case there is a first operand and a list of operations on it from left to
right, and that is how the node is lowered. A node of another form is reported before any of its
children is lowered.

The walk keeps the operations still to be done on a stack of its own, so a tall tree needs no more
than memory. What was emitted before a failure stays.
-/

namespace ThreeAddress

/-- A node that cannot be lowered. -/
structure Malformed where
  value : String
  children : Nat
  deriving DecidableEq, Repr

def Malformed.message (node : Malformed) : String :=
  "TAC error: node '" ++ node.value ++ "' with " ++ toString node.children ++
    " children cannot be lowered"

/-- An operator with its right operand. -/
abbrev Operation := Operator × Tree String

namespace Lowering

/-- The operations of a list in which arithmetic operator leaves and operands take turns. -/
def operations? : List (Tree String) → Option (List Operation)
  | [] => some []
  | .node symbol [] :: operand :: rest =>
      match Operator.ofText? symbol with
      | none => none
      | some op =>
          if op.isArithmetic then (operations? rest).map fun more => (op, operand) :: more
          else none
  | _ => none

def isLeafOf (symbol : String) : Tree String → Bool
  | .node value children => children.isEmpty && value == symbol

/-- The first operand of a node without an operator of its own, and the operations on it. -/
def plainForm? : List (Tree String) → Option (Tree String × List Operation)
  | [] => none
  | [only] => some (only, [])
  | [first, inner, last] =>
      if isLeafOf "(" first && isLeafOf ")" last then some (inner, [])
      else (operations? [inner, last]).map fun operations => (first, operations)
  | first :: rest => (operations? rest).map fun operations => (first, operations)

/-- The first operand of an inner node and the operations on it, from left to right. -/
def form? : Tree String → Option (Tree String × List Operation)
  | .node value children =>
      match Operator.ofText? value with
      | none => plainForm? children
      | some op =>
          match children with
          | [left, right] => some (left, [(op, right)])
          | _ => none

theorem plainForm?_cases {children : List (Tree String)} {first : Tree String}
    {operations : List Operation} (h : plainForm? children = some (first, operations)) :
    children = [first] ∧ operations = [] ∨
      (∃ opening closing, children = [opening, first, closing] ∧ operations = []) ∨
      ∃ rest, children = first :: rest ∧ operations? rest = some operations := by
  have chain {start : Tree String} {rest : List (Tree String)}
      (h : (operations? rest).map (fun operations => (start, operations)) =
        some (first, operations)) :
      ∃ later, start :: rest = first :: later ∧ operations? later = some operations := by
    obtain ⟨_, hrest, heq⟩ := Option.map_eq_some_iff.1 h
    obtain ⟨rfl, rfl⟩ := Prod.mk.inj heq
    exact ⟨rest, rfl, hrest⟩
  fun_cases plainForm? children with
  | case1 => simp [plainForm?] at h
  | case2 only =>
    obtain ⟨rfl, rfl⟩ := Prod.mk.inj (Option.some.inj h)
    exact .inl ⟨rfl, rfl⟩
  | case3 opening inner closing hparen =>
    rw [plainForm?, if_pos hparen] at h
    obtain ⟨rfl, rfl⟩ := Prod.mk.inj (Option.some.inj h)
    exact .inr (.inl ⟨opening, closing, rfl, rfl⟩)
  | case4 opening inner closing hparen =>
    rw [plainForm?, if_neg hparen] at h
    exact .inr (.inr (chain h))
  | case5 start rest hone hthree =>
    rw [plainForm?.eq_4 _ _ hone hthree] at h
    exact .inr (.inr (chain h))

/-- The children of a node with a form are the two operands of its operator, a single child, a child
between two others, or a child in front of the signs and operands of a chain. -/
theorem form?_cases {value : String} {children : List (Tree String)} {first : Tree String}
    {operations : List Operation} (h : form? (.node value children) = some (first, operations)) :
    (∃ op right, children = [first, right] ∧ operations = [(op, right)]) ∨
      children = [first] ∧ operations = [] ∨
      (∃ opening closing, children = [opening, first, closing] ∧ operations = []) ∨
      ∃ rest, children = first :: rest ∧ operations? rest = some operations := by
  rw [form?] at h
  split at h
  · exact .inr (plainForm?_cases h)
  · rename_i op _
    split at h
    · rename_i right
      obtain ⟨rfl, rfl⟩ := Prod.mk.inj (Option.some.inj h)
      exact .inl ⟨op, right, rfl, rfl⟩
    · cases h

/-- What is to be done with the next value. -/
inductive Frame where
  /-- The value is the left operand of the first operation. -/
  | left (pending : List Operation)
  /-- The value is the right operand; more operations follow on the result. -/
  | right (op : Operator) (left : String) (pending : List Operation)

/-- What the walk looks at: a tree it goes into, or the name that holds a value. -/
inductive Focus where
  | enter (tree : Tree String)
  | leave (name : String)

/-! ## The work left -/

def operationsWork (operations : List Operation) : Nat :=
  total (operations.map fun operation => 4 * operation.2.size + 2) + 1

def Frame.work : Frame → Nat
  | .left pending => operationsWork pending
  | .right _ _ pending => operationsWork pending + 1

def Focus.work : Focus → Nat
  | .enter tree => 4 * tree.size
  | .leave _ => 0

def stackWork (frames : List Frame) : Nat :=
  total (frames.map Frame.work)

@[simp]
theorem operationsWork_nil : operationsWork [] = 1 :=
  rfl

@[simp]
theorem operationsWork_cons (operation : Operation) (rest : List Operation) :
    operationsWork (operation :: rest) = 4 * operation.2.size + 2 + operationsWork rest := by
  simp [operationsWork]
  omega

@[simp]
theorem stackWork_cons (frame : Frame) (frames : List Frame) :
    stackWork (frame :: frames) = frame.work + stackWork frames := by
  simp [stackWork]

theorem operationsWork_le {trees : List (Tree String)} {operations : List Operation}
    (h : operations? trees = some operations) :
    operationsWork operations ≤ 4 * Tree.totalSize trees + 1 := by
  fun_induction operations? trees generalizing operations with
  | case1 => simp_all
  | case3 symbol operand rest op _ _ ih =>
    obtain ⟨more, hmore, rfl⟩ := Option.map_eq_some_iff.1 h
    have := ih hmore
    simp
    omega
  | case2 | case4 | case5 => simp at h

theorem work_lt_of_form? {tree first : Tree String} {operations : List Operation}
    (h : form? tree = some (first, operations)) :
    4 * first.size + operationsWork operations < 4 * tree.size := by
  obtain ⟨value, children⟩ := tree
  obtain ⟨op, right, rfl, rfl⟩ | ⟨rfl, rfl⟩ | ⟨opening, closing, rfl, rfl⟩ | ⟨rest, rfl, hrest⟩ :=
    form?_cases h
  · simp
    omega
  · simp
    omega
  · simp
    omega
  · have := operationsWork_le hrest
    simp
    omega

/-! ## The walk -/

/-- Goes on from the focus until the stack is empty. Yields the name that holds the value of the
whole tree, or the node that cannot be lowered, together with the code emitted. -/
def walk : Focus → List Frame → Code → Except Malformed String × Code
  | .enter (.node value []), frames, code => walk (.leave value) frames code
  | .enter (.node value (child :: children)), frames, code =>
      match h : form? (.node value (child :: children)) with
      | none => (.error ⟨value, children.length + 1⟩, code)
      | some (first, operations) => walk (.enter first) (.left operations :: frames) code
  | .leave name, [], code => (.ok name, code)
  | .leave name, .left [] :: frames, code => walk (.leave name) frames code
  | .leave name, .left ((op, operand) :: pending) :: frames, code =>
      walk (.enter operand) (.right op name pending :: frames) code
  | .leave name, .right op left pending :: frames, code =>
      match code.apply op left name with
      | (result, code) => walk (.leave result) (.left pending :: frames) code
termination_by focus frames => focus.work + stackWork frames
decreasing_by
  · simp [Focus.work]
  · -- the first operand and the operations are less work than the node
    have := work_lt_of_form? h
    simp [Focus.work, Frame.work] at this ⊢
    omega
  · simp [Focus.work, Frame.work]
  · simp [Focus.work, Frame.work]
    omega
  · simp [Focus.work, Frame.work]

end Lowering

/-- Emits the code of a tree, and yields the name that then holds its value. -/
def Code.lower (code : Code) (tree : Tree String) : Except Malformed String × Code :=
  Lowering.walk (.enter tree) [] code

/-- The code of a single tree. -/
def Code.ofTree? (tree : Tree String) : Except Malformed Code :=
  match Code.empty.lower tree with
  | (.error node, _) => .error node
  | (.ok _, code) => .ok code

end ThreeAddress
