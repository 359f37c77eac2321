/-!
# Ordered trees

A tree carries a value at every node and has its children in order. Functions that add up a whole
tree are folds; the listing of edges and the depth walk over a list of trees still to be visited, so
a tall tree needs no more than memory.
-/

namespace ThreeAddress

/-- A node with a value and any number of children. -/
inductive Tree (α : Type) where
  | node (value : α) (children : List (Tree α))
  deriving Repr

/-- The numbers of a list added up. -/
def total (numbers : List Nat) : Nat :=
  numbers.foldr (fun number rest => number + rest) 0

@[simp]
theorem total_nil : total [] = 0 :=
  rfl

@[simp]
theorem total_cons (number : Nat) (numbers : List Nat) :
    total (number :: numbers) = number + total numbers :=
  rfl

@[simp]
theorem total_append (front back : List Nat) :
    total (front ++ back) = total front + total back := by
  induction front with
  | nil => simp
  | cons number front ih => rw [List.cons_append, total_cons, total_cons, ih, Nat.add_assoc]

namespace Tree

variable {α β : Type}

def value : Tree α → α
  | .node value _ => value

def children : Tree α → List (Tree α)
  | .node _ children => children

def leaf (value : α) : Tree α :=
  .node value []

def isLeaf (tree : Tree α) : Bool :=
  tree.children.isEmpty

mutual

/-- Combines the value of every node with the results for its children. -/
def fold (combine : α → List β → β) : Tree α → β
  | .node value children => combine value (foldEach combine children)

/-- The results of folding each tree of a list. -/
def foldEach (combine : α → List β → β) : List (Tree α) → List β
  | [] => []
  | tree :: trees => tree.fold combine :: foldEach combine trees

end

/-- How many nodes the tree has. -/
def size (tree : Tree α) : Nat :=
  tree.fold fun _ sizes => 1 + total sizes

/-- How many nodes the trees of a list have together. -/
def totalSize (trees : List (Tree α)) : Nat :=
  total (trees.map size)

def map (f : α → β) (tree : Tree α) : Tree β :=
  tree.fold fun value children => .node (f value) children

/-- The values from the root down, each before those of its children, with their distance from the
root counted from the given number. -/
def preorder (tree : Tree α) : Nat → List (Nat × α) :=
  tree.fold fun value listings depth =>
    (depth, value) :: listings.flatMap fun listing => listing (depth + 1)

theorem foldEach_eq_map (combine : α → List β → β) (trees : List (Tree α)) :
    foldEach combine trees = trees.map (fold combine) := by
  induction trees with
  | nil => rfl
  | cons tree trees ih => simp [foldEach, ih]

theorem fold_node (combine : α → List β → β) (value : α) (children : List (Tree α)) :
    fold combine (.node value children) = combine value (children.map (fold combine)) := by
  rw [fold, foldEach_eq_map]

@[simp]
theorem size_node (value : α) (children : List (Tree α)) :
    (Tree.node value children).size = 1 + totalSize children :=
  fold_node ..

@[simp]
theorem totalSize_nil : totalSize ([] : List (Tree α)) = 0 :=
  rfl

@[simp]
theorem totalSize_cons (tree : Tree α) (trees : List (Tree α)) :
    totalSize (tree :: trees) = tree.size + totalSize trees := by
  simp [totalSize]

@[simp]
theorem totalSize_append (front back : List (Tree α)) :
    totalSize (front ++ back) = totalSize front + totalSize back := by
  simp [totalSize]

/-- Parent and child values of the trees in a queue: all edges from the first tree's root, then
those of the rest of the queue with the children of that root behind it. -/
def edgesOfQueue : List (Tree α) → List (α × α)
  | [] => []
  | .node value children :: queue =>
      children.map (fun child => (value, child.value)) ++ edgesOfQueue (queue ++ children)
termination_by queue => totalSize queue
decreasing_by
  simp only [totalSize_cons, totalSize_append, size_node]
  omega

/-- The edges of a tree as parent and child values, breadth first. -/
def edges (tree : Tree α) : List (α × α) :=
  edgesOfQueue [tree]

/-- The edges of a tree of texts, one line an edge. -/
def edgeLines (tree : Tree String) : List String :=
  tree.edges.map fun edge => edge.1 ++ " -> " ++ edge.2

/-- The greatest depth met so far or still to be met in a list of trees with their depths. -/
def deepest (reached : Nat) : List (Tree α × Nat) → Nat
  | [] => reached
  | (.node _ children, depth) :: pending =>
      deepest (max reached depth) (children.map (fun child => (child, depth + 1)) ++ pending)
termination_by pending => totalSize (pending.map Prod.fst)
decreasing_by
  simp [Function.comp_def]

/-- The number of nodes on the longest way down from the root, the root included. -/
def depth (tree : Tree α) : Nat :=
  deepest 0 [(tree, 1)]

end Tree

end ThreeAddress
