import Mathlib.Data.List.Perm.Basic
import ThreeAddress.Proofs.CanonicalTrees
import ThreeAddress.Proofs.Conservation
import ThreeAddress.Proofs.Height

/-!
# Depths of equation trees

The depth of a tree is found without calls for the nodes below: the trees still to be visited wait
in a list, each with its depth, and give way to their children. What the walk comes to is the height
of the tree, after one round for each node, in whatever order the waiting trees are taken. The tree
of an equation is deeper than the number of its operators by one level at most, and a row of
operators that group to the left is as deep as that.
-/

namespace ThreeAddress

namespace Tree

variable {α : Type}

/-! ## Waiting trees -/

/-- Trees still to be visited, each with the depth of its root. -/
abbrev Waiting (α : Type) :=
  List (Tree α × Nat)

/-- The depth of the deepest node in the waiting trees. -/
def lowest (pending : Waiting α) : Nat :=
  (pending.map fun entry => entry.2 + maxHeight entry.1.children).foldr max 0

/-- How many nodes the waiting trees have together. -/
def waitingSize (pending : Waiting α) : Nat :=
  totalSize (pending.map Prod.fst)

/-- The children of a node at the given depth. -/
def oneDeeper (children : List (Tree α)) (depth : Nat) : Waiting α :=
  children.map fun child => (child, depth + 1)

@[simp]
theorem lowest_nil : lowest ([] : Waiting α) = 0 :=
  rfl

@[simp]
theorem lowest_cons (entry : Tree α × Nat) (pending : Waiting α) :
    lowest (entry :: pending) = max (entry.2 + maxHeight entry.1.children) (lowest pending) :=
  rfl

@[simp]
theorem lowest_append (front back : Waiting α) :
    lowest (front ++ back) = max (lowest front) (lowest back) := by
  induction front with
  | nil => simp
  | cons entry front ih => rw [List.cons_append, lowest_cons, lowest_cons, ih, Nat.max_assoc]

theorem lowest_perm {pending other : Waiting α} (h : pending.Perm other) :
    lowest pending = lowest other :=
  (h.map _).foldr_eq 0

theorem waitingSize_perm {pending other : Waiting α} (h : pending.Perm other) :
    waitingSize pending = waitingSize other :=
  ((h.map Prod.fst).map size).foldr_eq 0

/-- A node and all that is below it reach as deep as the node is tall. -/
theorem max_lowest_oneDeeper (children : List (Tree α)) (depth : Nat) :
    max depth (lowest (oneDeeper children depth)) = depth + maxHeight children := by
  unfold oneDeeper
  induction children with
  | nil => simp
  | cons child children ih =>
    obtain ⟨value, grandchildren⟩ := child
    rw [List.map_cons, lowest_cons, maxHeight_cons, height_node]
    show max depth (max (depth + 1 + maxHeight grandchildren) _) = _
    omega

/-- A round leaves the greatest depth, met or still to be met, as it is. -/
theorem max_lowest_visit (reached depth : Nat) (value : α) (children : List (Tree α))
    (pending : Waiting α) :
    max (max reached depth) (lowest (oneDeeper children depth ++ pending)) =
      max reached (lowest ((node value children, depth) :: pending)) := by
  have hbelow := max_lowest_oneDeeper children depth
  rw [lowest_append, lowest_cons]
  show _ = max reached (max (depth + maxHeight children) (lowest pending))
  omega

/-- A round leaves one node less to be visited. -/
theorem waitingSize_visit (depth : Nat) (value : α) (children : List (Tree α))
    (pending : Waiting α) :
    waitingSize ((node value children, depth) :: pending) =
      waitingSize (oneDeeper children depth ++ pending) + 1 := by
  have hbelow : (oneDeeper children depth).map Prod.fst = children := by
    simp [oneDeeper, Function.comp_def]
  unfold waitingSize
  rw [List.map_append, hbelow, totalSize_append, List.map_cons, totalSize_cons, size_node]
  omega

/-! ## The walk -/

theorem deepest_eq (reached : Nat) (pending : Waiting α) :
    deepest reached pending = max reached (lowest pending) := by
  induction hsize : waitingSize pending using Nat.strong_induction_on
    generalizing reached pending with
  | _ size ih =>
    cases pending with
    | nil => simp [deepest]
    | cons entry pending =>
      obtain ⟨⟨value, children⟩, depth⟩ := entry
      have hless : waitingSize (oneDeeper children depth ++ pending) < size := by
        rw [waitingSize_visit] at hsize
        omega
      rw [deepest, ← max_lowest_visit]
      exact ih _ hless _ _ rfl

theorem depth_eq_height (tree : Tree α) : tree.depth = tree.height := by
  obtain ⟨value, below⟩ := tree
  rw [depth, deepest_eq, height_node, lowest_cons, lowest_nil, Nat.max_zero, Nat.zero_max]
  rfl

/-- A leaf has depth one, any other node is one deeper than the deepest of its children. -/
theorem depth_eq (tree : Tree α) :
    tree.depth = 1 + (tree.children.map depth).foldr max 0 := by
  have hheights : tree.children.map depth = tree.children.map height :=
    List.map_congr_left fun child _ => child.depth_eq_height
  obtain ⟨value, below⟩ := tree
  rw [hheights, depth_eq_height]
  exact height_node value below

/-- The walk with only so many rounds, each of which takes the first of the waiting trees. The order
says how its children join the others. -/
def deepestWithin (order : Waiting α → Waiting α → Waiting α) :
    Nat → Nat → Waiting α → Option Nat
  | _, reached, [] => some reached
  | 0, _, _ :: _ => none
  | rounds + 1, reached, (.node _ children, depth) :: pending =>
      deepestWithin order rounds (max reached depth) (order (oneDeeper children depth) pending)

/-- The depth of the tree, if the walk comes to its end in so many rounds. -/
def depthWithin (order : Waiting α → Waiting α → Waiting α) (rounds : Nat) (tree : Tree α) :
    Option Nat :=
  deepestWithin order rounds 0 [(tree, 1)]

section Order

variable {order : Waiting α → Waiting α → Waiting α}
  (horder : ∀ below pending, (order below pending).Perm (below ++ pending))

include horder

theorem deepestWithin_eq (rounds reached : Nat) (pending : Waiting α) :
    deepestWithin order rounds reached pending =
      if waitingSize pending ≤ rounds then some (max reached (lowest pending)) else none := by
  induction rounds generalizing reached pending with
  | zero =>
    cases pending with
    | nil => simp [deepestWithin, waitingSize]
    | cons entry pending =>
      obtain ⟨⟨value, children⟩, depth⟩ := entry
      have hleft : ¬waitingSize ((node value children, depth) :: pending) ≤ 0 := by
        rw [waitingSize_visit]
        omega
      rw [deepestWithin, if_neg hleft]
  | succ rounds ih =>
    cases pending with
    | nil => simp [deepestWithin, waitingSize]
    | cons entry pending =>
      obtain ⟨⟨value, children⟩, depth⟩ := entry
      have hperm := horder (oneDeeper children depth) pending
      rw [deepestWithin, ih, lowest_perm hperm, waitingSize_perm hperm,
        max_lowest_visit reached depth value, waitingSize_visit]
      simp only [Nat.add_le_add_iff_right]

theorem depthWithin_eq (rounds : Nat) (tree : Tree α) :
    tree.depthWithin order rounds = if tree.size ≤ rounds then some tree.depth else none := by
  have hsize : waitingSize [(tree, 1)] = tree.size := Nat.add_zero _
  rw [depthWithin, deepestWithin_eq horder, hsize, depth, deepest_eq]

end Order

end Tree

namespace Equation

/-! ## Trees of equations -/

namespace Expr

theorem height_toTree_le (expr : Expr) : expr.toTree.height ≤ expr.operators.length + 1 := by
  induction expr with
  | operand text => exact Nat.le_refl 1
  | binary op left right ihleft ihright =>
    rw [toTree, Tree.height_node, Tree.maxHeight_cons, Tree.maxHeight_cons, Tree.maxHeight_nil,
      operators_binary, List.length_append, List.length_cons]
    omega

theorem length_operators {text : String} {expr : Expr} (h : ofText? text = .ok expr) :
    expr.operators.length = operatorCount text :=
  (inorder_of_ofLexemes? h).2.length_eq

/-- An operand to which the given number of others are added one by one. -/
def leftSum : Nat → Expr
  | 0 => .operand "a"
  | count + 1 => .binary .add (leftSum count) (.operand "a")

theorem holdsAt_leftSum (count : Nat) : (leftSum count).HoldsAt 1 := by
  induction count with
  | zero => exact (holdsAt_operand "a").mono (by decide)
  | succ count ih => exact .binary rfl ih ((holdsAt_operand "a").mono (by decide))

theorem length_operators_leftSum (count : Nat) : (leftSum count).operators.length = count := by
  induction count with
  | zero => rfl
  | succ count ih =>
    rw [leftSum, operators_binary, List.length_append, List.length_cons, ih]
    rfl

theorem height_leftSum (count : Nat) : (leftSum count).toTree.height = count + 1 := by
  induction count with
  | zero => rfl
  | succ count ih =>
    have hoperand : (operand "a").toTree.height = 1 := rfl
    rw [leftSum, toTree, Tree.height_node, Tree.maxHeight_cons, Tree.maxHeight_cons,
      Tree.maxHeight_nil, ih, hoperand]
    omega

theorem mem_leaves_leftSum {count : Nat} {word : String}
    (h : word ∈ (leftSum count).toTree.leaves) : word = "a" := by
  induction count with
  | zero => exact List.mem_singleton.1 h
  | succ count ih =>
    rw [leftSum, toTree, Tree.leaves_pair] at h
    rcases List.mem_append.1 h with h | h
    · exact ih h
    · exact List.mem_singleton.1 h

theorem ofText?_leftSum (count : Nat) :
    ofText? (" ".intercalate (leftSum count).toTree.inorder) = .ok (leftSum count) := by
  have hleaves : ∀ word ∈ (leftSum count).toTree.leaves, isOperandWord word = true := by
    intro word hmem
    rw [mem_leaves_leftSum hmem]
    decide
  rw [ofText?, lexemes_intercalate_inorder hleaves, ofLexemes?_inorder (holdsAt_leftSum count).1]

end Expr

/-- The walk over the nodes of a tree comes to its height, which is one for a leaf and otherwise one
more than the greatest among its children. It takes one round for each node, in whatever order the
children of a node join the trees that wait. The tree of an equation is deeper than the number of
its operators by one at most, and for every number of operators there is one as deep as that. -/
theorem depth_of_ofText? :
    (∀ tree : Tree String, tree.depth = tree.height ∧
      tree.depth = 1 + (tree.children.map Tree.depth).foldr max 0) ∧
    (∀ order, (∀ below pending, (order below pending).Perm (below ++ pending)) →
      ∀ (tree : Tree String) rounds,
        tree.depthWithin order rounds = if tree.size ≤ rounds then some tree.depth else none) ∧
    (∀ text expr, Expr.ofText? text = .ok expr → expr.toTree.depth ≤ operatorCount text + 1) ∧
    ∀ count, ∃ text expr, Expr.ofText? text = .ok expr ∧ operatorCount text = count ∧
      expr.toTree.depth = count + 1 := by
  refine ⟨fun tree => ⟨tree.depth_eq_height, tree.depth_eq⟩, ?_, ?_, ?_⟩
  · intro order horder tree rounds
    exact Tree.depthWithin_eq horder rounds tree
  · intro text expr h
    rw [Tree.depth_eq_height, ← Expr.length_operators h]
    exact expr.height_toTree_le
  · intro count
    have hread := Expr.ofText?_leftSum count
    refine ⟨_, _, hread, ?_, ?_⟩
    · rw [← Expr.length_operators hread, Expr.length_operators_leftSum]
    · rw [Tree.depth_eq_height, Expr.height_leftSum]

-- The child that comes last is taken first.
theorem depth_of_ofText?_stack :
    ∃ expr, Expr.ofText? "x = a * b + c" = .ok expr ∧
      expr.toTree.depthWithin (fun below pending => below.reverse ++ pending) 6 = none ∧
      expr.toTree.depthWithin (fun below pending => below.reverse ++ pending) 7 = some 4 ∧
      operatorCount "x = a * b + c" = 3 ∧
      expr.toTree.depth ≤ operatorCount "x = a * b + c" + 1 := by
  have hread : Expr.ofText? "x = a * b + c" =
      .ok (.binary .assign (.operand "x")
        (.binary .add (.binary .mul (.operand "a") (.operand "b")) (.operand "c"))) := by
    decide +kernel
  have hcount : operatorCount "x = a * b + c" = 3 := by
    decide +kernel
  have horder : ∀ below pending : Tree.Waiting String,
      (below.reverse ++ pending).Perm (below ++ pending) :=
    fun below pending => (List.reverse_perm below).append_right pending
  obtain ⟨-, hwalk, hle, -⟩ := depth_of_ofText?
  refine ⟨_, hread, ?_, ?_, hcount, hle _ _ hread⟩
  · rw [hwalk _ horder]
    decide +kernel
  · rw [hwalk _ horder]
    decide +kernel

end Equation

end ThreeAddress
