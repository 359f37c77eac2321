import ThreeAddress.Proofs.Conservation
import ThreeAddress.Proofs.Height
import ThreeAddress.Proofs.Lexemes

/-!
# Edges level by level

The queue of the edge listing always holds the rest of one level and the beginning of the next, so
the edges come level by level, each level from left to right. They tell a tree if the value of a
node says how many children it has. In the tree of an equation it does: operators have two children
and operands none, and no operand is spelled like an operator.
-/

namespace ThreeAddress

namespace Tree

variable {α : Type}

/-! ## Levels -/

/-- The nodes so many steps below the root, from left to right, each with all that is below it. -/
def level : Nat → Tree α → List (Tree α)
  | 0, tree => [tree]
  | steps + 1, .node _ children => children.flatMap (level steps)

/-- The nodes of all levels, one level after the other. -/
def levelOrder (tree : Tree α) : List (Tree α) :=
  (List.range tree.height).flatMap fun steps => tree.level steps

/-- The edges from a node to its children. -/
def edgesBelow (tree : Tree α) : List (α × α) :=
  tree.children.map fun child => (tree.value, child.value)

theorem level_succ (steps : Nat) (tree : Tree α) :
    tree.level (steps + 1) = tree.children.flatMap (level steps) := by
  obtain ⟨value, below⟩ := tree
  rfl

/-- A level consists of the children of the level above. -/
theorem level_succ_eq (steps : Nat) (tree : Tree α) :
    tree.level (steps + 1) = (tree.level steps).flatMap children := by
  induction steps generalizing tree with
  | zero =>
    rw [level_succ, level, List.flatMap_singleton]
    exact List.flatMap_singleton' _
  | succ steps ih =>
    rw [level_succ, level_succ steps, List.flatMap_assoc]
    exact List.flatMap_congr fun child _ => ih child

theorem maxHeight_flatMap_children {queue : List (Tree α)} {height : Nat}
    (h : maxHeight queue ≤ height + 1) : maxHeight (queue.flatMap children) ≤ height := by
  induction queue with
  | nil => exact Nat.zero_le _
  | cons tree queue ih =>
    obtain ⟨value, below⟩ := tree
    rw [maxHeight_cons, height_node] at h
    rw [List.flatMap_cons, maxHeight_append]
    have hbelow : maxHeight below ≤ height := by omega
    exact Nat.max_le.2 ⟨hbelow, ih (by omega)⟩

theorem level_eq_nil {steps : Nat} {tree : Tree α} (h : tree.height ≤ steps) :
    tree.level steps = [] := by
  induction steps generalizing tree with
  | zero =>
    obtain ⟨value, below⟩ := tree
    rw [height_node] at h
    omega
  | succ steps ih =>
    obtain ⟨value, below⟩ := tree
    rw [height_node] at h
    rw [level, List.flatMap_eq_nil_iff]
    intro child hmem
    have hchild := height_le_maxHeight hmem
    exact ih (by omega)

/-- Every node but the root comes as a child of one that comes before it. -/
theorem levelOrder_eq (tree : Tree α) :
    tree.levelOrder = tree :: tree.levelOrder.flatMap children :=
  calc tree.levelOrder
    -- one more level would be empty
    _ = (List.range (tree.height + 1)).flatMap fun steps => tree.level steps := by
      rw [List.range_succ, List.flatMap_append, List.flatMap_singleton,
        level_eq_nil (Nat.le_refl _), List.append_nil, levelOrder]
    _ = tree :: (List.range tree.height).flatMap fun steps => tree.level (steps + 1) := by
      rw [List.range_succ_eq_map, List.flatMap_cons, List.flatMap_map]
      rfl
    _ = tree :: tree.levelOrder.flatMap children := by
      rw [levelOrder, List.flatMap_assoc]
      exact congrArg _ (List.flatMap_congr fun steps _ => level_succ_eq steps tree)

/-! ## The queue -/

/-- The trees in front are taken one by one, and what is below them is put behind the others. -/
theorem edgesOfQueue_append (front back : List (Tree α)) :
    edgesOfQueue (front ++ back) =
      front.flatMap edgesBelow ++ edgesOfQueue (back ++ front.flatMap children) := by
  induction front generalizing back with
  | nil =>
    rw [List.nil_append, List.flatMap_nil, List.flatMap_nil, List.append_nil, List.nil_append]
  | cons tree front ih =>
    obtain ⟨value, below⟩ := tree
    rw [List.cons_append, edgesOfQueue, List.append_assoc, ih, List.flatMap_cons, List.flatMap_cons,
      List.append_assoc, List.append_assoc]
    rfl

/-- A queue has its own edges first and then those of the level below. -/
theorem edgesOfQueue_eq (queue : List (Tree α)) :
    edgesOfQueue queue = queue.flatMap edgesBelow ++ edgesOfQueue (queue.flatMap children) := by
  have hqueue := edgesOfQueue_append queue []
  rwa [List.append_nil, List.nil_append] at hqueue

theorem edgesOfQueue_eq_levels {queue : List (Tree α)} {height : Nat}
    (h : maxHeight queue ≤ height) :
    edgesOfQueue queue = (List.range height).flatMap fun steps =>
      (queue.flatMap (level steps)).flatMap edgesBelow := by
  induction height generalizing queue with
  | zero =>
    cases queue with
    | nil => rw [edgesOfQueue, List.range_zero, List.flatMap_nil]
    | cons tree queue =>
      obtain ⟨value, below⟩ := tree
      rw [maxHeight_cons, height_node] at h
      omega
  | succ height ih =>
    have hfirst : queue.flatMap (level 0) = queue := List.flatMap_singleton' queue
    have hbelow (steps : Nat) : (queue.flatMap children).flatMap (level steps) =
        queue.flatMap (level (steps + 1)) := by
      rw [List.flatMap_assoc]
      exact List.flatMap_congr fun tree _ => (level_succ steps tree).symm
    rw [edgesOfQueue_eq, ih (maxHeight_flatMap_children h), List.range_succ_eq_map,
      List.flatMap_cons, List.flatMap_map, hfirst]
    exact congrArg _ (List.flatMap_congr fun steps _ => by rw [hbelow])

theorem edges_eq (tree : Tree α) : tree.edges = tree.levelOrder.flatMap edgesBelow := by
  have hheight : maxHeight [tree] ≤ tree.height := by
    rw [maxHeight_cons, maxHeight_nil, Nat.max_zero]
  rw [edges, edgesOfQueue_eq_levels hheight, levelOrder, List.flatMap_assoc]
  exact List.flatMap_congr fun steps _ => by rw [List.flatMap_singleton]

theorem length_edgesOfQueue (queue : List (Tree α)) :
    (edgesOfQueue queue).length + queue.length = totalSize queue := by
  fun_induction edgesOfQueue queue with
  | case1 => rfl
  | case2 value below queue ih =>
    rw [List.length_append, totalSize_append] at ih
    rw [List.length_append, List.length_map, List.length_cons, totalSize_cons, size_node]
    omega

/-- Every node comes once. -/
theorem length_levelOrder (tree : Tree α) : tree.levelOrder.length = tree.size := by
  have hedges : tree.edges.length + 1 = tree.size := by
    have hqueue := length_edgesOfQueue [tree]
    rwa [totalSize_cons, totalSize_nil, List.length_singleton] at hqueue
  have hbelow : (tree.levelOrder.flatMap edgesBelow).length =
      (tree.levelOrder.flatMap children).length := by
    rw [List.length_flatMap, List.length_flatMap]
    congr 1
    exact List.map_congr_left fun node _ => List.length_map ..
  rw [levelOrder_eq, List.length_cons, ← hbelow, ← edges_eq, hedges]

/-! ## Trees told by their edges -/

/-- Every node has as many children as its value says. -/
inductive Ranked (arity : α → Nat) : Tree α → Prop where
  | node {value children} : children.length = arity value →
      (∀ child ∈ children, Ranked arity child) → Ranked arity (.node value children)

variable {arity : α → Nat} {queue other : List (Tree α)}

theorem pos_of_mem_edgesOfQueue (h : ∀ tree ∈ queue, tree.Ranked arity) {edge : α × α}
    (hmem : edge ∈ edgesOfQueue queue) : 0 < arity edge.1 := by
  fun_induction edgesOfQueue queue with
  | case1 => cases hmem
  | case2 value below queue ih =>
    obtain ⟨htree, hqueue⟩ := List.forall_mem_cons.1 h
    obtain ⟨hlength, hbelow⟩ := htree
    rcases List.mem_append.1 hmem with hmem | hmem
    · obtain ⟨child, hchild, rfl⟩ := List.mem_map.1 hmem
      exact hlength ▸ List.length_pos_of_mem hchild
    · exact ih (List.forall_mem_append.2 ⟨hqueue, hbelow⟩) hmem

/-- Queues of such trees with the same values at the roots are told apart by the edges. The value
that is taken first says how many of the edges are its own. -/
theorem eq_of_edgesOfQueue_eq (hqueue : ∀ tree ∈ queue, tree.Ranked arity)
    (hother : ∀ tree ∈ other, tree.Ranked arity) (hvalues : queue.map value = other.map value)
    (h : edgesOfQueue queue = edgesOfQueue other) : queue = other := by
  fun_induction edgesOfQueue queue generalizing other with
  | case1 =>
    rw [List.map_nil, eq_comm, List.map_eq_nil_iff] at hvalues
    exact hvalues.symm
  | case2 top below queue ih =>
    cases other with
    | nil => cases hvalues
    | cons first rest =>
      obtain ⟨top', below'⟩ := first
      obtain ⟨⟨hlength, hbelow⟩, hqueue⟩ := List.forall_mem_cons.1 hqueue
      obtain ⟨⟨hlength', hbelow'⟩, hrest⟩ := List.forall_mem_cons.1 hother
      obtain ⟨rfl, hmore⟩ : top = top' ∧ queue.map value = rest.map value := List.cons.inj hvalues
      rw [edgesOfQueue] at h
      have hedges := List.append_inj h (by rw [List.length_map, List.length_map, hlength, hlength'])
      have hchildren : below.map value = below'.map value := by
        have hlower := congrArg (List.map Prod.snd) hedges.1
        rwa [List.map_map, List.map_map] at hlower
      have hall : queue ++ below = rest ++ below' := by
        refine ih (List.forall_mem_append.2 ⟨hqueue, hbelow⟩)
          (List.forall_mem_append.2 ⟨hrest, hbelow'⟩) ?_ hedges.2
        rw [List.map_append, List.map_append, hmore, hchildren]
      have hlengths : queue.length = rest.length := by
        have hcount := congrArg List.length hmore
        rwa [List.length_map, List.length_map] at hcount
      obtain ⟨rfl, rfl⟩ := List.append_inj hall hlengths
      rfl

-- The first edge begins at the root.
theorem fst_of_edges {tree : Tree α} {edge : α × α} {rest : List (α × α)}
    (h : tree.edges = edge :: rest) : edge.1 = tree.value := by
  obtain ⟨value, below⟩ := tree
  rw [edges, edgesOfQueue] at h
  cases below with
  | nil =>
    rw [List.append_nil, edgesOfQueue] at h
    cases h
  | cons child below =>
    obtain ⟨rfl, -⟩ := List.cons.inj h
    rfl

theorem Ranked.eq_of_edges_eq {tree tree' : Tree α} (h : tree.Ranked arity)
    (h' : tree'.Ranked arity) (hne : tree.edges ≠ []) (heq : tree.edges = tree'.edges) :
    tree = tree' := by
  obtain ⟨edge, rest, hedges⟩ := List.exists_cons_of_ne_nil hne
  have hvalue : tree.value = tree'.value := by
    rw [← fst_of_edges hedges, fst_of_edges (heq ▸ hedges)]
  have hqueue : [tree] = [tree'] := by
    refine eq_of_edgesOfQueue_eq (List.forall_mem_singleton.2 h) (List.forall_mem_singleton.2 h') ?_
      heq
    rw [List.map_singleton, List.map_singleton, hvalue]
  exact (List.cons.inj hqueue).1

end Tree

namespace Equation

/-! ## Trees of equations -/

/-- How many children a node with the label has in the tree of an equation. -/
def arity (label : String) : Nat :=
  if (Operator.ofText? label).isSome then 2 else 0

theorem arity_symbol (op : Operator) : arity op.symbol = 2 := by
  rw [arity, Operator.ofText?_symbol]
  rfl

theorem exists_symbol_of_arity_pos {label : String} (h : 0 < arity label) :
    ∃ op : Operator, label = op.symbol := by
  cases hop : Operator.ofText? label with
  | none =>
    rw [arity, hop] at h
    cases h
  | some op => exact ⟨op, eq_symbol_of_ofText? hop⟩

theorem Expr.ranked_toTree {expr : Expr}
    (h : ∀ word, .operand word ∈ expr.inorder → Operator.ofText? word = none) :
    expr.toTree.Ranked arity := by
  induction expr with
  | operand word =>
    refine .node ?_ nofun
    rw [arity, h word (List.mem_singleton_self _)]
    rfl
  | binary op left right ihleft ihright =>
    refine .node (arity_symbol op).symm ?_
    have hleft := ihleft fun word hmem => h word (List.mem_append_left _ hmem)
    have hright := ihright fun word hmem =>
      h word (List.mem_append_right _ (List.mem_cons_of_mem _ hmem))
    exact List.forall_mem_cons.2 ⟨hleft, List.forall_mem_singleton.2 hright⟩

theorem Expr.ranked_of_ofText? {text : String} {expr : Expr} (h : ofText? text = .ok expr) :
    expr.toTree.Ranked arity := by
  have hoperands := (inorder_of_ofLexemes? h).1
  refine ranked_toTree fun word hmem => ?_
  rw [← mem_operands, hoperands, mem_operands] at hmem
  cases hop : Operator.ofText? word with
  | none => rfl
  | some op => exact absurd (eq_symbol_of_ofText? hop) (symbol_ne_operand (operand_of_mem hmem) op)

-- With an operator among the lexemes the root is one.
theorem Expr.edges_ne_nil {text : String} {expr : Expr} (h : ofText? text = .ok expr)
    (hcount : 0 < operatorCount text) : expr.toTree.edges ≠ [] := by
  have hoperators := (inorder_of_ofLexemes? h).2.length_eq
  cases expr with
  | operand word =>
    rw [operatorCount, ← hoperators] at hcount
    cases hcount
  | binary op left right =>
    rw [toTree, Tree.edges, Tree.edgesOfQueue, List.map_cons]
    exact List.cons_ne_nil _ _

-- A line begins with the one character of an operator, so it can be taken apart.
theorem line_inj {op op' : Operator} {child child' : String}
    (h : op.symbol ++ " -> " ++ child = op'.symbol ++ " -> " ++ child') :
    op = op' ∧ child = child' := by
  obtain ⟨c, hsymbol, -⟩ := exists_symbol_char op
  obtain ⟨c', hsymbol', -⟩ := exists_symbol_char op'
  have hchars := congrArg String.toList h
  rw [String.toList_append, String.toList_append, String.toList_append, String.toList_append,
    hsymbol, hsymbol', List.append_assoc, List.append_assoc, List.singleton_append,
    List.singleton_append, List.cons.injEq, List.append_cancel_left_eq] at hchars
  refine ⟨symbol_inj (String.toList_injective ?_), String.toList_injective hchars.2⟩
  rw [hsymbol, hsymbol', hchars.1]

theorem edges_eq_of_edgeLines_eq {tree tree' : Tree String} (h : tree.Ranked arity)
    (h' : tree'.Ranked arity) (heq : tree.edgeLines = tree'.edgeLines) :
    tree.edges = tree'.edges := by
  have hparent {tree : Tree String} (h : tree.Ranked arity) {edge : String × String}
      (hmem : edge ∈ tree.edges) : ∃ op : Operator, edge.1 = op.symbol :=
    exists_symbol_of_arity_pos
      (Tree.pos_of_mem_edgesOfQueue (List.forall_mem_singleton.2 h) hmem)
  refine eq_of_map_eq (fun edge hmem edge' hmem' hline => ?_) heq
  obtain ⟨op, hop⟩ := hparent h hmem
  obtain ⟨op', hop'⟩ := hparent h' hmem'
  rw [hop, hop'] at hline
  obtain ⟨rfl, hchild⟩ := line_inj hline
  exact Prod.ext (hop.trans hop'.symm) hchild

/-- The lines of a tree's edges go through its nodes level by level, each level from left to right,
and have one line for each child of a node. The nodes that come are the root and these children, and
they are as many as the tree has. Of texts that are read, one of which has an operator, the lines
tell the trees apart, although labels may be repeated. -/
theorem edgeLines_levelOrder :
    (∀ tree : Tree String,
      tree.edgeLines = tree.levelOrder.flatMap (fun node =>
        node.children.map fun child => node.value ++ " -> " ++ child.value) ∧
      tree.levelOrder = tree :: tree.levelOrder.flatMap Tree.children ∧
      tree.levelOrder.length = tree.size) ∧
    ∀ text other expr expr', Expr.ofText? text = .ok expr → Expr.ofText? other = .ok expr' →
      0 < operatorCount text → expr.toTree.edgeLines = expr'.toTree.edgeLines →
        expr.toTree = expr'.toTree := by
  constructor
  · intro tree
    refine ⟨?_, tree.levelOrder_eq, tree.length_levelOrder⟩
    rw [Tree.edgeLines, Tree.edges_eq, List.map_flatMap]
    refine List.flatMap_congr fun node _ => ?_
    rw [Tree.edgesBelow, List.map_map]
    rfl
  · intro text other expr expr' htext hother hcount heq
    have hranked := Expr.ranked_of_ofText? htext
    have hranked' := Expr.ranked_of_ofText? hother
    exact hranked.eq_of_edges_eq hranked' (Expr.edges_ne_nil htext hcount)
      (edges_eq_of_edgeLines_eq hranked hranked' heq)

-- One tree from two texts, the second of which has its operators behind all operands.
theorem edgeLines_levelOrder_postfix :
    ∃ expr expr', Expr.ofText? "a + a * a" = .ok expr ∧ Expr.ofText? "a a a * +" = .ok expr' ∧
      0 < operatorCount "a + a * a" ∧
      expr.toTree.edgeLines = ["+ -> a", "+ -> *", "* -> a", "* -> a"] ∧
      expr.toTree.edgeLines = expr'.toTree.edgeLines ∧ expr.toTree = expr'.toTree := by
  have htext : Expr.ofText? "a + a * a" =
      .ok (.binary .add (.operand "a") (.binary .mul (.operand "a") (.operand "a"))) := by
    decide +kernel
  have hother : Expr.ofText? "a a a * +" =
      .ok (.binary .add (.operand "a") (.binary .mul (.operand "a") (.operand "a"))) := by
    decide +kernel
  have hcount : 0 < operatorCount "a + a * a" := by
    decide +kernel
  refine ⟨_, _, htext, hother, hcount, ?_, rfl,
    edgeLines_levelOrder.2 _ _ _ _ htext hother hcount rfl⟩
  decide +kernel

end Equation

end ThreeAddress
