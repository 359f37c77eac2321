import ThreeAddress.Tree

/-!
# Induction over ordered trees

A property holds of all trees if it holds of a node whenever it holds of the node's children. Values
that all satisfy a condition keep doing so in every child. Lists of children are told apart by what
tells each child apart.
-/

namespace ThreeAddress

/-- Equal images of two lists stay equal under a function that tells no more elements apart. -/
theorem map_eq_of_map_eq {α β γ : Type} {f : α → β} {g : α → γ} {list other : List α}
    (h : ∀ a ∈ list, ∀ b ∈ other, f a = f b → g a = g b) (heq : list.map f = other.map f) :
    list.map g = other.map g := by
  induction list generalizing other with
  | nil =>
    rw [List.map_nil, eq_comm, List.map_eq_nil_iff] at heq
    rw [heq]
  | cons a list ih =>
    cases other with
    | nil => simp at heq
    | cons b other =>
      rw [List.map_cons, List.map_cons, List.cons.injEq] at heq
      rw [List.map_cons, List.map_cons, h a (by simp) b (by simp) heq.1,
        ih (fun a ha b hb => h a (by simp [ha]) b (by simp [hb])) heq.2]

/-- A function that tells the elements of two lists apart tells the lists apart. -/
theorem eq_of_map_eq {α β : Type} {f : α → β} {list other : List α}
    (h : ∀ a ∈ list, ∀ b ∈ other, f a = f b → a = b) (heq : list.map f = other.map f) :
    list = other := by
  have hid : list.map id = other.map id := map_eq_of_map_eq h heq
  rwa [List.map_id, List.map_id] at hid

namespace Tree

variable {α β : Type}

/-- Induction over trees, with the children as they stand in a node. -/
@[elab_as_elim]
theorem childInduction {motive : Tree α → Prop}
    (node : ∀ value children, (∀ child ∈ children, motive child) → motive (.node value children)) :
    ∀ tree, motive tree
  | .node value children => node value children fun child _ => childInduction node child
termination_by tree => sizeOf tree
decreasing_by
  rename_i hmem
  have := List.sizeOf_lt_of_mem hmem
  simp
  omega

theorem map_node (f : α → β) (value : α) (children : List (Tree α)) :
    (Tree.node value children).map f = .node (f value) (children.map (Tree.map f)) :=
  fold_node ..

theorem isLeaf_map (f : α → β) (tree : Tree α) : (tree.map f).isLeaf = tree.isLeaf := by
  obtain ⟨value, children⟩ := tree
  rw [map_node]
  exact List.isEmpty_map

/-- Every value in the tree satisfies the condition. -/
inductive All (condition : α → Prop) : Tree α → Prop where
  | node {value children} : condition value → (∀ child ∈ children, All condition child) →
      All condition (.node value children)

theorem All.value {condition : α → Prop} {value : α} {children : List (Tree α)}
    (h : All condition (.node value children)) : condition value := by
  cases h with
  | node hvalue _ => exact hvalue

theorem All.child {condition : α → Prop} {value : α} {children : List (Tree α)}
    (h : All condition (.node value children)) {child : Tree α} (hmem : child ∈ children) :
    All condition child := by
  cases h with
  | node _ hchildren => exact hchildren child hmem

end Tree

end ThreeAddress
