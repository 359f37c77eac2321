import ThreeAddress.Proofs.Route

/-!
# Lowering by recursion

The order in which a tree is lowered, told by recursion over the tree: the children first, from left
to right, then the node itself. A node without a form that can be lowered is reported before any of
its children is looked at. The walk over a stack of operations gives the same name or the same
failure and leaves the same code, whatever the tree is and whatever code there is already.
-/

namespace ThreeAddress

namespace Lowering

/-! ## The recursion -/

/-- Adds to the code and yields something, or fails at a node. What was emitted before a failure
stays. -/
abbrev Emission :=
  ExceptT Malformed (StateM Code)

/-- Emits a copy for an assignment, which yields its left side, or else an operator with the next
temporary as its target, which it yields. -/
def emit (op : Operator) (left right : String) : Emission String := fun code =>
  if op = .assign then
    (.ok left, ⟨code.instructions.push (.copy left right), code.temporaries⟩)
  else
    let target := "t" ++ toString code.temporaries
    (.ok target, ⟨code.instructions.push (.binary target left op right), code.temporaries + 1⟩)

/-- Whether the nodes are any node between leaves that are parentheses. -/
def isGroup : List (Tree String) → Bool
  | [opening, _, closing] =>
      opening.isLeaf && opening.value == "(" && (closing.isLeaf && closing.value == ")")
  | _ => false

/-- Whether leaves that are arithmetic operators take turns with operands. -/
def takesTurns : List (Tree String) → Bool
  | [] => true
  | [_] => false
  | sign :: _ :: rest =>
      sign.isLeaf && (Operator.ofText? sign.value).any Operator.isArithmetic && takesTurns rest

mutual

/-- Lowers a tree and yields the name that then holds its value. A leaf stands for itself. A node
that is an operator has to have two operands. Any other node stands for its only child, for what is
between its parentheses, or for a chain of operands. -/
def postorder : Tree String → Emission String
  | .node value [] => pure value
  | .node value (first :: rest) =>
      match Operator.ofText? value, rest with
      | some op, [second] => do
          let left ← postorder first
          let right ← postorder second
          emit op left right
      | some _, rest => throw ⟨value, rest.length + 1⟩
      | none, [] => postorder first
      | none, second :: more =>
          if isGroup (first :: second :: more) then postorder second
          else if takesTurns (second :: more) then do
            let left ← postorder first
            foldOperands left (second :: more)
          else throw ⟨value, more.length + 2⟩

/-- Lowers the operands of a chain from left to right, each followed by the operator in front of it
on what there is so far. -/
def foldOperands (left : String) : List (Tree String) → Emission String
  | sign :: operand :: rest =>
      match Operator.ofText? sign.value with
      | some op => do
          let right ← postorder operand
          let result ← emit op left right
          foldOperands result rest
      | none => pure left
  | _ => pure left

end

/-! ## The walk as a computation -/

theorem bind_emission {α β : Type} (first : Emission α) (next : α → Emission β) (code : Code) :
    (first >>= next) code =
      match first code with
      | (.error node, later) => (.error node, later)
      | (.ok result, later) => next result later := by
  have hbind : (first >>= next) code = ExceptT.bindCont next (first code).1 (first code).2 := rfl
  rw [hbind]
  cases first code with
  | mk outcome later => cases outcome <;> rfl

theorem emit_eq_apply (op : Operator) (left right : String) (code : Code) :
    emit op left right code =
      (.ok (code.apply op left right).1, (code.apply op left right).2) := by
  cases op <;> rfl

/-- What the walk does with a tree. -/
def lowering (tree : Tree String) : Emission String := fun code =>
  code.lower tree

/-- What the walk does with the operations on a name. -/
def applying (name : String) (operations : List Operation) : Emission String := fun code =>
  applyAll code name operations

theorem lowering_leaf (value : String) : lowering (.node value []) = pure value :=
  funext fun code => code.lower_leaf value

section Node

variable {value : String} {child : Tree String} {children : List (Tree String)}

theorem lowering_malformed (h : form? (.node value (child :: children)) = none) :
    lowering (.node value (child :: children)) = throw ⟨value, children.length + 1⟩ :=
  funext fun code => walk_malformed h [] code

theorem lowering_of_form? {first : Tree String} {operations : List Operation}
    (h : form? (.node value (child :: children)) = some (first, operations)) :
    lowering (.node value (child :: children)) =
      lowering first >>= fun name => applying name operations := by
  funext code
  rw [bind_emission]
  show code.lower (.node value (child :: children)) = _
  rw [Code.lower_of_form? h]
  unfold lowering
  cases code.lower first with
  | mk outcome later => cases outcome <;> rfl

end Node

theorem applying_nil (name : String) : applying name [] = pure name :=
  rfl

theorem applying_cons (name : String) (op : Operator) (operand : Tree String)
    (pending : List Operation) :
    applying name ((op, operand) :: pending) =
      lowering operand >>= fun right =>
        emit op name right >>= fun result => applying result pending := by
  funext code
  rw [bind_emission]
  show applyAll code name ((op, operand) :: pending) = _
  rw [applyAll]
  unfold lowering
  cases code.lower operand with
  | mk outcome later =>
    cases outcome with
    | error node => rfl
    | ok right =>
      dsimp only
      rw [bind_emission, emit_eq_apply]
      rfl

/-! ## Forms of nodes -/

theorem isLeafOf_eq (symbol : String) (tree : Tree String) :
    isLeafOf symbol tree = (tree.isLeaf && tree.value == symbol) := by
  cases tree
  rfl

theorem plainForm?_eq (first second : Tree String) (rest : List (Tree String)) :
    plainForm? (first :: second :: rest) =
      if isGroup (first :: second :: rest) then some (second, [])
      else (operations? (second :: rest)).map fun operations => (first, operations) := by
  match rest with
  | [third] => rw [plainForm?, isLeafOf_eq, isLeafOf_eq, isGroup]
  | [] | _ :: _ :: _ => rw [plainForm?, isGroup, if_neg Bool.false_ne_true] <;> simp

theorem isSome_operations? : ∀ trees : List (Tree String),
    (operations? trees).isSome = takesTurns trees
  | [] | [.node _ []] | [.node _ (_ :: _)] | .node _ (_ :: _) :: _ :: _ => rfl
  | .node symbol [] :: operand :: rest => by
    have ih := isSome_operations? rest
    rw [operations?, takesTurns, Tree.value]
    cases hsymbol : Operator.ofText? symbol with
    | none => rfl
    | some op =>
      by_cases harith : op.isArithmetic = true
      · simp [harith, ih, Tree.isLeaf, Tree.children]
      · simp [harith]

-- The operations of a chain are its operators with their right operands.
theorem applying_eq_foldOperands {trees : List (Tree String)} {operations : List Operation}
    (h : operations? trees = some operations)
    (hlowering : ∀ tree ∈ trees, lowering tree = postorder tree) (name : String) :
    applying name operations = foldOperands name trees := by
  fun_induction operations? trees generalizing operations name with
  | case1 =>
    cases h
    rw [foldOperands, applying_nil]
    simp
  | case2 | case4 | case5 => cases h
  | case3 symbol operand rest op hsymbol harith ih =>
    obtain ⟨more, hmore, rfl⟩ := Option.map_eq_some_iff.1 h
    have hrest : ∀ result, applying result more = foldOperands result rest :=
      ih hmore fun tree hmem => hlowering tree (by simp [hmem])
    rw [applying_cons, foldOperands, hlowering operand (by simp)]
    simp only [Tree.value, hsymbol, hrest]

section Cases

variable {value : String} {first second : Tree String} {rest : List (Tree String)}

theorem lowering_of_operator {op : Operator} (hop : Operator.ofText? value = some op)
    (hlowering : ∀ tree ∈ first :: rest, lowering tree = postorder tree) :
    lowering (.node value (first :: rest)) = postorder (.node value (first :: rest)) := by
  have hfirst : lowering first = postorder first := hlowering first List.mem_cons_self
  match rest with
  | [second] =>
    have hsecond : lowering second = postorder second := hlowering second (by simp)
    have hform : form? (.node value [first, second]) = some (first, [(op, second)]) := by
      rw [form?, hop]
    rw [lowering_of_form? hform, postorder.eq_def]
    simp only [hop, hfirst, hsecond, applying_cons, applying_nil, bind_pure]
  | [] | _ :: _ :: _ =>
    rw [lowering_malformed (by rw [form?, hop]), postorder.eq_def]
    simp only [hop]

theorem lowering_of_only (hop : Operator.ofText? value = none)
    (hfirst : lowering first = postorder first) :
    lowering (.node value [first]) = postorder (.node value [first]) := by
  have hform : form? (.node value [first]) = some (first, []) := by
    rw [form?, hop, plainForm?]
  rw [lowering_of_form? hform, postorder.eq_def]
  simp only [hop, hfirst, applying_nil, bind_pure]

theorem lowering_of_several (hop : Operator.ofText? value = none)
    (hlowering : ∀ tree ∈ first :: second :: rest, lowering tree = postorder tree) :
    lowering (.node value (first :: second :: rest)) =
      postorder (.node value (first :: second :: rest)) := by
  have hform : form? (.node value (first :: second :: rest)) =
      plainForm? (first :: second :: rest) := by
    rw [form?, hop]
  rw [postorder.eq_def]
  simp only [hop]
  rw [plainForm?_eq] at hform
  by_cases hgroup : isGroup (first :: second :: rest) = true
  · rw [if_pos hgroup] at hform ⊢
    rw [lowering_of_form? hform, hlowering second (by simp)]
    simp only [applying_nil, bind_pure]
  · rw [if_neg hgroup] at hform ⊢
    rw [← isSome_operations?]
    cases hoperations : operations? (second :: rest) with
    | none =>
      rw [hoperations] at hform
      exact lowering_malformed hform
    | some operations =>
      rw [hoperations] at hform
      have hrest := applying_eq_foldOperands hoperations fun tree hmem =>
        hlowering tree (List.mem_cons_of_mem first hmem)
      rw [lowering_of_form? hform, hlowering first List.mem_cons_self]
      simp only [hrest]
      rfl

end Cases

theorem lowering_eq_postorder (tree : Tree String) : lowering tree = postorder tree := by
  induction tree using Tree.childInduction with
  | node value children ih =>
    match children with
    | [] => rw [lowering_leaf, postorder]
    | first :: rest =>
      cases hop : Operator.ofText? value with
      | some op => exact lowering_of_operator hop ih
      | none =>
        match rest with
        | [] => exact lowering_of_only hop (ih first List.mem_cons_self)
        | second :: rest => exact lowering_of_several hop ih

end Lowering

/-- The walk yields what recursion over the tree yields, the name or the node that cannot be
lowered, and leaves the same code with as many temporaries. From a node it goes into the operands,
which are children of that node, each at most once and from left to right: its trail is the whole
route through the tree, or the route up to the node that cannot be lowered. -/
theorem Code.lower_eq_postorder (code : Code) (tree : Tree String) :
    code.lower tree = Lowering.postorder tree code ∧
      (Lowering.operands tree).Sublist tree.children ∧
      Lowering.KeepsTo (Lowering.route tree) (Lowering.Place.trail ⟨.enter tree, [], code⟩)
        (code.lower tree).1 := by
  refine ⟨congrFun (Lowering.lowering_eq_postorder tree) code, Lowering.operands_sublist tree, ?_⟩
  have hkeeps := Lowering.Place.trail_keepsTo ⟨.enter tree, [], code⟩
  rwa [Lowering.Place.ahead_enter] at hkeeps

-- Parentheses come before a chain: the operator sign between them is a name like any other.
example : Lowering.postorder (.node "E" [.leaf "(", .leaf "+", .leaf ")"]) .empty =
    (.ok "+", .empty) :=
  rfl

-- A failure below the second operand leaves what the first one has emitted.
example : Lowering.postorder (.node "-" [.node "*" [.leaf "a", .leaf "b"],
    .node "+" [.leaf "c"]]) .empty =
      (.error ⟨"+", 1⟩, ⟨#[.binary "t0" "a" .mul "b"], 1⟩) :=
  rfl

end ThreeAddress
