import ThreeAddress.Proofs.Trees
import ThreeAddress.Proofs.Walk

/-!
# The route of the walk

Which nodes the walk goes into, and in which order. From a node it goes into its operands, which are
children of the node. So its way through a tree is known from the tree alone: the route goes from a
node through the routes of its operands. The walk keeps to the route to its end, or up to the node
that cannot be lowered.
-/

namespace ThreeAddress

/-- What is reported of a node that cannot be lowered. -/
def Malformed.ofTree (tree : Tree String) : Malformed :=
  ⟨tree.value, tree.children.length⟩

namespace Lowering

/-! ## Operands -/

/-- The first operand of a node and the operands of the operations on it, in this order. -/
def operands (tree : Tree String) : List (Tree String) :=
  match form? tree with
  | none => []
  | some (first, operations) => first :: operations.map Prod.snd

theorem operands_of_form? {tree first : Tree String} {operations : List Operation}
    (h : form? tree = some (first, operations)) :
    operands tree = first :: operations.map Prod.snd := by
  rw [operands, h]

theorem operands_of_malformed {tree : Tree String} (h : form? tree = none) :
    operands tree = [] := by
  rw [operands, h]

-- A leaf has no form, whatever its value is.
theorem form?_leaf (value : String) : form? (.node value []) = none := by
  rw [form?]
  cases Operator.ofText? value <;> rfl

theorem sublist_of_operations? {trees : List (Tree String)} {operations : List Operation}
    (h : operations? trees = some operations) : (operations.map Prod.snd).Sublist trees := by
  fun_induction operations? trees generalizing operations with
  | case1 =>
    cases h
    exact List.nil_sublist _
  | case2 | case4 | case5 => cases h
  | case3 symbol operand rest op hsymbol harith ih =>
    obtain ⟨more, hmore, rfl⟩ := Option.map_eq_some_iff.1 h
    exact ((ih hmore).cons_cons operand).cons _

theorem operands_sublist (tree : Tree String) : (operands tree).Sublist tree.children := by
  cases hform : form? tree with
  | none =>
    rw [operands_of_malformed hform]
    exact List.nil_sublist _
  | some form =>
    obtain ⟨first, operations⟩ := form
    rw [operands_of_form? hform]
    obtain ⟨value, children⟩ := tree
    rw [Tree.children]
    obtain ⟨op, right, rfl, rfl⟩ | ⟨rfl, rfl⟩ | ⟨opening, closing, rfl, rfl⟩ | ⟨rest, rfl, hrest⟩ :=
      form?_cases hform
    · exact List.Sublist.refl _
    · exact List.Sublist.refl _
    · exact ((List.nil_sublist [closing]).cons_cons first).cons opening
    · exact (sublist_of_operations? hrest).cons_cons first

theorem sizeOf_lt_of_mem_operands {tree operand : Tree String} (h : operand ∈ operands tree) :
    sizeOf operand < sizeOf tree := by
  have := List.sizeOf_lt_of_mem ((operands_sublist tree).subset h)
  obtain ⟨value, children⟩ := tree
  simp only [Tree.children] at this
  simp only [Tree.node.sizeOf_spec]
  omega

/-- A node, and then the routes through its operands. -/
def route (tree : Tree String) : List (Tree String) :=
  tree :: (operands tree).attach.flatMap fun operand => route operand.1
termination_by sizeOf tree
decreasing_by exact sizeOf_lt_of_mem_operands operand.2

theorem route_eq (tree : Tree String) : route tree = tree :: (operands tree).flatMap route := by
  have hattach : ((operands tree).attach.map Subtype.val).flatMap route =
      (operands tree).attach.flatMap fun operand => route operand.1 :=
    List.flatMap_map ..
  rw [route, ← hattach, List.attach_map_subtype_val]

theorem route_of_form? {tree first : Tree String} {operations : List Operation}
    (h : form? tree = some (first, operations)) :
    route tree = tree :: (route first ++ (operations.map Prod.snd).flatMap route) := by
  rw [route_eq, operands_of_form? h, List.flatMap_cons]

theorem route_of_malformed {tree : Tree String} (h : form? tree = none) : route tree = [tree] := by
  rw [route_eq, operands_of_malformed h, List.flatMap_nil]

/-- The operands that the frame waits for. -/
def Frame.waiting : Frame → List (Tree String)
  | .left pending => pending.map Prod.snd
  | .right _ _ pending => pending.map Prod.snd

/-! ## Steps of the walk -/

/-- Where the walk stands between two of its steps. -/
structure Place where
  focus : Focus
  frames : List Frame
  code : Code

namespace Place

/-- What the walk from this place comes to. -/
def result (place : Place) : Except Malformed String × Code :=
  walk place.focus place.frames place.code

/-- The place after the next step, if the walk goes on. -/
def next? : Place → Option Place
  | ⟨.enter (.node value []), frames, code⟩ => some ⟨.leave value, frames, code⟩
  | ⟨.enter (.node value (child :: children)), frames, code⟩ =>
      match form? (.node value (child :: children)) with
      | none => none
      | some (first, operations) => some ⟨.enter first, .left operations :: frames, code⟩
  | ⟨.leave _, [], _⟩ => none
  | ⟨.leave name, .left [] :: frames, code⟩ => some ⟨.leave name, frames, code⟩
  | ⟨.leave name, .left ((op, operand) :: pending) :: frames, code⟩ =>
      some ⟨.enter operand, .right op name pending :: frames, code⟩
  | ⟨.leave name, .right op left pending :: frames, code⟩ =>
      some ⟨.leave (code.apply op left name).1, .left pending :: frames,
        (code.apply op left name).2⟩

/-- What the walk ends with at a place from which it does not go on. -/
def outcome (place : Place) : Except Malformed String :=
  match place.focus with
  | .enter tree => .error (.ofTree tree)
  | .leave name => .ok name

/-- The walk is its first step and the walk from there on. -/
theorem result_eq_next (place : Place) :
    place.result =
      match place.next? with
      | some later => later.result
      | none => (place.outcome, place.code) := by
  fun_cases next? place with
  | case1 value frames code => rw [result, walk]; rfl
  | case2 value child children frames code h => exact walk_malformed h frames code
  | case3 value child children frames code first operations h => exact walk_enter h frames code
  | case4 name code => rw [result, walk]; rfl
  | case5 name frames code => rw [result, walk]; rfl
  | case6 name op operand pending frames code => rw [result, walk]; rfl
  | case7 name op left pending frames code => rw [result, walk]; rfl

/-- The work left. -/
def work (place : Place) : Nat :=
  place.focus.work + stackWork place.frames

theorem work_lt_of_next? {place later : Place} (h : place.next? = some later) :
    later.work < place.work := by
  fun_cases next? place with
  | case1 value frames code =>
    cases h
    simp [work, Focus.work]
  | case2 value child children frames code hform =>
    simp [next?, hform] at h
  | case3 value child children frames code first operations hform =>
    simp only [next?, hform] at h
    cases h
    have := work_lt_of_form? hform
    simp only [work, Focus.work, stackWork_cons, Frame.work]
    omega
  | case4 => cases h
  | case5 name frames code =>
    cases h
    simp [work, Frame.work]
  | case6 name op operand pending frames code =>
    cases h
    simp [work, Focus.work, Frame.work]
    omega
  | case7 name op left pending frames code =>
    cases h
    simp [work, Focus.work, Frame.work]

/-- The node the walk goes into at this place, if any. -/
def entered (place : Place) : List (Tree String) :=
  match place.focus with
  | .enter tree => [tree]
  | .leave _ => []

/-- The nodes the walk goes into from this place on, in this order. -/
def trail (place : Place) : List (Tree String) :=
  place.entered ++
    match _h : place.next? with
    | none => []
    | some later => later.trail
termination_by place.work
decreasing_by exact work_lt_of_next? _h

theorem trail_of_next? {place later : Place} (h : place.next? = some later) :
    place.trail = place.entered ++ later.trail := by
  rw [trail]
  split
  · rename_i hnone
    rw [h] at hnone
    cases hnone
  · rename_i hsome
    rw [h] at hsome
    cases hsome
    rfl

theorem trail_of_stop {place : Place} (h : place.next? = none) : place.trail = place.entered := by
  rw [trail]
  split
  · exact List.append_nil _
  · rename_i hsome
    rw [h] at hsome
    cases hsome

/-- The routes still ahead: through the node in front, then through the operands that the frames
wait for, from the top of the stack down. -/
def ahead (place : Place) : List (Tree String) :=
  place.entered.flatMap route ++
    place.frames.flatMap fun frame => frame.waiting.flatMap route

theorem ahead_enter (tree : Tree String) (code : Code) :
    ahead ⟨.enter tree, [], code⟩ = route tree := by
  rw [ahead, entered, List.flatMap_singleton, List.flatMap_nil, List.append_nil]

-- A step takes from the routes ahead the node it goes into, and nothing else.
theorem ahead_of_next? {place later : Place} (h : place.next? = some later) :
    place.ahead = place.entered ++ later.ahead := by
  fun_cases next? place with
  | case1 value frames code =>
    cases h
    simp [ahead, entered, route_of_malformed (form?_leaf value)]
  | case2 value child children frames code hform =>
    simp [next?, hform] at h
  | case3 value child children frames code first operations hform =>
    simp only [next?, hform] at h
    cases h
    simp [ahead, entered, Frame.waiting, route_of_form? hform]
  | case4 => cases h
  | case5 | case6 | case7 =>
    cases h
    simp [ahead, entered, Frame.waiting]

end Place

/-! ## The trail and the route -/

/-- How the trail of a walk lies on the route, given how the walk ends: it is the whole route, or
else the route up to the node that cannot be lowered. -/
def KeepsTo (route trail : List (Tree String)) : Except Malformed String → Prop
  | .ok _ => trail = route
  | .error node => trail <+: route ∧ trail.getLast?.map Malformed.ofTree = some node

theorem KeepsTo.append {route trail : List (Tree String)} {outcome : Except Malformed String}
    (h : KeepsTo route trail outcome) (front : List (Tree String)) :
    KeepsTo (front ++ route) (front ++ trail) outcome := by
  cases outcome with
  | ok name => exact congrArg (front ++ ·) h
  | error node =>
    obtain ⟨hfront, hlast⟩ := h
    refine ⟨(List.prefix_append_right_inj front).2 hfront, ?_⟩
    obtain ⟨tree, htree, hnode⟩ := Option.map_eq_some_iff.1 hlast
    rw [List.getLast?_append, htree, Option.some_or, Option.map_some, hnode]

namespace Place

theorem keepsTo_of_stop {place : Place} (h : place.next? = none) :
    KeepsTo place.ahead place.entered place.outcome := by
  fun_cases next? place with
  | case2 value child children frames code hform =>
    refine ⟨?_, rfl⟩
    rw [ahead, entered, List.flatMap_singleton, route_of_malformed hform]
    exact List.prefix_append _ _
  | case4 => exact rfl
  | case3 value child children frames code first operations hform => simp [next?, hform] at h
  | case1 | case5 | case6 | case7 => cases h

/-- From every place on, the walk keeps to the routes ahead. -/
theorem trail_keepsTo (place : Place) : KeepsTo place.ahead place.trail place.result.1 := by
  induction place using trail.induct with
  | case1 place ih =>
    rw [result_eq_next]
    cases hnext : place.next? with
    | none =>
      rw [trail_of_stop hnext]
      exact keepsTo_of_stop hnext
    | some later =>
      rw [trail_of_next? hnext, ahead_of_next? hnext]
      exact (ih later hnext).append place.entered

end Place

-- Parentheses and signs are passed by, and behind a node that cannot be lowered comes nothing.
example : (Place.trail ⟨.enter (.node "E" [.leaf "(", .node "T" [.leaf "a", .leaf "+",
    .node "*" [.leaf "b"], .leaf "-", .leaf "c"], .leaf ")"]), [], .empty⟩).map Tree.value =
      ["E", "T", "a", "*"] := by
  decide +kernel

end Lowering

end ThreeAddress
