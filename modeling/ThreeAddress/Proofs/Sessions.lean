import ThreeAddress.Proofs.Temporaries

/-!
# Sessions

A session is a row of calls on the same code. Each call puts a copy behind it or lowers a tree into
it, and the session goes on after a tree that cannot be lowered. What copies and operators keep is
kept by a whole session: code is only ever added at the end, and the numbers of temporaries run on
from call to call.
-/

namespace ThreeAddress

/-- What can be done with the code. A parse tree is lowered as the tree of its labels' texts. -/
inductive Call where
  | copy (target source : String)
  | lower (tree : Tree String)

namespace Code

/-- The code after a call. For a tree that cannot be lowered, it holds what was emitted before the
failure. -/
def afterCall (code : Code) : Call → Code
  | .copy target source => code.copy target source
  | .lower tree => (code.lower tree).2

/-- The code after the calls of a session, made one after the other from the empty code on. -/
def ofCalls (calls : List Call) : Code :=
  calls.foldl afterCall empty

/-- What is handed over when no more calls follow. -/
def finish (code : Code) : List Instruction :=
  code.instructions.toList

theorem ofCalls_append (calls : List Call) (next : Call) :
    ofCalls (calls ++ [next]) = (ofCalls calls).afterCall next := by
  rw [ofCalls, List.foldl_append]
  rfl

section Lasting

variable {P : Code → Prop} (hP : Lasting P)
include hP

theorem Lasting.afterCall {code : Code} (h : P code) (call : Call) : P (code.afterCall call) := by
  cases call with
  | copy target source => exact hP.copy code target source h
  | lower tree => exact hP.lower tree h

/-- What the empty code has and copies and operators keep, all code of sessions has. -/
theorem Lasting.ofCalls (hempty : P empty) (calls : List Call) : P (ofCalls calls) :=
  List.foldlRecOn calls Code.afterCall hempty fun _ h call _ => hP.afterCall h call

end Lasting

-- Instructions that stand in front stay there.
theorem lasting_front (front : List Instruction) :
    Lasting fun code => front <+: code.instructions.toList where
  copy code target source h := by
    rw [copy, Array.toList_push]
    exact h.trans (List.prefix_append _ _)
  join code op left right h := by
    rw [join, Array.toList_push]
    exact h.trans (List.prefix_append _ _)

-- There is one name for each operator.
theorem length_temporaryNames (code : Code) :
    code.temporaryNames.length = code.instructions.toList.countP Instruction.isBinary := by
  rw [temporaryNames, List.length_filterMap_eq_countP]
  apply List.countP_congr
  intro instruction _
  cases instruction <;> exact Iff.rfl

/-- A session only adds to the code, call by call, and the targets of its operators are `t0`, `t1`
and so on in order, as many as there are operators. -/
theorem ofCalls_append_only (calls : List Call) :
    (∀ next, (ofCalls calls).instructions.toList <+:
        (ofCalls (calls ++ [next])).instructions.toList) ∧
      (ofCalls calls).temporaryNames =
        (List.range (ofCalls calls).temporaries).map (fun number => "t" ++ toString number) ∧
      (ofCalls calls).temporaries =
        (ofCalls calls).instructions.toList.countP Instruction.isBinary ∧
      (ofCalls calls).finish = (ofCalls calls).instructions.toList := by
  have hnumbered : (ofCalls calls).Numbered := lasting_numbered.ofCalls numbered_empty calls
  refine ⟨fun next => ?_, hnumbered, ?_, rfl⟩
  · rw [ofCalls_append]
    exact (lasting_front _).afterCall List.prefix_rfl next
  · rw [← length_temporaryNames, hnumbered.length]

-- A failure neither takes back what was emitted nor resets the numbers.
example :
    (ofCalls [.lower (.node "+" [.node "*" [.leaf "a", .leaf "b"], .node "?" []]), .copy "x" "t1",
      .lower (.node "+" [.node "-" [.leaf "x", .leaf "1"], .node "/" [.leaf "y"]]),
      .lower (.node "=" [.leaf "y", .node "*" [.leaf "x", .leaf "x"]])]).lines =
        ["t0 = a * b", "t1 = t0 + ?", "x = t1", "t2 = x - 1", "t3 = x * x", "y = t3"] := by
  decide +kernel

end Code

end ThreeAddress
