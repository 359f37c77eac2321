import ThreeAddress.Proofs.ProgramMeaning

/-!
# The names of temporaries

Code grows only by copies and by operators, whatever is lowered and even if lowering fails, so what
both of them keep holds of all code. In particular the targets of the operators are `t0`, `t1` and
so on, each one once. They are fresh as long as the program has none of these names itself.
-/

namespace ThreeAddress

/-- The target of an operator; a copy has none that is handed out for it. -/
def Instruction.temporary? : Instruction → Option String
  | .copy .. => none
  | .binary target _ _ _ => some target

namespace Code

/-- The names handed out as temporaries, one for each operator. -/
def temporaryNames (code : Code) : List String :=
  code.instructions.toList.filterMap Instruction.temporary?

/-- The code with an operator and its operands behind it, and the next temporary as their target. -/
def join (code : Code) (op : Operator) (left right : String) : Code :=
  ⟨code.instructions.push (.binary (temporary code.temporaries) left op right),
    code.temporaries + 1⟩

theorem apply_of_isArithmetic {op : Operator} (h : op.isArithmetic = true) (code : Code)
    (left right : String) :
    code.apply op left right = (temporary code.temporaries, code.join op left right) := by
  rw [apply, if_pos h]
  rfl

theorem apply_of_not_isArithmetic {op : Operator} (h : ¬op.isArithmetic = true) (code : Code)
    (left right : String) : code.apply op left right = (left, code.copy left right) := by
  rw [apply, if_neg h]

/-- What holds of code still holds of it with a copy or an operator behind it. -/
structure Lasting (P : Code → Prop) : Prop where
  copy : ∀ code target source, P code → P (code.copy target source)
  join : ∀ code op left right, P code → P (code.join op left right)

namespace Lasting

variable {P : Code → Prop} (hP : Lasting P)
include hP

theorem apply {code : Code} (h : P code) (op : Operator) (left right : String) :
    P (code.apply op left right).2 := by
  by_cases harith : op.isArithmetic = true
  · rw [apply_of_isArithmetic harith]
    exact hP.join code op left right h
  · rw [apply_of_not_isArithmetic harith]
    exact hP.copy code left right h

-- The walk adds to the code only by applying operators.
theorem walk (focus : Lowering.Focus) (frames : List Lowering.Frame) {code : Code} (h : P code) :
    P (Lowering.walk focus frames code).2 := by
  fun_induction Lowering.walk focus frames code with
  | case1 value frames code ih => exact ih h
  | case2 => exact h
  | case3 frames code value child children first operations hform ih => exact ih h
  | case4 => exact h
  | case5 name frames code ih => exact ih h
  | case6 name op operand pending frames code ih => exact ih h
  | case7 name op left pending frames code result later hresult ih =>
    have hlater := hP.apply h op left name
    rw [hresult] at hlater
    exact ih hlater

theorem lower (tree : Tree String) {code : Code} (h : P code) : P (code.lower tree).2 :=
  hP.walk _ _ h

end Lasting

end Code

namespace Lowering

/-- What holds of the code before the step holds of it after the step, also after a failure. -/
def Step.Keeps (step : Step) (P : Code → Prop) : Prop :=
  ∀ code, P code → P (step code).2

section Keeps

variable {P : Code → Prop}

theorem done_keeps : Step.Keeps done P :=
  fun _ h => h

theorem failAt_keeps (tree : ParseTree) : Step.Keeps (failAt tree) P :=
  fun _ h => h

theorem Step.Keeps.andThen {first second : Step} (hfirst : first.Keeps P)
    (hsecond : second.Keeps P) : Step.Keeps (andThen first second) P := by
  intro code h
  have hmiddle := hfirst code h
  unfold Lowering.andThen
  split
  · rename_i hread
    rwa [hread] at hmiddle
  · rename_i hread
    rw [hread] at hmiddle
    exact hsecond _ hmiddle

variable (hP : Code.Lasting P)
include hP

theorem store_keeps (name value : ParseTree) : Step.Keeps (store name value) P := by
  intro code h
  have hlower := hP.lower (value.map Label.text) h
  unfold store
  split
  · rename_i hread
    rwa [hread] at hlower
  · rename_i hread
    rw [hread] at hlower
    exact hP.copy _ _ _ hlower

theorem initializers_keeps (declaration : ParseTree) (before : Option ParseTree)
    (children : List ParseTree) : Step.Keeps (initializers declaration before children) P := by
  fun_induction initializers declaration before children with
  | case1 => exact done_keeps
  | case2 child hchild name value rest ih => exact (store_keeps hP name value).andThen ih
  | case3 => exact failAt_keeps declaration
  | case4 before child rest hchild ih => exact ih

end Keeps

mutual

/-- Lowering a statement keeps what copies and operators keep. -/
theorem statement_keeps {P : Code → Prop} (hP : Code.Lasting P) (tree : ParseTree) :
    Step.Keeps (statement tree) P := by
  match tree with
  | .node (.terminal text) children =>
    rw [statement]
    exact done_keeps
  | .node (.rule rule) children =>
    by_cases hassign : rule = .assignment
    · subst hassign
      match children with
      | [name, _, value, _] => exact store_keeps hP name value
      | [] | [_] | [_, _] | [_, _, _] | _ :: _ :: _ :: _ :: _ :: _ => exact failAt_keeps _
    · by_cases hdeclare : rule = .variableDeclaration
      · subst hdeclare
        exact initializers_keeps hP _ none children
      · rw [statement_of_ne hassign hdeclare]
        split
        · exact statements_keeps hP children
        · exact done_keeps

theorem statements_keeps {P : Code → Prop} (hP : Code.Lasting P) (trees : List ParseTree) :
    Step.Keeps (statements trees) P := by
  match trees with
  | [] =>
    rw [statements]
    exact done_keeps
  | tree :: trees =>
    rw [statements]
    exact (statement_keeps hP tree).andThen (statements_keeps hP trees)

end

end Lowering

namespace Code

-- What the empty code has and the step of a program keeps, its code has.
theorem of_keeps {P : Code → Prop} {program : ParseTree}
    (hkeeps : Lowering.Step.Keeps (Lowering.statement program) P) (hempty : P empty) {code : Code}
    (h : ofProgram? program = .ok code) : P code := by
  have hlater := hkeeps empty hempty
  rw [Code.ofProgram?] at h
  split at h
  · cases h
  · rename_i hread
    cases h
    rwa [hread] at hlater

/-- What the empty code has and copies and operators keep, all code of programs has. -/
theorem Lasting.ofProgram? {P : Code → Prop} (hP : Lasting P) (hempty : P empty)
    {program : ParseTree} {code : Code} (h : ofProgram? program = .ok code) : P code :=
  of_keeps (Lowering.statement_keeps hP program) hempty h

/-! ## The numbers of temporaries -/

/-- The temporaries handed out have the numbers from zero on, in order and without gaps. -/
def Numbered (code : Code) : Prop :=
  code.temporaryNames = (List.range code.temporaries).map temporary

theorem temporaryNames_copy (code : Code) (target source : String) :
    (code.copy target source).temporaryNames = code.temporaryNames := by
  rw [temporaryNames, copy, Array.toList_push, List.filterMap_append]
  exact List.append_nil _

theorem temporaryNames_join (code : Code) (op : Operator) (left right : String) :
    (code.join op left right).temporaryNames =
      code.temporaryNames ++ [temporary code.temporaries] := by
  rw [temporaryNames, join, Array.toList_push, List.filterMap_append]
  rfl

theorem numbered_empty : empty.Numbered :=
  rfl

theorem lasting_numbered : Lasting Numbered where
  copy code target source h := (temporaryNames_copy code target source).trans h
  join code op left right h := by
    show _ = (List.range (code.temporaries + 1)).map temporary
    rw [temporaryNames_join, h, List.range_succ, List.map_append]
    rfl

theorem Numbered.length {code : Code} (h : code.Numbered) :
    code.temporaryNames.length = code.temporaries := by
  rw [h, List.length_map, List.length_range]

theorem Numbered.nodup {code : Code} (h : code.Numbered) : code.temporaryNames.Nodup := by
  rw [h]
  exact List.Pairwise.map temporary (fun _ _ hne heq => hne (temporary_injective heq))
    List.nodup_range

theorem Numbered.mem_iff {code : Code} (h : code.Numbered) {name : String} :
    name ∈ code.temporaryNames ↔
      ∃ number < code.temporaryNames.length, name = temporary number := by
  rw [h.length, h, List.mem_map]
  simp only [List.mem_range, eq_comm]

end Code

namespace Listing

/-- No two operators of a program have the same target, and their targets are other names than the
identifiers of the program exactly if no identifier is `t` with a number less than that of the
operators. -/
theorem temporaryNames_of_ofSource? {source : String} {listing : Listing}
    (h : ofSource? source none = .ok listing) :
    listing.code.temporaryNames.Nodup ∧
      ((∀ token ∈ listing.tokens, token.kind = .identifier →
          token.text ∉ listing.code.temporaryNames) ↔
        ∀ token ∈ listing.tokens, token.kind = .identifier →
          ∀ number < listing.code.temporaryNames.length, token.text ≠ Code.temporary number) := by
  have hnumbered : listing.code.Numbered :=
    Code.lasting_numbered.ofProgram? Code.numbered_empty (parts_of_ofSource? h).2.2
  refine ⟨hnumbered.nodup, forall_congr' fun token => ?_⟩
  simp only [hnumbered.mem_iff, not_exists, not_and]

theorem temporaryNames_of_ofSource?_sum :
    ∃ listing, ofSource? "x = a + (b + t);" none = .ok listing ∧
      ∀ token ∈ listing.tokens, token.kind = .identifier →
        token.text ∉ listing.code.temporaryNames := by
  have hok : (ofSource? "x = a + (b + t);" none).isOk = true := by
    decide +kernel
  match hlisting : ofSource? "x = a + (b + t);" none with
  | .error error =>
    rw [hlisting] at hok
    cases hok
  | .ok listing =>
    have hnames : ∀ token ∈ listing.tokens, isTemporaryName token.text = false := by
      rw [(parts_of_ofSource? hlisting).1]
      decide +kernel
    refine ⟨listing, rfl, (temporaryNames_of_ofSource? hlisting).2.2 ?_⟩
    intro token hmem _ number _ htext
    have hname := hnames token hmem
    rw [htext, Code.isTemporaryName_temporary] at hname
    cases hname

-- A variable of a program can be the target of one of its operators, and then its value is lost.
theorem exists_identifier_mem_temporaryNames :
    ∃ listing, ofSource? "x = t0 + (a + b);" none = .ok listing ∧
      listing.code.lines = ["t0 = a + b", "t1 = t0 + t0", "x = t1"] ∧
      ∃ token ∈ listing.tokens, token.kind = .identifier ∧
        token.text ∈ listing.code.temporaryNames := by
  have hcode : (ofSource? "x = t0 + (a + b);" none).toOption.map
      (fun listing => (listing.code.lines, listing.code.temporaryNames)) =
        some (["t0 = a + b", "t1 = t0 + t0", "x = t1"], ["t0", "t1"]) := by
    decide +kernel
  match hlisting : ofSource? "x = t0 + (a + b);" none with
  | .error error =>
    rw [hlisting] at hcode
    cases hcode
  | .ok listing =>
    rw [hlisting] at hcode
    obtain ⟨hlines, hnames⟩ := Prod.mk.inj (Option.some.inj hcode)
    refine ⟨listing, rfl, hlines, ⟨.identifier, "t0"⟩, ?_, rfl, ?_⟩
    · rw [(parts_of_ofSource? hlisting).1]
      decide +kernel
    · rw [hnames]
      decide

end Listing

end ThreeAddress
