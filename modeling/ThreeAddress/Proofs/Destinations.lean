import Mathlib.Data.List.Forall2
import ThreeAddress.Proofs.Rows
import ThreeAddress.Proofs.Temporaries

/-!
# Where an equation writes

An operator writes to the next temporary, so no two operators write to the same one. An assignment
writes to the name that its left side has: an operand, if that side is an operand or is itself an
assignment to one, and otherwise the temporary that holds the value of that side. Such a temporary
is written twice. In a row this happens exactly if an arithmetic operator stands in front of the
first assignment.
-/

namespace ThreeAddress

open Equation

namespace Instruction

/-- The name that takes the value. -/
def target : Instruction → String
  | .copy target _ => target
  | .binary target _ _ _ => target

/-- The name that a copy writes to. -/
def copied? : Instruction → Option String
  | .copy target _ => some target
  | .binary .. => none

end Instruction

namespace Code

/-- The names written to, one for each instruction. -/
def targets (code : Code) : List String :=
  code.instructions.toList.map Instruction.target

/-- The names that copies write to. -/
def copiedNames (code : Code) : List String :=
  code.instructions.toList.filterMap Instruction.copied?

theorem copiedNames_copy (code : Code) (target source : String) :
    (code.copy target source).copiedNames = code.copiedNames ++ [target] := by
  rw [copiedNames, copy, Array.toList_push, List.filterMap_append]
  rfl

theorem copiedNames_join (code : Code) (op : Operator) (left right : String) :
    (code.join op left right).copiedNames = code.copiedNames := by
  rw [copiedNames, join, Array.toList_push, List.filterMap_append]
  exact List.append_nil _

-- An instruction writes either as an operator or as a copy.
theorem count_targets (code : Code) (name : String) :
    code.targets.count name = code.temporaryNames.count name + code.copiedNames.count name := by
  unfold targets temporaryNames copiedNames
  induction code.instructions.toList with
  | nil => rfl
  | cons instruction instructions ih =>
    cases instruction with
    | copy target source =>
      show (target :: _).count name = _ + (target :: _).count name
      rw [List.count_cons, List.count_cons, ih, Nat.add_assoc]
      rfl
    | binary target left op right =>
      show (target :: _).count name = (target :: _).count name + _
      rw [List.count_cons, List.count_cons, ih, Nat.add_right_comm]
      rfl

end Code

/-! ## What assignments write to -/

namespace Equation.Expr

/-- The operand whose name the value of the expression has, if it does not have that of a
temporary. -/
def lead? : Expr → Option String
  | .operand text => some text
  | .binary op left _ => if op.isArithmetic then none else left.lead?

/-- For each assignment in the order of the code, the operand that it writes to, or nothing if it
writes to a temporary. -/
def assigned : Expr → List (Option String)
  | .operand _ => []
  | .binary op left right =>
      left.assigned ++ right.assigned ++ if op.isArithmetic then [] else [left.lead?]

/-- Whether every assignment writes to an operand. -/
def assignsOperands (expr : Expr) : Bool :=
  expr.assigned.all Option.isSome

theorem operand_mem_of_lead? {expr : Expr} {text : String} (h : expr.lead? = some text) :
    .operand text ∈ expr.inorder := by
  induction expr with
  | operand first =>
    obtain rfl : first = text := Option.some.inj h
    exact List.mem_singleton_self _
  | binary op left right ihleft _ =>
    rw [lead?] at h
    split at h
    · cases h
    · exact List.mem_append_left _ (ihleft h)

theorem operand_mem_of_assigned {expr : Expr} {text : String} (h : some text ∈ expr.assigned) :
    .operand text ∈ expr.inorder := by
  induction expr with
  | operand first => cases h
  | binary op left right ihleft ihright =>
    rw [assigned, List.mem_append, List.mem_append] at h
    rw [inorder, List.mem_append, List.mem_cons]
    rcases h with (hleft | hright) | hself
    · exact .inl (ihleft hleft)
    · exact .inr (.inr (ihright hright))
    · split at hself
      · cases hself
      · exact .inl (operand_mem_of_lead? (List.mem_singleton.1 hself).symm)

end Equation.Expr

namespace Code

/-- The name is that of the operand, or that of one of so many temporaries if there is none. -/
def Stands (temporaries : Nat) : Option String → String → Prop
  | some text, name => name = text
  | none, name => ∃ number < temporaries, name = temporary number

theorem Stands.mono {temporaries more : Nat} (hle : temporaries ≤ more) {lead : Option String}
    {name : String} (h : Stands temporaries lead name) : Stands more lead name := by
  cases lead with
  | some text => exact h
  | none =>
    obtain ⟨number, hlt, hname⟩ := h
    exact ⟨number, Nat.lt_of_lt_of_le hlt hle, hname⟩

/-- What the code that computes an expression writes to with copies. -/
structure Writes (code : Code) (expr : Expr) (result : String × Code) : Prop where
  grows : code.temporaries ≤ result.2.temporaries
  name : Stands result.2.temporaries expr.lead? result.1
  copies : ∃ names, result.2.copiedNames = code.copiedNames ++ names ∧
    List.Forall₂ (Stands result.2.temporaries) expr.assigned names

theorem compute_writes (code : Code) (expr : Expr) : code.Writes expr (code.compute expr) := by
  induction expr generalizing code with
  | operand text => exact ⟨Nat.le_refl _, rfl, [], (List.append_nil _).symm, .nil⟩
  | binary op left right ihleft ihright =>
    rw [compute]
    have hleft := ihleft code
    generalize code.compute left = leftResult at hleft
    obtain ⟨leftName, middle⟩ := leftResult
    have hright := ihright middle
    dsimp only at hleft hright ⊢
    generalize middle.compute right = rightResult at hright
    obtain ⟨rightName, last⟩ := rightResult
    dsimp only
    obtain ⟨leftNames, hleftCopies, hleftAll⟩ := hleft.copies
    obtain ⟨rightNames, hrightCopies, hrightAll⟩ := hright.copies
    have hgrows : code.temporaries ≤ last.temporaries := Nat.le_trans hleft.grows hright.grows
    have hnames : last.copiedNames = code.copiedNames ++ (leftNames ++ rightNames) := by
      rw [← List.append_assoc, ← hleftCopies]
      exact hrightCopies
    have hall : List.Forall₂ (Stands last.temporaries) (left.assigned ++ right.assigned)
        (leftNames ++ rightNames) :=
      List.rel_append (hleftAll.imp fun _ _ h => h.mono hright.grows) hrightAll
    by_cases harith : op.isArithmetic = true
    · rw [apply_of_isArithmetic harith]
      refine ⟨Nat.le_succ_of_le hgrows, ?_, leftNames ++ rightNames, ?_, ?_⟩
      · rw [Expr.lead?, if_pos harith]
        exact ⟨last.temporaries, Nat.lt_succ_self _, rfl⟩
      · rw [copiedNames_join, hnames]
      · rw [Expr.assigned, if_pos harith, List.append_nil]
        exact hall.imp fun _ _ h => h.mono (Nat.le_succ _)
    · -- the target of the copy is the name of the left side
      have hname : Stands last.temporaries left.lead? leftName := hleft.name.mono hright.grows
      rw [apply_of_not_isArithmetic harith]
      refine ⟨hgrows, ?_, leftNames ++ rightNames ++ [leftName], ?_, ?_⟩
      · rw [Expr.lead?, if_neg harith]
        exact hname
      · rw [copiedNames_copy, hnames, List.append_assoc]
      · rw [Expr.assigned, if_neg harith]
        exact List.rel_append hall (.cons hname .nil)

end Code

/-! ## Rows -/

namespace Equation.Expr

/-- The operators from left to right. -/
def operators (expr : Expr) : List Operator :=
  expr.inorder.filterMap Lexeme.operator?

theorem operators_row (first : String) (rest : List (Operator × String)) :
    (row first rest).filterMap Lexeme.operator? = rest.map Prod.fst := by
  induction rest with
  | nil => rfl
  | cons step rest ih => exact congrArg (step.1 :: ·) ih

theorem operators_binary (op : Operator) (left right : Expr) :
    (binary op left right).operators = left.operators ++ op :: right.operators := by
  rw [operators, inorder, List.filterMap_append]
  rfl

theorem assigned_eq_nil {expr : Expr} (h : .assign ∉ expr.operators) : expr.assigned = [] := by
  induction expr with
  | operand text => rfl
  | binary op left right ihleft ihright =>
    rw [operators_binary, List.mem_append, List.mem_cons, not_or, not_or] at h
    have harith : op.isArithmetic = true := bne_iff_ne.2 (Ne.symm h.2.1)
    rw [assigned, ihleft h.1, ihright h.2.2, if_pos harith]
    rfl

-- Where something binds more tightly than an assignment there is no assignment below it.
theorem assign_notMem_operators {expr : Expr} (hcanonical : expr.isCanonical = true)
    (hrank : 0 < expr.rank) : .assign ∉ expr.operators := by
  induction expr with
  | operand text => exact List.not_mem_nil
  | binary op left right ihleft ihright =>
    obtain ⟨hleft, hright, hcanonicalLeft, hcanonicalRight⟩ := isCanonical_binary.1 hcanonical
    rw [operators_binary, List.mem_append, List.mem_cons, not_or, not_or]
    refine ⟨ihleft hcanonicalLeft (Nat.lt_of_lt_of_le hrank hleft), ?_,
      ihright hcanonicalRight (Nat.zero_lt_of_lt hright)⟩
    rintro rfl
    exact Nat.lt_irrefl 0 hrank

theorem assignsOperands_assign {left right : Expr}
    (h : (binary .assign left right).isCanonical = true) :
    (binary .assign left right).assignsOperands = true ↔
      left.assignsOperands = true ∧ left.lead?.isSome = true := by
  obtain ⟨-, hright, -, hcanonicalRight⟩ := isCanonical_binary.1 h
  rw [assignsOperands, assigned,
    assigned_eq_nil (assign_notMem_operators hcanonicalRight hright), List.append_nil,
    if_neg (by decide), List.all_append, Bool.and_eq_true, List.all_cons, List.all_nil,
    Bool.and_true]
  rfl

theorem operator_cases (op : Operator) :
    op.isArithmetic = true ∧ 0 < op.precedence ∨ op = .assign := by
  cases op <;> decide

-- Such an expression can stand on the left of an assignment: an operand, or assignments first.
theorem assignsOperands_and_lead? {expr : Expr} (h : expr.isCanonical = true) :
    expr.assignsOperands = true ∧ expr.lead?.isSome = true ↔
      ∀ op ∈ expr.operators.head?, op = .assign := by
  induction expr with
  | operand text => exact ⟨fun _ _ hop => (nomatch hop), fun _ => ⟨rfl, rfl⟩⟩
  | binary op left right ihleft _ =>
    rcases operator_cases op with ⟨harith, hrank⟩ | rfl
    · -- the first operator is an arithmetic one too
      have hnone := assign_notMem_operators h hrank
      rw [lead?, if_pos harith]
      refine iff_of_false (fun hlead => Bool.false_ne_true hlead.2) fun hfirst => hnone ?_
      cases hhead : (binary op left right).operators.head? with
      | none =>
        rw [operators_binary, List.head?_eq_none_iff] at hhead
        exact absurd hhead (List.append_ne_nil_of_right_ne_nil _ (List.cons_ne_nil _ _))
      | some first =>
        obtain rfl : first = .assign := hfirst first hhead
        exact List.mem_of_mem_head? hhead
    · rw [assignsOperands_assign h, lead?, if_neg (by decide), and_assoc, and_self,
        ihleft (isCanonical_binary.1 h).2.2.1, operators_binary, List.head?_append]
      cases left.operators.head? <;> simp

/-- An expression that obeys precedence assigns to operands only if it has no assignment at all or
its first operator is one. -/
theorem assignsOperands_iff {expr : Expr} (h : expr.isCanonical = true) :
    expr.assignsOperands = true ↔
      (.assign ∈ expr.operators → expr.operators.head? = some .assign) := by
  by_cases hmem : .assign ∈ expr.operators
  · -- the assignment is on top, so its left side has the first operator or is an operand
    match expr with
    | .operand text => cases hmem
    | .binary op left right =>
      rcases operator_cases op with ⟨_, hrank⟩ | rfl
      · exact absurd hmem (assign_notMem_operators h hrank)
      · rw [assignsOperands_assign h, assignsOperands_and_lead? (isCanonical_binary.1 h).2.2.1,
          operators_binary, List.head?_append]
        cases left.operators.head? <;> simp
  · refine iff_of_true ?_ fun hin => absurd hin hmem
    rw [assignsOperands, assigned_eq_nil hmem]
    rfl

end Equation.Expr

/-! ## The code of an equation -/

namespace Code

theorem numbered_compute (expr : Expr) : (empty.compute expr).2.Numbered := by
  have hnumbered := lasting_numbered.lower expr.toTree numbered_empty
  rwa [lower_toTree] at hnumbered

theorem exists_mem_of_forall₂ {α β : Type} {R : α → β → Prop} {front : List α} {back : List β}
    (h : List.Forall₂ R front back) {a : α} (hmem : a ∈ front) : ∃ b ∈ back, R a b := by
  induction h with
  | nil => cases hmem
  | cons hhead _ ih =>
    rcases List.mem_cons.1 hmem with rfl | htail
    · exact ⟨_, List.mem_cons_self .., hhead⟩
    · obtain ⟨b, hb, hrelated⟩ := ih htail
      exact ⟨b, List.mem_cons_of_mem _ hb, hrelated⟩

theorem operand_mem_of_copiedNames {expr : Expr} (h : expr.assignsOperands = true) {name : String}
    (hname : name ∈ (empty.compute expr).2.copiedNames) : .operand name ∈ expr.inorder := by
  obtain ⟨names, hnames, hall⟩ := (compute_writes empty expr).copies
  rw [hnames] at hname
  obtain ⟨lead, hlead, hstands⟩ := exists_mem_of_forall₂ hall.flip hname
  obtain ⟨text, rfl⟩ := Option.isSome_iff_exists.1 (List.all_eq_true.1 h lead hlead)
  rw [show name = text from hstands]
  exact Expr.operand_mem_of_assigned hlead

theorem exists_temporary_mem_copiedNames {expr : Expr} (h : ¬expr.assignsOperands = true) :
    ∃ name ∈ (empty.compute expr).2.copiedNames,
      name ∈ (empty.compute expr).2.temporaryNames := by
  obtain ⟨names, hnames, hall⟩ := (compute_writes empty expr).copies
  rw [Expr.assignsOperands, List.all_eq_true] at h
  push Not at h
  obtain ⟨lead, hlead, hnone⟩ := h
  obtain rfl : lead = none := by simpa using hnone
  obtain ⟨name, hname, number, hlt, rfl⟩ := exists_mem_of_forall₂ hall hlead
  refine ⟨temporary number, ?_, ?_⟩
  · rw [hnames]
    exact hname
  · rw [numbered_compute expr]
    exact List.mem_map_of_mem (List.mem_range.2 hlt)

theorem isTemporaryName_of_mem {code : Code} (h : code.Numbered) {name : String}
    (hname : name ∈ code.temporaryNames) : isTemporaryName name = true := by
  obtain ⟨number, -, rfl⟩ := h.mem_iff.1 hname
  exact isTemporaryName_temporary number

/-- Where no operand is named like a temporary, each operator of an equation writes to a temporary
of its own. No copy writes to one of them, and each copy writes to an operand, exactly if the
equation assigns to operands only. In a row that is so exactly if there is no assignment or the
first operator is one. -/
theorem targets_of_ofText? {text : String} {expr : Expr} (h : Expr.ofText? text = .ok expr)
    (hnames : ∀ name, .operand name ∈ lexemes text → isTemporaryName name = false) :
    ∃ code, ofTree? expr.toTree = .ok code ∧ code.temporaryNames.Nodup ∧
      ((∀ name ∈ code.temporaryNames, code.targets.count name = 1) ↔
        expr.assignsOperands = true) ∧
      ((∀ name ∈ code.copiedNames, .operand name ∈ lexemes text) ↔
        expr.assignsOperands = true) ∧
      ∀ first rest, lexemes text = row first rest →
        (expr.assignsOperands = true ↔
          (.assign ∈ rest.map Prod.fst → (rest.map Prod.fst).head? = some .assign)) := by
  have hnumbered := numbered_compute expr
  obtain ⟨hoperands, -⟩ := Expr.inorder_of_ofLexemes? h
  have hmem {name : String} (hname : .operand name ∈ expr.inorder) :
      .operand name ∈ lexemes text :=
    Expr.mem_operands.1 (hoperands ▸ Expr.mem_operands.2 hname)
  refine ⟨_, ofTree?_toTree expr, hnumbered.nodup, ?_, ?_, ?_⟩
  · constructor
    · intro honce
      by_contra hassigns
      obtain ⟨name, hcopied, htemporary⟩ := exists_temporary_mem_copiedNames hassigns
      have hcount := honce name htemporary
      have hfirst := List.count_pos_iff.2 htemporary
      have hsecond := List.count_pos_iff.2 hcopied
      rw [count_targets] at hcount
      omega
    · intro hassigns name htemporary
      have hcopied : name ∉ (empty.compute expr).2.copiedNames := fun hcopied => by
        have hname := hnames name (hmem (operand_mem_of_copiedNames hassigns hcopied))
        rw [isTemporaryName_of_mem hnumbered htemporary] at hname
        cases hname
      rw [count_targets, hnumbered.nodup.count, if_pos htemporary,
        List.count_eq_zero.2 hcopied]
  · constructor
    · intro hcopies
      by_contra hassigns
      obtain ⟨name, hcopied, htemporary⟩ := exists_temporary_mem_copiedNames hassigns
      have hname := hnames name (hcopies name hcopied)
      rw [isTemporaryName_of_mem hnumbered htemporary] at hname
      cases hname
    · exact fun hassigns name hcopied => hmem (operand_mem_of_copiedNames hassigns hcopied)
  · intro first rest hrow
    obtain ⟨other, hother, hcanonical, hinorder⟩ := Expr.exists_ofText?_of_row hrow
    obtain rfl : other = expr := Except.ok.inj (hother.symm.trans h)
    rw [Expr.assignsOperands_iff hcanonical, Expr.operators, hinorder, hrow, Expr.operators_row]

theorem targets_of_ofText?_sum :
    ∃ expr code, Expr.ofText? "x = a + b" = .ok expr ∧ ofTree? expr.toTree = .ok code ∧
      code.lines = ["t0 = a + b", "x = t0"] ∧
      ∀ name ∈ code.temporaryNames, code.targets.count name = 1 := by
  have hlexemes : lexemes "x = a + b" = row "x" [(.assign, "a"), (.add, "b")] := by
    decide +kernel
  have hread : Expr.ofText? "x = a + b" =
      .ok (.binary .assign (.operand "x") (.binary .add (.operand "a") (.operand "b"))) := by
    rw [Expr.ofText?, hlexemes]
    rfl
  have hnames : ∀ name, .operand name ∈ lexemes "x = a + b" → isTemporaryName name = false := by
    rw [hlexemes]
    intro name hname
    rw [← Expr.mem_operands] at hname
    revert name
    decide +kernel
  obtain ⟨code, hcode, -, honce, -, hrow⟩ := targets_of_ofText? hread hnames
  refine ⟨_, code, hread, hcode, ?_, honce.2 ((hrow _ _ hlexemes).2 fun _ => rfl)⟩
  rw [ofTree?_toTree] at hcode
  obtain rfl := Except.ok.inj hcode
  decide +kernel

-- The left side of an assignment can be a sum, and then the temporary that holds the sum is written
-- twice.
theorem exists_temporary_written_twice :
    ∃ expr code, Expr.ofText? "a + b = c" = .ok expr ∧
      (∀ name, .operand name ∈ lexemes "a + b = c" → isTemporaryName name = false) ∧
      ofTree? expr.toTree = .ok code ∧ code.lines = ["t0 = a + b", "t0 = c"] ∧
      "t0" ∈ code.temporaryNames ∧ code.targets.count "t0" = 2 ∧ "t0" ∈ code.copiedNames ∧
      .operand "t0" ∉ lexemes "a + b = c" := by
  have hlexemes : lexemes "a + b = c" = row "a" [(.add, "b"), (.assign, "c")] := by
    decide +kernel
  have hread : Expr.ofText? "a + b = c" =
      .ok (.binary .assign (.binary .add (.operand "a") (.operand "b")) (.operand "c")) := by
    rw [Expr.ofText?, hlexemes]
    rfl
  refine ⟨_, _, hread, ?_, ofTree?_toTree _, ?_⟩
  · rw [hlexemes]
    intro name hname
    rw [← Expr.mem_operands] at hname
    revert name
    decide +kernel
  · rw [hlexemes]
    decide +kernel

end Code

end ThreeAddress
