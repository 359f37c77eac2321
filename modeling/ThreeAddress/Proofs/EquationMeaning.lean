import ThreeAddress.Proofs.Precedence
import ThreeAddress.Proofs.Walk

/-!
# Equations and their code

A row of operands with arithmetic operators between them is worth what the usual rules say: products
and quotients first, then sums and differences, each from left to right. The code of an equation
leaves that value under the name on the left and changes no other name but temporaries.
-/

namespace ThreeAddress.Equation

universe u v

section Rows

variable {α : Type u} {β : Type v}

/-- Applies the operators that satisfy the condition from left to right. The others stay, each with
what has become of the operand behind it. -/
def joinWhere (condition : Operator → Bool) (apply : Operator → α → α → α) (first : α) :
    List (Operator × α) → α × List (Operator × α)
  | [] => (first, [])
  | (op, next) :: rest =>
      if condition op then joinWhere condition apply (apply op first next) rest
      else
        let (joined, others) := joinWhere condition apply next rest
        (first, (op, joined) :: others)

/-- Applies all operators from left to right. -/
def foldRow (apply : Operator → α → α → α) (first : α) (rest : List (Operator × α)) : α :=
  rest.foldl (fun value step => apply step.1 value step.2) first

def isProduct (op : Operator) : Bool :=
  op == .mul || op == .div

theorem precedence_of_isProduct {op : Operator} (h : isProduct op = true) : op.precedence = 2 := by
  revert h
  cases op <;> decide

theorem precedence_of_not_isProduct {op : Operator} (harith : op.isArithmetic = true)
    (h : ¬isProduct op = true) : op.precedence = 1 := by
  revert harith h
  cases op <;> decide

/-- Applies products and quotients first, then all other operators. -/
def evaluate (apply : Operator → α → α → α) (first : α) (rest : List (Operator × α)) : α :=
  let (first, others) := joinWhere isProduct apply first rest
  foldRow apply first others

variable {apply : Operator → α → α → α} {apply' : Operator → β → β → β} {f : α → β}
  (hf : ∀ op left right, f (apply op left right) = apply' op (f left) (f right))
include hf

-- Joining can be done before or after a map that respects the operators.
theorem map_joinWhere (condition : Operator → Bool) (first : α) (rest : List (Operator × α)) :
    joinWhere condition apply' (f first) (rest.map (Prod.map id f)) =
      Prod.map f (List.map (Prod.map id f)) (joinWhere condition apply first rest) := by
  induction rest generalizing first with
  | nil => rfl
  | cons step rest ih =>
    obtain ⟨op, next⟩ := step
    rw [List.map_cons, Prod.map_apply, id, joinWhere, joinWhere]
    by_cases hop : condition op = true
    · rw [if_pos hop, if_pos hop, ← hf]
      exact ih _
    · rw [if_neg hop, if_neg hop, ih]
      rfl

theorem map_foldRow (first : α) (rest : List (Operator × α)) :
    foldRow apply' (f first) (rest.map (Prod.map id f)) = f (foldRow apply first rest) := by
  induction rest generalizing first with
  | nil => rfl
  | cons step rest ih =>
    show foldRow apply' (apply' step.1 (f first) (f step.2)) _ = _
    rw [← hf]
    exact ih _

theorem map_evaluate (first : α) (rest : List (Operator × α)) :
    evaluate apply' (f first) (rest.map (Prod.map id f)) = f (evaluate apply first rest) := by
  rw [evaluate, map_joinWhere hf]
  exact map_foldRow hf _ _

end Rows

namespace Expr

/-- The lexemes of operators and the operands behind them. -/
def rowLexemes (rest : List (Operator × Expr)) : List Lexeme :=
  rest.flatMap fun step => .operator step.1 :: step.2.inorder

@[simp]
theorem rowLexemes_nil : rowLexemes [] = [] :=
  rfl

@[simp]
theorem rowLexemes_cons (op : Operator) (next : Expr) (rest : List (Operator × Expr)) :
    rowLexemes ((op, next) :: rest) = .operator op :: (next.inorder ++ rowLexemes rest) :=
  List.flatMap_cons

theorem inorder_foldRow (first : Expr) (rest : List (Operator × Expr)) :
    (foldRow .binary first rest).inorder = first.inorder ++ rowLexemes rest := by
  induction rest generalizing first with
  | nil => rw [rowLexemes_nil, List.append_nil]; rfl
  | cons step rest ih =>
    obtain ⟨op, next⟩ := step
    rw [rowLexemes_cons]
    show (foldRow .binary (.binary op first next) rest).inorder = _
    rw [ih, inorder, List.append_assoc, List.cons_append]

-- The joined operands are in the row as they were, each in its place.
theorem inorder_joinWhere (condition : Operator → Bool) (first : Expr)
    (rest : List (Operator × Expr)) :
    (joinWhere condition .binary first rest).1.inorder ++
        rowLexemes (joinWhere condition .binary first rest).2 =
      first.inorder ++ rowLexemes rest := by
  induction rest generalizing first with
  | nil => rfl
  | cons step rest ih =>
    obtain ⟨op, next⟩ := step
    rw [joinWhere, rowLexemes_cons]
    by_cases hop : condition op = true
    · rw [if_pos hop, ih, inorder, List.append_assoc, List.cons_append]
    · rw [if_neg hop, ← ih]
      dsimp only
      rw [rowLexemes_cons]

-- Joining changes nothing in the row.
theorem inorder_evaluate (first : Expr) (rest : List (Operator × Expr)) :
    (evaluate .binary first rest).inorder = first.inorder ++ rowLexemes rest := by
  rw [evaluate]
  dsimp only
  rw [inorder_foldRow, inorder_joinWhere]

-- A fold of sums and differences obeys precedence if all operands bind more tightly.
theorem HoldsAt.foldRow {first : Expr} {rest : List (Operator × Expr)} (hfirst : first.HoldsAt 1)
    (hrest : ∀ step ∈ rest, step.1.precedence = 1 ∧ step.2.HoldsAt 2) :
    (foldRow .binary first rest).HoldsAt 1 := by
  induction rest generalizing first with
  | nil => exact hfirst
  | cons step rest ih =>
    obtain ⟨hop, hnext⟩ := hrest step List.mem_cons_self
    exact ih (.binary hop hfirst hnext) fun other hmem => hrest other (List.mem_cons_of_mem _ hmem)

-- Joined products obey precedence, and only sums and differences are left between them.
theorem HoldsAt.joinWhere {first : Expr} {rest : List (Operator × Expr)} (hfirst : first.HoldsAt 2)
    (hrest : ∀ step ∈ rest, step.1.isArithmetic = true ∧ step.2.HoldsAt 3) :
    (joinWhere isProduct .binary first rest).1.HoldsAt 2 ∧
      ∀ step ∈ (joinWhere isProduct .binary first rest).2,
        step.1.precedence = 1 ∧ step.2.HoldsAt 2 := by
  induction rest generalizing first with
  | nil => exact ⟨hfirst, fun _ hmem => absurd hmem List.not_mem_nil⟩
  | cons step rest ih =>
    obtain ⟨op, next⟩ := step
    obtain ⟨harith, hnext⟩ := hrest _ List.mem_cons_self
    have hmore := fun other hmem => hrest other (List.mem_cons_of_mem _ hmem)
    rw [Equation.joinWhere]
    by_cases hop : isProduct op = true
    · rw [if_pos hop]
      exact ih (.binary (precedence_of_isProduct hop) hfirst hnext) hmore
    · rw [if_neg hop]
      have hjoined := ih (hnext.mono (by decide)) hmore
      constructor
      · exact hfirst
      · intro other hmem
        rcases List.mem_cons.1 hmem with rfl | hmem
        · exact ⟨precedence_of_not_isProduct harith hop, hjoined.1⟩
        · exact hjoined.2 other hmem

theorem holdsAt_evaluate {first : Expr} {rest : List (Operator × Expr)} (hfirst : first.HoldsAt 3)
    (hrest : ∀ step ∈ rest, step.1.isArithmetic = true ∧ step.2.HoldsAt 3) :
    (evaluate .binary first rest).HoldsAt 1 := by
  have hjoined := HoldsAt.joinWhere (hfirst.mono (by decide)) hrest
  exact (hjoined.1.mono (by decide)).foldRow hjoined.2

end Expr

/-! ## Equations -/

/-- Operators with an operand behind each. -/
def steps (rest : List (Operator × String)) : List Lexeme :=
  rest.flatMap fun step => [.operator step.1, .operand step.2]

/-- An operand, and operators with an operand behind each. -/
def row (first : String) (rest : List (Operator × String)) : List Lexeme :=
  .operand first :: steps rest

/-- The expression that the usual rules make of a row of operands. -/
def Expr.ofRow (first : String) (rest : List (Operator × String)) : Expr :=
  evaluate .binary (.operand first) (rest.map (Prod.map id .operand))

theorem Expr.inorder_ofRow (first : String) (rest : List (Operator × String)) :
    (Expr.ofRow first rest).inorder = row first rest := by
  rw [ofRow, inorder_evaluate, rowLexemes, List.flatMap_map]
  rfl

theorem Expr.holdsAt_ofRow {first : String} {rest : List (Operator × String)}
    (harith : ∀ step ∈ rest, step.1.isArithmetic = true) : (Expr.ofRow first rest).HoldsAt 1 := by
  apply holdsAt_evaluate (holdsAt_operand first)
  intro step hmem
  obtain ⟨source, hsource, rfl⟩ := List.mem_map.1 hmem
  exact ⟨harith source hsource, holdsAt_operand source.2⟩

theorem Expr.value_ofRow {V : Type u} (interpret : Operator → V → V → V) (env : Environment V)
    (first : String) (rest : List (Operator × String)) :
    (Expr.ofRow first rest).value interpret env =
      evaluate interpret (env first) (rest.map (Prod.map id env)) := by
  -- taking the value respects operators, so the rules can be applied to values instead
  have hbinary (op : Operator) (left right : Expr) :
      (Expr.binary op left right).value interpret env =
        interpret op (left.value interpret env) (right.value interpret env) := rfl
  rw [ofRow, ← map_evaluate hbinary, List.map_map]
  rfl

/-- The operand is no temporary, the operator arithmetic. -/
def Lexeme.isPure : Lexeme → Bool
  | .operand text => !isTemporaryName text
  | .operator op => op.isArithmetic

theorem Expr.isPure_eq_inorder (expr : Expr) : expr.isPure = expr.inorder.all Lexeme.isPure := by
  induction expr with
  | operand text => exact (Bool.and_true _).symm
  | binary op left right ihleft ihright =>
    rw [isPure, inorder, List.all_append, List.all_cons, ihleft, ihright, Bool.and_assoc,
      Bool.and_left_comm]
    rfl

theorem Expr.isPure_ofRow {first : String} {rest : List (Operator × String)}
    (harith : ∀ step ∈ rest, step.1.isArithmetic = true)
    (hnames : ∀ name ∈ first :: rest.map Prod.snd, isTemporaryName name = false) :
    (Expr.ofRow first rest).isPure = true := by
  rw [isPure_eq_inorder, inorder_ofRow, row, List.all_cons, Bool.and_eq_true, List.all_eq_true]
  constructor
  · rw [Lexeme.isPure, hnames first List.mem_cons_self]
    rfl
  · intro lexeme hmem
    obtain ⟨step, hstep, hlexeme⟩ := List.mem_flatMap.1 hmem
    rcases List.mem_cons.1 hlexeme with rfl | hlexeme
    · exact harith step hstep
    · rw [List.mem_singleton.1 hlexeme, Lexeme.isPure,
        hnames step.2 (List.mem_cons_of_mem _ (List.mem_map_of_mem hstep))]
      rfl

-- An equation is read as an assignment of what stands on the right.
theorem Expr.ofText?_of_lexemes {text name first : String} {rest : List (Operator × String)}
    (hlexemes : lexemes text = .operand name :: .operator .assign :: row first rest)
    (harith : ∀ step ∈ rest, step.1.isArithmetic = true) :
    Expr.ofText? text = .ok (.binary .assign (.operand name) (Expr.ofRow first rest)) := by
  have hright : (Expr.ofRow first rest).HoldsAt 1 := Expr.holdsAt_ofRow harith
  -- assignment binds least, so the whole equation obeys precedence too
  have hwhole : (Expr.binary .assign (.operand name) (Expr.ofRow first rest)).HoldsAt 0 :=
    .binary rfl ((holdsAt_operand name).mono (Nat.zero_le 3)) hright
  rw [ofText?, hlexemes, ← Expr.inorder_ofRow]
  exact Expr.ofLexemes?_inorder hwhole.1

end ThreeAddress.Equation

namespace ThreeAddress

open Equation

universe u

-- An assignment is lowered to the code of its right side and a copy.
theorem Code.ofTree?_assign (name : String) (value : Expr) :
    Code.ofTree? (Expr.binary .assign (.operand name) value).toTree =
      .ok ((Code.empty.compute value).2.copy name (Code.empty.compute value).1) :=
  Code.ofTree?_toTree (.binary .assign (.operand name) value)

variable {V : Type u} (interpret : Operator → V → V → V)

/-- The code of an equation sets its name to the value of its right side, taken in the environment
from the start, and leaves every other name as it was. -/
theorem Equation.ofText?_preserves_meaning {text name first : String}
    {rest : List (Operator × String)}
    (hlexemes : lexemes text = .operand name :: .operator .assign :: row first rest)
    (harith : ∀ step ∈ rest, step.1.isArithmetic = true)
    (hnames : ∀ operand ∈ name :: first :: rest.map Prod.snd, isTemporaryName operand = false)
    (env : Environment V) :
    ∃ expr code, Expr.ofText? text = .ok expr ∧ Code.ofTree? expr.toTree = .ok code ∧
      code.run interpret env name = evaluate interpret (env first) (rest.map (Prod.map id env)) ∧
      ∀ other, isTemporaryName other = false → other ≠ name →
        code.run interpret env other = env other := by
  have hpure : (Expr.ofRow first rest).isPure = true :=
    Expr.isPure_ofRow harith fun operand hmem => hnames operand (List.mem_cons_of_mem _ hmem)
  have hcompute := Code.compute_computes interpret env hpure Code.empty
  refine ⟨_, _, Expr.ofText?_of_lexemes hlexemes harith, Code.ofTree?_assign name _, ?_, ?_⟩
  · -- the code before the copy starts from the environment as it was
    rw [Code.run_copy, Function.update_self, hcompute.value, Expr.value_ofRow]
    rfl
  · intro other hother hne
    rw [Code.run_copy, Function.update_of_ne hne,
      hcompute.keeps other (Code.settled_of_not_temporary _ hother)]
    rfl

theorem Equation.ofText?_preserves_meaning_mixed :
    lexemes "x = a - x * 2 / b + 1" = .operand "x" :: .operator .assign ::
        row "a" [(.sub, "x"), (.mul, "2"), (.div, "b"), (.add, "1")] ∧
      ∃ expr code, Expr.ofText? "x = a - x * 2 / b + 1" = .ok expr ∧
        Code.ofTree? expr.toTree = .ok code ∧
        code.run Operator.onIntegers (fun name => name.length) "x" =
          evaluate Operator.onIntegers 1 [(.sub, 1), (.mul, 1), (.div, 1), (.add, 1)] ∧
        ∀ other, isTemporaryName other = false → other ≠ "x" →
          code.run Operator.onIntegers (fun name => name.length) other = other.length := by
  have hlexemes : lexemes "x = a - x * 2 / b + 1" = .operand "x" :: .operator .assign ::
      row "a" [(.sub, "x"), (.mul, "2"), (.div, "b"), (.add, "1")] := by
    decide +kernel
  exact ⟨hlexemes, ofText?_preserves_meaning Operator.onIntegers hlexemes (by decide) (by decide)
    fun name => name.length⟩

end ThreeAddress
