import Mathlib.Logic.Function.Basic
import ThreeAddress.Code
import ThreeAddress.Equation.Expr

/-!
# Executing three-address code

An environment gives every name a value, names and literals alike, and an instruction changes the
value of its target. Code that computes an expression into fresh temporaries leaves the value of the
expression under the name it yields and changes no name but those temporaries.
-/

namespace ThreeAddress

open Equation

universe u

/-- A value for every name. -/
abbrev Environment (V : Type u) := String → V

/-- The operators on integers; division rounds towards zero. -/
def Operator.onIntegers : Operator → Int → Int → Int
  | .assign, _, right => right
  | .add, left, right => left + right
  | .sub, left, right => left - right
  | .mul, left, right => left * right
  | .div, left, right => left.tdiv right

variable {V : Type u} (interpret : Operator → V → V → V)

/-- The environment after an instruction, given the meaning of the operators. -/
def Instruction.execute (env : Environment V) : Instruction → Environment V
  | .copy target source => Function.update env target (env source)
  | .binary target left op right =>
      Function.update env target (interpret op (env left) (env right))

/-- The environment after all instructions in order. -/
def Code.run (code : Code) (env : Environment V) : Environment V :=
  code.instructions.foldl (Instruction.execute interpret) env

@[simp]
theorem Code.run_empty (env : Environment V) : Code.empty.run interpret env = env :=
  rfl

@[simp]
theorem Code.run_copy (code : Code) (target source : String) (env : Environment V) :
    (code.copy target source).run interpret env =
      Function.update (code.run interpret env) target (code.run interpret env source) := by
  unfold Code.run Code.copy
  rw [Array.foldl_push]
  rfl

theorem Code.run_push_binary (code : Code) (target left right : String) (op : Operator)
    (temporaries : Nat) (env : Environment V) :
    (Code.mk (code.instructions.push (.binary target left op right)) temporaries).run interpret
        env =
      Function.update (code.run interpret env) target
        (interpret op (code.run interpret env left) (code.run interpret env right)) := by
  unfold Code.run
  rw [Array.foldl_push]
  rfl

/-! ## Names of temporaries -/

namespace Code

theorem toList_temporary (number : Nat) :
    (temporary number).toList = 't' :: Nat.toDigits 10 number := by
  unfold temporary
  rw [String.toList_append, Nat.toString_eq_repr, Nat.toList_repr]
  rfl

-- Temporaries with different numbers have different names.
theorem temporary_injective {first second : Nat} (h : temporary first = temporary second) :
    first = second := by
  have hlist := congrArg String.toList h
  rw [toList_temporary, toList_temporary, List.cons.injEq] at hlist
  -- reading the digits gives the number back
  have hvalue := congrArg (fun digits => Nat.ofDigitChars 10 digits 0) hlist.2
  simpa only [Nat.ofDigitChars_ten_toDigits] using hvalue

theorem isTemporaryName_temporary (number : Nat) : isTemporaryName (temporary number) = true := by
  unfold isTemporaryName Token.isNumber
  rw [toList_temporary]
  have hdigits : (Nat.toDigits 10 number).all Char.isDigit = true :=
    List.all_eq_true.2 fun _ hmem => Nat.isDigit_of_mem_toDigits (by decide) (by decide) hmem
  simp [hdigits]

/-- No temporary still to be handed out has the name. -/
def Settled (code : Code) (name : String) : Prop :=
  ∀ number, code.temporaries ≤ number → name ≠ temporary number

theorem Settled.mono {code later : Code} {name : String} (h : code.Settled name)
    (hle : code.temporaries ≤ later.temporaries) : later.Settled name :=
  fun number hnumber => h number (Nat.le_trans hle hnumber)

theorem settled_of_not_temporary (code : Code) {name : String}
    (h : isTemporaryName name = false) : code.Settled name := by
  intro number _ hname
  rw [hname, isTemporaryName_temporary] at h
  simp at h

end Code

/-- The environments give the same value to every name that no temporary has. -/
def Environment.Agree (env other : Environment V) : Prop :=
  ∀ name, isTemporaryName name = false → env name = other name

/-! ## Expressions -/

namespace Equation.Expr

/-- The value of an expression whose operands are looked up by their texts. -/
def value (env : Environment V) : Expr → V
  | .operand text => env text
  | .binary op left right => interpret op (left.value env) (right.value env)

/-- Only arithmetic, and no operand with the name of a temporary. -/
def isPure : Expr → Bool
  | .operand text => !isTemporaryName text
  | .binary op left right => op.isArithmetic && left.isPure && right.isPure

-- The value of an expression depends only on names that no temporary has.
theorem value_congr {env other : Environment V} (h : env.Agree other) {expr : Expr}
    (hpure : expr.isPure = true) : expr.value interpret env = expr.value interpret other := by
  induction expr with
  | operand text => exact h text (by simpa [isPure] using hpure)
  | binary op left right ihleft ihright =>
    rw [isPure, Bool.and_eq_true, Bool.and_eq_true] at hpure
    rw [value, value, ihleft hpure.1.2, ihright hpure.2]

end Equation.Expr

namespace Code

/-- The code with an expression computed behind it, and the name that then holds the result. -/
def compute (code : Code) : Expr → String × Code
  | .operand text => (text, code)
  | .binary op left right =>
      let (leftName, code) := code.compute left
      let (rightName, code) := code.compute right
      code.apply op leftName rightName

/-- What code owes an expression: other names keep their values, and the name it yields holds the
value and keeps it while temporaries are handed out. -/
structure Computes (env : Environment V) (code : Code) (expr : Expr) (result : String × Code) :
    Prop where
  grows : code.temporaries ≤ result.2.temporaries
  keeps : ∀ name, code.Settled name →
    result.2.run interpret env name = code.run interpret env name
  settled : result.2.Settled result.1
  value : result.2.run interpret env result.1 = expr.value interpret (code.run interpret env)

/-- Computing an expression gives what is owed to it. -/
theorem compute_computes (env : Environment V) {expr : Expr} (hpure : expr.isPure = true)
    (code : Code) : Computes interpret env code expr (code.compute expr) := by
  induction expr generalizing code with
  | operand text =>
    have htext : isTemporaryName text = false := by simpa [Expr.isPure] using hpure
    exact ⟨Nat.le_refl _, fun _ _ => rfl, settled_of_not_temporary code htext, rfl⟩
  | binary op left right ihleft ihright =>
    rw [Expr.isPure, Bool.and_eq_true, Bool.and_eq_true] at hpure
    obtain ⟨⟨harith, hpureleft⟩, hpureright⟩ := hpure
    -- the left operand is computed first, the right one behind it
    have hleft := ihleft hpureleft code
    have hright := ihright hpureright (code.compute left).2
    generalize hl : code.compute left = leftResult at hleft hright
    obtain ⟨leftName, middle⟩ := leftResult
    generalize hr : middle.compute right = rightResult at hright
    obtain ⟨rightName, last⟩ := rightResult
    have hresult : code.compute (.binary op left right) =
        (temporary last.temporaries,
          ⟨last.instructions.push (.binary (temporary last.temporaries) leftName op rightName),
            last.temporaries + 1⟩) := by
      rw [compute, hl]
      dsimp only
      rw [hr]
      dsimp only
      rw [apply, if_pos harith]
    have hrun := run_push_binary interpret last (temporary last.temporaries) leftName rightName op
      (last.temporaries + 1) env
    rw [hresult]
    refine ⟨?_, fun name hname => ?_, fun number hnumber heq => ?_, ?_⟩
    · have := hleft.grows
      have := hright.grows
      dsimp only at *
      omega
    · -- a name that was settled from the start is not the target
      have hlast := (hname.mono hleft.grows).mono hright.grows
      rw [hrun, Function.update_of_ne (hlast _ (Nat.le_refl _)),
        hright.keeps name (hname.mono hleft.grows), hleft.keeps name hname]
    · -- the next temporaries have greater numbers than the one just taken
      have := temporary_injective heq
      dsimp only at hnumber
      omega
    · rw [hrun, Function.update_self, Expr.value]
      congr 1
      · -- the right operand leaves the result of the left one alone
        rw [hright.keeps leftName hleft.settled]
        exact hleft.value
      · rw [hright.value]
        exact Expr.value_congr interpret
          (fun name hname => hleft.keeps name (settled_of_not_temporary code hname)) hpureright

end Code

end ThreeAddress
