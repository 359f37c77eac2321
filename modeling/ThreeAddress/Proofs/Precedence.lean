import ThreeAddress.Equation.Expr

/-!
# Precedence

The operands of an expression stand in a row with the operators between them. An expression obeys
precedence if no operator in it binds less tightly than the operator above it, and on the right of
an operator all bind more tightly. Reading such a row with the two stacks gives back the expression:
an operand that is complete is found on top of its stack as soon as an operator comes that does not
bind more tightly.
-/

namespace ThreeAddress.Equation

namespace Expr

/-- The operands and operators from left to right. -/
def inorder : Expr → List Lexeme
  | .operand text => [.operand text]
  | .binary op left right => left.inorder ++ .operator op :: right.inorder

/-- How tightly the expression holds together: as its topmost operator, an operand most of all. -/
def rank : Expr → Nat
  | .operand _ => 3
  | .binary op _ _ => op.precedence

/-- Operators of the same precedence group to the left, tighter ones come first. -/
def isCanonical : Expr → Bool
  | .operand _ => true
  | .binary op left right =>
      decide (op.precedence ≤ left.rank) && decide (op.precedence < right.rank) &&
        left.isCanonical && right.isCanonical

theorem isCanonical_binary {op : Operator} {left right : Expr} :
    (Expr.binary op left right).isCanonical = true ↔
      op.precedence ≤ left.rank ∧ op.precedence < right.rank ∧
        left.isCanonical = true ∧ right.isCanonical = true := by
  simp only [isCanonical, Bool.and_eq_true, decide_eq_true_eq, and_assoc]

/-- The expression obeys precedence and can stand where operators of that precedence join. -/
def HoldsAt (precedence : Nat) (expr : Expr) : Prop :=
  expr.isCanonical = true ∧ precedence ≤ expr.rank

theorem HoldsAt.mono {low high : Nat} {expr : Expr} (h : expr.HoldsAt high) (hle : low ≤ high) :
    expr.HoldsAt low :=
  ⟨h.1, Nat.le_trans hle h.2⟩

theorem holdsAt_operand (text : String) : (Expr.operand text).HoldsAt 3 :=
  ⟨rfl, Nat.le_refl 3⟩

-- An operator joins a left operand of its own precedence and a right one of a higher.
theorem HoldsAt.binary {op : Operator} {precedence : Nat} (hop : op.precedence = precedence)
    {left right : Expr} (hleft : left.HoldsAt precedence)
    (hright : right.HoldsAt (precedence + 1)) : (Expr.binary op left right).HoldsAt precedence := by
  subst hop
  exact ⟨isCanonical_binary.2 ⟨hleft.2, hright.2, hleft.1, hright.1⟩, Nat.le_refl _⟩

end Expr

namespace Stacks

theorem applyWhile_stop {condition : Operator → Bool} {operators : List Operator}
    (h : ∀ top ∈ operators.head?, condition top = false) (operands : List Expr) :
    applyWhile condition operators operands = .ok ⟨operands, operators⟩ := by
  cases operators with
  | nil => rfl
  | cons top operators =>
    rw [applyWhile.eq_def]
    exact if_neg (Bool.eq_false_iff.1 (h top rfl))

theorem applyWhile_binary {condition : Operator → Bool} {op : Operator} (h : condition op = true)
    (operators : List Operator) (left right : Expr) (operands : List Expr) :
    applyWhile condition (op :: operators) (right :: left :: operands) =
      applyWhile condition operators (.binary op left right :: operands) := by
  rw [applyWhile, if_pos h]

/-- Taking in the row of an expression leaves stacks on which every condition that its operators
satisfy acts as if the expression were a single operand. -/
theorem pushes_inorder {expr : Expr} (hcanonical : expr.isCanonical = true)
    (operands : List Expr) {operators : List Operator}
    (htop : ∀ top ∈ operators.head?, top.precedence < expr.rank) :
    ∃ pending, expr.inorder.foldlM push ⟨operands, operators⟩ = .ok pending ∧
      ∀ condition : Operator → Bool, (∀ op, expr.rank ≤ op.precedence → condition op = true) →
        applyWhile condition pending.operators pending.operands =
          applyWhile condition operators (expr :: operands) := by
  -- the operators below bind less tightly than the expression, so they wait until it is complete
  induction expr generalizing operands operators with
  | operand text => exact ⟨_, rfl, fun _ _ => rfl⟩
  | binary op left right ihleft ihright =>
    obtain ⟨hleft, hright, hcanonicalLeft, hcanonicalRight⟩ := Expr.isCanonical_binary.1 hcanonical
    change ∀ top ∈ operators.head?, top.precedence < op.precedence at htop
    have htopLeft : ∀ top ∈ operators.head?, top.precedence < left.rank :=
      fun top hmem => Nat.lt_of_lt_of_le (htop top hmem) hleft
    obtain ⟨middle, hmiddle, hcollapse⟩ := ihleft hcanonicalLeft operands htopLeft
    -- the operator completes its left operand and nothing below it
    have hpush : push middle (.operator op) = .ok ⟨left :: operands, op :: operators⟩ := by
      have hreduce := hcollapse (fun top => decide (op.precedence ≤ top.precedence))
        fun top htop => decide_eq_true (Nat.le_trans hleft htop)
      have hstop : ∀ top ∈ operators.head?, decide (op.precedence ≤ top.precedence) = false :=
        fun top hmem => decide_eq_false (Nat.not_le_of_lt (htop top hmem))
      rw [applyWhile_stop hstop] at hreduce
      rw [push, hreduce]
      rfl
    have hnext : ∀ top ∈ (op :: operators).head?, top.precedence < right.rank := by
      intro top hmem
      cases hmem
      exact hright
    obtain ⟨last, hlast, hcollapseLast⟩ := ihright hcanonicalRight (left :: operands) hnext
    refine ⟨last, ?_, fun condition hcondition => ?_⟩
    · rw [Expr.inorder, List.foldlM_append, hmiddle]
      show (push middle (.operator op) >>= fun pending => right.inorder.foldlM push pending) = _
      rw [hpush]
      exact hlast
    · -- a condition that takes the operator takes all that are tighter, so the right side first
      have hop : condition op = true := hcondition op (Nat.le_refl _)
      have htight : ∀ other : Operator, right.rank ≤ other.precedence → condition other = true :=
        fun other hother => hcondition other (Nat.le_trans (Nat.le_of_lt hright) hother)
      rw [hcollapseLast condition htight, applyWhile_binary hop]

end Stacks

/-- Reading the row of an expression that obeys precedence gives back the expression. -/
theorem Expr.ofLexemes?_inorder {expr : Expr} (h : expr.isCanonical = true) :
    ofLexemes? expr.inorder = .ok expr := by
  have hempty : ∀ top ∈ ([] : List Operator).head?, top.precedence < expr.rank := by
    intro top hmem
    cases hmem
  obtain ⟨pending, hpending, hcollapse⟩ := Stacks.pushes_inorder h [] hempty
  have hfinish : Stacks.applyWhile (fun _ => true) pending.operators pending.operands =
      .ok ⟨[expr], []⟩ := hcollapse _ fun _ _ => rfl
  rw [ofLexemes?, hpending]
  show pending.finish = _
  rw [Stacks.finish, hfinish]
  rfl

end ThreeAddress.Equation
