import ThreeAddress.Proofs.EquationMeaning

/-!
# Rows of operands

A row is an operand followed by operators with an operand behind each. Every row is read, and what
is read of it stands in the same order. Texts that are no row can be accepted too, since the stacks
only count: an operator that comes too late still finds two operands. Then all operands are where
they were and no operator is lost, but the operators have moved. Reading fails only at an operator
of the text that finds too few operands, or at the end, with all of the text on the stack of
operands.
-/

namespace ThreeAddress.Equation

namespace Expr

/-! ## Reading a row operand by operand -/

/-- The expression with one more operator and operand on the right. The operator takes all that
binds at least as tightly. -/
def extend (op : Operator) (text : String) : Expr → Expr
  | .operand first => .binary op (.operand first) (.operand text)
  | .binary top left right =>
      if op.precedence ≤ top.precedence then .binary op (.binary top left right) (.operand text)
      else .binary top left (right.extend op text)

theorem precedence_lt_rank_operand (op : Operator) (text : String) :
    op.precedence < (Expr.operand text).rank := by
  show op.precedence < 3
  cases op <;> decide

theorem inorder_extend (op : Operator) (text : String) (expr : Expr) :
    (expr.extend op text).inorder = expr.inorder ++ [.operator op, .operand text] := by
  induction expr with
  | operand first => rfl
  | binary top left right _ ih =>
    rw [extend]
    split
    · rfl
    · rw [inorder, ih, inorder, List.append_assoc, List.cons_append]

theorem rank_extend (op : Operator) (text : String) (expr : Expr) :
    (expr.extend op text).rank = min expr.rank op.precedence := by
  cases expr with
  | operand first =>
    have hlt : op.precedence ≤ (Expr.operand first).rank :=
      Nat.le_of_lt (precedence_lt_rank_operand op first)
    exact (Nat.min_eq_right hlt).symm
  | binary top left right =>
    rw [extend]
    split
    · rename_i hle
      exact (Nat.min_eq_right hle).symm
    · rename_i hlt
      exact (Nat.min_eq_left (Nat.le_of_not_le hlt)).symm

theorem isCanonical_extend (op : Operator) (text : String) {expr : Expr}
    (h : expr.isCanonical = true) : (expr.extend op text).isCanonical = true := by
  -- a new operator at the top joins the whole expression and an operand
  have htop {expr : Expr} (h : expr.isCanonical = true) (hle : op.precedence ≤ expr.rank) :
      (Expr.binary op expr (.operand text)).isCanonical = true :=
    isCanonical_binary.2 ⟨hle, precedence_lt_rank_operand op text, h, rfl⟩
  induction expr with
  | operand first => exact htop h (Nat.le_of_lt (precedence_lt_rank_operand op first))
  | binary top left right _ ih =>
    rw [extend]
    split
    · rename_i hle
      exact htop h hle
    · rename_i hlt
      obtain ⟨hleft, hright, hcanonicalLeft, hcanonicalRight⟩ := isCanonical_binary.1 h
      have hrank : top.precedence < (right.extend op text).rank := by
        rw [rank_extend]
        omega
      exact isCanonical_binary.2 ⟨hleft, hrank, hcanonicalLeft, ih hcanonicalRight⟩

theorem exists_isCanonical_steps {expr : Expr} (h : expr.isCanonical = true)
    (rest : List (Operator × String)) :
    ∃ whole : Expr, whole.isCanonical = true ∧ whole.inorder = expr.inorder ++ steps rest := by
  induction rest generalizing expr with
  | nil => exact ⟨expr, h, (List.append_nil _).symm⟩
  | cons step rest ih =>
    obtain ⟨whole, hcanonical, hinorder⟩ := ih (isCanonical_extend step.1 step.2 h)
    refine ⟨whole, hcanonical, ?_⟩
    rw [hinorder, inorder_extend, steps, steps, List.flatMap_cons, List.append_assoc]

/-- Every row is read as an expression that obeys precedence and stands in the same order. -/
theorem exists_ofText?_of_row {text first : String} {rest : List (Operator × String)}
    (h : lexemes text = row first rest) :
    ∃ expr, ofText? text = .ok expr ∧ expr.isCanonical = true ∧ expr.inorder = lexemes text := by
  have hfirst : (operand first).isCanonical = true := rfl
  obtain ⟨expr, hcanonical, hinorder⟩ := exists_isCanonical_steps hfirst rest
  have htext : lexemes text = expr.inorder := h.trans hinorder.symm
  refine ⟨expr, ?_, hcanonical, htext.symm⟩
  rw [ofText?, htext]
  exact ofLexemes?_inorder hcanonical

/-- The operands and operators of an expression form a row. -/
theorem exists_inorder_eq_row (expr : Expr) : ∃ first rest, expr.inorder = row first rest := by
  induction expr with
  | operand text => exact ⟨text, [], rfl⟩
  | binary op left right ihleft ihright =>
    obtain ⟨first, rest, hleft⟩ := ihleft
    obtain ⟨second, others, hright⟩ := ihright
    refine ⟨first, rest ++ (op, second) :: others, ?_⟩
    rw [inorder, hleft, hright, row, row, row, steps, steps, steps, List.flatMap_append,
      List.flatMap_cons]
    rfl

end Expr

/-! ## What the stacks keep -/

theorem bind_eq_ok {α β : Type} {first : Except Error α} {next : α → Except Error β} {result : β} :
    first >>= next = .ok result ↔ ∃ value, first = .ok value ∧ next value = .ok result := by
  cases first with
  | error error => exact ⟨nofun, fun ⟨_, hvalue, _⟩ => nomatch hvalue⟩
  | ok value => exact ⟨fun h => ⟨value, rfl, h⟩, fun ⟨_, rfl, h⟩ => h⟩

theorem bind_eq_error {α β : Type} {first : Except Error α} {next : α → Except Error β}
    {error : Error} :
    first >>= next = .error error ↔
      first = .error error ∨ ∃ value, first = .ok value ∧ next value = .error error := by
  cases first with
  | error other =>
    constructor
    · intro h
      obtain rfl : other = error := Except.error.inj h
      exact .inl rfl
    · rintro (herror | ⟨_, hvalue, _⟩)
      · obtain rfl : other = error := Except.error.inj herror
        rfl
      · cases hvalue
  | ok value => exact ⟨fun h => .inr ⟨value, rfl, h⟩, fun h => h.elim nofun fun ⟨_, rfl, h⟩ => h⟩

def Lexeme.operand? : Lexeme → Option String
  | .operand text => some text
  | .operator _ => none

def Lexeme.operator? : Lexeme → Option Operator
  | .operand _ => none
  | .operator op => some op

theorem Expr.mem_operands {lexemes : List Lexeme} {text : String} :
    text ∈ lexemes.filterMap Lexeme.operand? ↔ .operand text ∈ lexemes := by
  rw [List.mem_filterMap]
  constructor
  · rintro ⟨lexeme, hmem, hoperand⟩
    cases lexeme with
    | operand other =>
      obtain rfl : other = text := Option.some.inj hoperand
      exact hmem
    | operator op => cases hoperand
  · exact fun hmem => ⟨_, hmem, rfl⟩

namespace Stacks

/-- What the operands stand for, the earliest of them first. -/
def inPlace (operands : List Expr) : List Lexeme :=
  operands.reverse.flatMap Expr.inorder

/-- The stacks hold the operands of the lexemes in their order, and all their operators. -/
structure Contains (pending : Stacks) (taken : List Lexeme) : Prop where
  operands : (inPlace pending.operands).filterMap Lexeme.operand? =
    taken.filterMap Lexeme.operand?
  operators : ((inPlace pending.operands).filterMap Lexeme.operator? ++ pending.operators).Perm
    (taken.filterMap Lexeme.operator?)

theorem inPlace_cons (expr : Expr) (operands : List Expr) :
    inPlace (expr :: operands) = inPlace operands ++ expr.inorder := by
  rw [inPlace, List.reverse_cons, List.flatMap_append, List.flatMap_singleton]
  rfl

-- An operator moves from its stack into the expression that it joins.
theorem Contains.join {op : Operator} {operators : List Operator} {left right : Expr}
    {rest : List Expr} {taken : List Lexeme}
    (h : Contains ⟨right :: left :: rest, op :: operators⟩ taken) :
    Contains ⟨.binary op left right :: rest, operators⟩ taken where
  operands := by
    rw [← h.operands]
    simp only [inPlace_cons, Expr.inorder, List.filterMap_append, List.append_assoc]
    rfl
  operators := by
    refine List.Perm.trans ?_ h.operators
    simp only [inPlace_cons, Expr.inorder, List.filterMap_append, List.append_assoc]
    refine List.Perm.append_left _ (List.Perm.append_left _ ?_)
    exact List.perm_middle.symm

theorem Contains.applyWhile {condition : Operator → Bool} {operators : List Operator}
    {operands : List Expr} {taken : List Lexeme} (h : Contains ⟨operands, operators⟩ taken)
    {pending : Stacks} (hpending : applyWhile condition operators operands = .ok pending) :
    pending.Contains taken := by
  fun_induction Stacks.applyWhile condition operators operands with
  | case1 operands =>
    cases hpending
    exact h
  | case2 op operators right left rest hop ih => exact ih h.join hpending
  | case3 => cases hpending
  | case4 =>
    cases hpending
    exact h

theorem Contains.push {pending next : Stacks} {lexeme : Lexeme} {taken : List Lexeme}
    (h : pending.Contains taken) (hnext : pending.push lexeme = .ok next) :
    next.Contains (taken ++ [lexeme]) := by
  cases lexeme with
  | operand text =>
    cases hnext
    constructor
    · rw [inPlace_cons, List.filterMap_append, List.filterMap_append, h.operands]
      rfl
    · rw [inPlace_cons, List.filterMap_append, List.filterMap_append]
      -- an operand brings no operator
      show ((_ ++ []) ++ _).Perm (_ ++ [])
      rw [List.append_nil, List.append_nil]
      exact h.operators
  | operator op =>
    obtain ⟨reduced, hreduce, hreturn⟩ := bind_eq_ok.1 hnext
    cases hreturn
    have hreduced := h.applyWhile hreduce
    constructor
    · rw [List.filterMap_append, ← hreduced.operands]
      exact (List.append_nil _).symm
    · rw [List.filterMap_append]
      have hlast := List.perm_append_comm.trans (hreduced.operators.append_right [op])
      exact List.perm_middle.trans hlast

theorem Contains.pushes {pending final : Stacks} {lexemes taken : List Lexeme}
    (h : pending.Contains taken) (hfinal : lexemes.foldlM Stacks.push pending = .ok final) :
    final.Contains (taken ++ lexemes) := by
  induction lexemes generalizing pending taken with
  | nil =>
    cases hfinal
    rwa [List.append_nil]
  | cons lexeme lexemes ih =>
    rw [List.foldlM_cons] at hfinal
    obtain ⟨next, hnext, hmore⟩ := bind_eq_ok.1 hfinal
    have hrest := ih (h.push hnext) hmore
    rwa [List.append_assoc, List.singleton_append] at hrest

theorem operators_of_applyWhile {operators : List Operator} {operands : List Expr}
    {pending : Stacks} (h : applyWhile (fun _ => true) operators operands = .ok pending) :
    pending.operators = [] := by
  fun_induction applyWhile (fun _ => true) operators operands with
  | case1 =>
    cases h
    rfl
  | case2 _ _ _ _ _ _ ih => exact ih h
  | case3 => cases h
  | case4 _ _ _ hop => exact absurd rfl hop

/-! ## How reading fails -/

-- Only an operator that waits can fail, for want of operands.
theorem missing_of_applyWhile {condition : Operator → Bool} {operators : List Operator}
    {operands : List Expr} {error : Error}
    (h : applyWhile condition operators operands = .error error) :
    ∃ op ∈ operators, error = .missingOperand op := by
  fun_induction applyWhile condition operators operands with
  | case1 => cases h
  | case2 _ _ _ _ _ _ ih =>
    obtain ⟨op, hmem, herror⟩ := ih h
    exact ⟨op, List.mem_cons_of_mem _ hmem, herror⟩
  | case3 op operators _ _ _ =>
    cases h
    exact ⟨op, List.mem_cons_self, rfl⟩
  | case4 => cases h

theorem Contains.mem_of_mem_operators {pending : Stacks} {taken : List Lexeme}
    (h : pending.Contains taken) {op : Operator} (hmem : op ∈ pending.operators) :
    op ∈ taken.filterMap Lexeme.operator? :=
  h.operators.subset (List.mem_append_right _ hmem)

theorem missing_of_push {pending : Stacks} {lexeme : Lexeme} {error : Error}
    (h : pending.push lexeme = .error error) :
    ∃ op ∈ pending.operators, error = .missingOperand op := by
  cases lexeme with
  | operand text => cases h
  | operator op =>
    rcases bind_eq_error.1 h with happly | ⟨reduced, -, hreturn⟩
    · exact missing_of_applyWhile happly
    · cases hreturn

theorem Contains.missing_of_pushes {pending : Stacks} {lexemes taken : List Lexeme}
    {error : Error} (h : pending.Contains taken)
    (herror : lexemes.foldlM Stacks.push pending = .error error) :
    ∃ op ∈ (taken ++ lexemes).filterMap Lexeme.operator?, error = .missingOperand op := by
  induction lexemes generalizing pending taken with
  | nil => cases herror
  | cons lexeme lexemes ih =>
    rw [List.foldlM_cons] at herror
    rcases bind_eq_error.1 herror with hpush | ⟨next, hnext, hmore⟩
    · obtain ⟨op, hmem, hop⟩ := missing_of_push hpush
      refine ⟨op, ?_, hop⟩
      rw [List.filterMap_append]
      exact List.mem_append_left _ (h.mem_of_mem_operators hmem)
    · have hrest := ih (h.push hnext) hmore
      rwa [List.append_assoc, List.singleton_append] at hrest

/-! ## The outcome of reading -/

/-- What the operands that are left at the end make of a text. -/
def outcome : List Expr → Except Error Expr
  | [] => .error .empty
  | [expr] => .ok expr
  | operands => .error (.danglingOperands operands.length)

theorem outcome_eq_ok {operands : List Expr} {expr : Expr} :
    outcome operands = .ok expr ↔ operands = [expr] := by
  match operands with
  | [] => exact ⟨nofun, nofun⟩
  | [single] => exact ⟨fun h => congrArg ([·]) (Except.ok.inj h), by rintro ⟨⟩; rfl⟩
  | _ :: _ :: _ => exact ⟨nofun, nofun⟩

theorem finish_of_applyWhile {pending final : Stacks}
    (h : applyWhile (fun _ => true) pending.operators pending.operands = .ok final) :
    pending.finish = outcome final.operands := by
  rw [finish, h]
  obtain ⟨operands, operators⟩ := final
  rcases operands with _ | ⟨first, _ | ⟨second, rest⟩⟩
  · rfl
  · rfl
  · rfl

end Stacks

/-- Reading stops at an operator of the text that misses an operand, or it takes in the whole text,
applies every operator and is left with some number of operands. -/
theorem Expr.ofLexemes?_cases (lexemes : List Lexeme) :
    (∃ op ∈ lexemes.filterMap Lexeme.operator?,
        ofLexemes? lexemes = .error (.missingOperand op)) ∨
      ∃ operands, Stacks.Contains ⟨operands, []⟩ lexemes ∧
        ofLexemes? lexemes = Stacks.outcome operands := by
  have hstart : Stacks.Contains ⟨[], []⟩ [] := ⟨rfl, .nil⟩
  rw [ofLexemes?]
  cases hpushes : lexemes.foldlM Stacks.push ⟨[], []⟩ with
  | error error =>
    obtain ⟨op, hmem, rfl⟩ := hstart.missing_of_pushes hpushes
    exact .inl ⟨op, hmem, rfl⟩
  | ok pending =>
    have hcontains : pending.Contains lexemes := hstart.pushes hpushes
    show (∃ op ∈ _, pending.finish = _) ∨ ∃ operands, _ ∧ pending.finish = _
    cases happly : Stacks.applyWhile (fun _ => true) pending.operators pending.operands with
    | error error =>
      obtain ⟨op, hmem, rfl⟩ := Stacks.missing_of_applyWhile happly
      refine .inl ⟨op, hcontains.mem_of_mem_operators hmem, ?_⟩
      rw [Stacks.finish, happly]
      rfl
    | ok final =>
      have hfinal := hcontains.applyWhile happly
      have houtcome := Stacks.finish_of_applyWhile happly
      obtain ⟨operands, operators⟩ := final
      obtain rfl : operators = [] := Stacks.operators_of_applyWhile happly
      exact .inr ⟨operands, hfinal, houtcome⟩

/-- Whatever is read from lexemes has their operands in the same order, and the same operators. -/
theorem Expr.inorder_of_ofLexemes? {lexemes : List Lexeme} {expr : Expr}
    (h : ofLexemes? lexemes = .ok expr) :
    expr.inorder.filterMap Lexeme.operand? = lexemes.filterMap Lexeme.operand? ∧
      (expr.inorder.filterMap Lexeme.operator?).Perm (lexemes.filterMap Lexeme.operator?) := by
  rcases ofLexemes?_cases lexemes with ⟨op, -, hmissing⟩ | ⟨operands, hcontains, houtcome⟩
  · rw [hmissing] at h
    cases h
  · -- what is left is the expression alone
    obtain rfl : operands = [expr] := Stacks.outcome_eq_ok.1 (houtcome.symm.trans h)
    have hplace : Stacks.inPlace [expr] = expr.inorder := Stacks.inPlace_cons expr []
    obtain ⟨hoperands, hoperators⟩ := hcontains
    dsimp only at hoperands hoperators
    rw [hplace] at hoperands
    rw [hplace, List.append_nil] at hoperators
    exact ⟨hoperands, hoperators⟩

/-- What is read of a text has its operands in the same order, and the same operators. It has all
of them in the same order exactly if the text is a row, in which an operand and an operator always
take turns. -/
theorem Expr.inorder_of_ofText? {text : String} {expr : Expr} (h : ofText? text = .ok expr) :
    expr.inorder.filterMap Lexeme.operand? = (lexemes text).filterMap Lexeme.operand? ∧
      (expr.inorder.filterMap Lexeme.operator?).Perm
        ((lexemes text).filterMap Lexeme.operator?) ∧
      (expr.inorder = lexemes text ↔ ∃ first rest, lexemes text = row first rest) := by
  obtain ⟨hoperands, hoperators⟩ := inorder_of_ofLexemes? h
  refine ⟨hoperands, hoperators, fun hinorder => ?_, ?_⟩
  · rw [← hinorder]
    exact exists_inorder_eq_row expr
  · rintro ⟨first, rest, hrow⟩
    obtain ⟨other, hother, -, hinorder⟩ := exists_ofText?_of_row hrow
    obtain rfl : other = expr := Except.ok.inj (hother.symm.trans h)
    exact hinorder

theorem Expr.inorder_of_ofText?_sum :
    ∃ expr, ofText? "a + b" = .ok expr ∧ expr.inorder = lexemes "a + b" := by
  have hrow : lexemes "a + b" = row "a" [(.add, "b")] := by
    decide +kernel
  have hread : ofText? "a + b" = .ok (.binary .add (.operand "a") (.operand "b")) := by
    rw [ofText?, hrow]
    rfl
  exact ⟨_, hread, (inorder_of_ofText? hread).2.2.2 ⟨"a", [(.add, "b")], hrow⟩⟩

-- An operator behind both of its operands is accepted, and moves between them.
theorem Expr.ofText?_postfix :
    ∃ expr, ofText? "a b +" = .ok expr ∧ expr.inorder ≠ lexemes "a b +" := by
  have hlexemes : lexemes "a b +" = [.operand "a", .operand "b", .operator .add] := by
    decide +kernel
  refine ⟨.binary .add (.operand "a") (.operand "b"), ?_, ?_⟩
  · rw [ofText?, hlexemes]
    rfl
  · rw [hlexemes]
    decide

end ThreeAddress.Equation
