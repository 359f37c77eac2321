import ThreeAddress.Proofs.Rows
import ThreeAddress.Proofs.Spacing

/-!
# Trees that obey precedence

A tree of an equation has an operator over its two operands at every inner node and an operand at
every leaf. The trees that obey precedence are those that can be read: each of them stands for one
row of operands, and reading the row, written with blanks between its words, gives back the tree.
-/

namespace ThreeAddress

namespace Tree

variable {α : Type}

/-- The values from left to right, that of a node with two children between theirs. -/
def inorder (tree : Tree α) : List α :=
  tree.fold fun value listings =>
    match listings with
    | [left, right] => left ++ value :: right
    | _ => value :: listings.flatten

/-- The values at the leaves from left to right. -/
def leaves (tree : Tree α) : List α :=
  tree.fold fun value below => if below.isEmpty then [value] else below.flatten

theorem inorder_pair (value : α) (left right : Tree α) :
    (node value [left, right]).inorder = left.inorder ++ value :: right.inorder := by
  rw [inorder, fold_node]
  rfl

theorem leaves_pair (value : α) (left right : Tree α) :
    (node value [left, right]).leaves = left.leaves ++ right.leaves := by
  rw [leaves, fold_node]
  show [left.leaves, right.leaves].flatten = _
  rw [List.flatten_cons, List.flatten_singleton]

end Tree

namespace Equation

/-- The operator at the root, if the tree is more than a leaf. -/
def rootOperator? : Tree String → Option Operator
  | .node _ [] => none
  | .node value _ => Operator.ofText? value

/-- Every inner node joins two operands, the left one held together at least as tightly as by its
own operator and the right one more tightly. -/
inductive Canonical : Tree String → Prop where
  | leaf (text : String) : Canonical (.leaf text)
  | join (op : Operator) {left right : Tree String} :
      (∀ top ∈ rootOperator? left, op.precedence ≤ top.precedence) →
      (∀ top ∈ rootOperator? right, op.precedence < top.precedence) →
      Canonical left → Canonical right → Canonical (.node op.symbol [left, right])

/-- Whether the word is one operand of an equation. -/
def isOperandWord (word : String) : Bool :=
  word != "" && word.toList.all isOperandChar

/-- What is written for the lexeme. -/
def Lexeme.text : Lexeme → String
  | .operand text => text
  | .operator op => op.symbol

/-- Lexemes with blanks between them are read again as they are. -/
theorem lexemes_intercalate_text {list : List Lexeme} (h : ∀ word, .operand word ∈ list →
    word ≠ "" ∧ ∀ c ∈ word.toList, isOperandChar c = true) :
    lexemes (" ".intercalate (list.map Lexeme.text)) = list := by
  have hword : ∀ lexeme ∈ list, lexemes lexeme.text = [lexeme] := by
    intro lexeme hmem
    cases lexeme with
    | operator op => exact lexemes_symbol op
    | operand word => exact lexemes_of_operandChars (h word hmem).1 (h word hmem).2
  rw [lexemes_intercalate, List.flatMap_map, List.flatMap_congr hword, List.flatMap_singleton']

namespace Expr

theorem inorder_toTree (expr : Expr) :
    expr.toTree.inorder = expr.inorder.map Lexeme.text := by
  induction expr with
  | operand text => rfl
  | binary op left right ihleft ihright =>
    rw [toTree, Tree.inorder_pair, ihleft, ihright, inorder, List.map_append, List.map_cons]
    rfl

theorem rootOperator?_toTree_binary (op : Operator) (left right : Expr) :
    rootOperator? (Expr.binary op left right).toTree = some op :=
  Operator.ofText?_symbol op

-- Only operators can be less tight than others, an operand never is.
theorem le_rank_iff {op : Operator} {expr : Expr} :
    op.precedence ≤ expr.rank ↔
      ∀ top ∈ rootOperator? expr.toTree, op.precedence ≤ top.precedence := by
  cases expr with
  | operand text =>
    have hlt := precedence_lt_rank_operand op text
    exact ⟨fun _ => nofun, fun _ => Nat.le_of_lt hlt⟩
  | binary top left right =>
    rw [rootOperator?_toTree_binary]
    exact ⟨fun h _ hmem => Option.some.inj hmem ▸ h, fun h => h top rfl⟩

theorem lt_rank_iff {op : Operator} {expr : Expr} :
    op.precedence < expr.rank ↔
      ∀ top ∈ rootOperator? expr.toTree, op.precedence < top.precedence := by
  cases expr with
  | operand text => exact ⟨fun _ => nofun, fun _ => precedence_lt_rank_operand op text⟩
  | binary top left right =>
    rw [rootOperator?_toTree_binary]
    exact ⟨fun h _ hmem => Option.some.inj hmem ▸ h, fun h => h top rfl⟩

theorem canonical_toTree {expr : Expr} (h : expr.isCanonical = true) : Canonical expr.toTree := by
  induction expr with
  | operand text => exact .leaf text
  | binary op left right ihleft ihright =>
    obtain ⟨hleft, hright, hcanonicalLeft, hcanonicalRight⟩ := isCanonical_binary.1 h
    exact .join op (le_rank_iff.1 hleft) (lt_rank_iff.1 hright) (ihleft hcanonicalLeft)
      (ihright hcanonicalRight)

theorem exists_toTree_eq {tree : Tree String} (h : Canonical tree) :
    ∃ expr : Expr, expr.isCanonical = true ∧ expr.toTree = tree := by
  induction h with
  | leaf text => exact ⟨.operand text, rfl, rfl⟩
  | @join op left right hleft hright _ _ ihleft ihright =>
    obtain ⟨leftExpr, hcanonicalLeft, rfl⟩ := ihleft
    obtain ⟨rightExpr, hcanonicalRight, rfl⟩ := ihright
    exact ⟨.binary op leftExpr rightExpr,
      isCanonical_binary.2 ⟨le_rank_iff.2 hleft, lt_rank_iff.2 hright, hcanonicalLeft,
        hcanonicalRight⟩, rfl⟩

theorem leaves_toTree (expr : Expr) :
    expr.toTree.leaves = expr.inorder.filterMap Lexeme.operand? := by
  induction expr with
  | operand text => rfl
  | binary op left right ihleft ihright =>
    rw [toTree, Tree.leaves_pair, ihleft, ihright, inorder, List.filterMap_append]
    rfl

-- Written with blanks between its words, an expression has the lexemes that it is made of.
theorem lexemes_intercalate_inorder {expr : Expr}
    (hleaves : ∀ word ∈ expr.toTree.leaves, isOperandWord word = true) :
    lexemes (" ".intercalate expr.toTree.inorder) = expr.inorder := by
  rw [inorder_toTree]
  refine lexemes_intercalate_text fun word hmem => ?_
  have hoperand := hleaves word (leaves_toTree expr ▸ mem_operands.2 hmem)
  rwa [isOperandWord, Bool.and_eq_true, bne_iff_ne, List.all_eq_true] at hoperand

end Expr

/-- Reading and writing are inverse to each other between rows and the trees that obey precedence:
every row is read as such a tree, with the same words from left to right, and every such tree is
what its words are read as. -/
theorem ofText?_row_iff_canonical :
    (∀ text first rest, lexemes text = row first rest →
      ∃ tree, (Expr.ofText? text).map Expr.toTree = .ok tree ∧ Canonical tree ∧
        tree.inorder = (lexemes text).map Lexeme.text) ∧
    (∀ tree, Canonical tree → (∀ word ∈ tree.leaves, isOperandWord word = true) →
      (Expr.ofText? (" ".intercalate tree.inorder)).map Expr.toTree = .ok tree) := by
  constructor
  · intro text first rest hrow
    obtain ⟨expr, hread, hcanonical, hinorder⟩ := Expr.exists_ofText?_of_row hrow
    refine ⟨expr.toTree, ?_, Expr.canonical_toTree hcanonical, ?_⟩
    · rw [hread]
      rfl
    · rw [Expr.inorder_toTree, hinorder]
  · intro tree hcanonical hleaves
    obtain ⟨expr, hexpr, rfl⟩ := Expr.exists_toTree_eq hcanonical
    rw [Expr.ofText?, Expr.lexemes_intercalate_inorder hleaves, Expr.ofLexemes?_inorder hexpr]
    rfl

theorem ofText?_row_iff_canonical_mixed :
    (∃ tree, (Expr.ofText? "x = a*b").map Expr.toTree = .ok tree ∧ Canonical tree ∧
        tree.inorder = ["x", "=", "a", "*", "b"]) ∧
      (Expr.ofText? "a - b").map Expr.toTree = .ok (.node "-" [.leaf "a", .leaf "b"]) := by
  have hrow : lexemes "x = a*b" = row "x" [(.assign, "a"), (.mul, "b")] := by
    decide +kernel
  have htree : Canonical (.node "-" [.leaf "a", .leaf "b"]) :=
    .join .sub nofun nofun (.leaf "a") (.leaf "b")
  obtain ⟨tree, hread, hcanonical, hinorder⟩ := ofText?_row_iff_canonical.1 _ _ _ hrow
  rw [hrow] at hinorder
  exact ⟨⟨tree, hread, hcanonical, hinorder⟩,
    ofText?_row_iff_canonical.2 _ htree (by decide +kernel)⟩

end Equation

end ThreeAddress
