import ThreeAddress.Proofs.Lowerable

/-!
# Heights of parse trees

A parse tree is never taller than its nesting allows, however long the program is: a level of
nesting is spent by a statement, which adds two nodes to a way down, or by a group in parentheses,
which adds three. The most that 128 levels give is one call with 127 groups inside each other, 389
nodes from the root to the operand. So a walk that calls itself for the nodes below needs no more
than 389 calls at a time on any program that is read.
-/

namespace ThreeAddress

namespace Tree

variable {α β : Type}

/-! ## Ways from the root to a leaf -/

/-- The values on a way down from the root to a leaf. -/
inductive IsPath : Tree α → List α → Prop where
  | leaf (value : α) : IsPath (.leaf value) [value]
  | node {value children child path} : child ∈ children → IsPath child path →
      IsPath (.node value children) (value :: path)

/-- The number of nodes on the longest way down from the root. -/
def height (tree : Tree α) : Nat :=
  tree.fold fun _ heights => 1 + heights.foldr max 0

/-- The greatest height of the trees in a list. -/
def maxHeight (trees : List (Tree α)) : Nat :=
  (trees.map height).foldr max 0

theorem height_node (value : α) (children : List (Tree α)) :
    (node value children).height = 1 + maxHeight children :=
  fold_node ..

@[simp]
theorem maxHeight_nil : maxHeight ([] : List (Tree α)) = 0 :=
  rfl

@[simp]
theorem maxHeight_cons (tree : Tree α) (trees : List (Tree α)) :
    maxHeight (tree :: trees) = max tree.height (maxHeight trees) :=
  rfl

@[simp]
theorem maxHeight_append (front back : List (Tree α)) :
    maxHeight (front ++ back) = max (maxHeight front) (maxHeight back) := by
  induction front with
  | nil => simp
  | cons tree front ih => rw [List.cons_append, maxHeight_cons, maxHeight_cons, ih, Nat.max_assoc]

theorem height_le_maxHeight {tree : Tree α} {trees : List (Tree α)} (hmem : tree ∈ trees) :
    tree.height ≤ maxHeight trees := by
  induction trees with
  | nil => cases hmem
  | cons first trees ih =>
    rw [maxHeight_cons]
    rcases List.mem_cons.1 hmem with rfl | hmem
    · exact Nat.le_max_left _ _
    · exact Nat.le_trans (ih hmem) (Nat.le_max_right _ _)

theorem IsPath.length_le_height {tree : Tree α} {path : List α} (h : tree.IsPath path) :
    path.length ≤ tree.height := by
  induction h with
  | leaf value => exact Nat.le_refl 1
  | node hmem _ ih =>
    have hchild := height_le_maxHeight hmem
    rw [height_node, List.length_cons]
    omega

/-! ## Walks -/

/-- A walk that calls itself for some of the nodes below and combines what they give, with only so
many calls at a time. -/
def walkWithin (next : Tree α → List (Tree α)) (combine : Tree α → List β → β) :
    Nat → Tree α → Option β
  | 0, _ => none
  | calls + 1, tree => ((next tree).mapM (walkWithin next combine calls)).map (combine tree)

-- Results that are there for each element are there for the list.
theorem mapM_eq_some {f : Tree α → Option β} {g : Tree α → β} {trees : List (Tree α)}
    (h : ∀ tree ∈ trees, f tree = some (g tree)) : trees.mapM f = some (trees.map g) := by
  induction trees with
  | nil => rfl
  | cons tree trees ih =>
    rw [List.mapM_cons, h tree List.mem_cons_self,
      ih fun other hmem => h other (List.mem_cons_of_mem _ hmem)]
    rfl

/-- A walk that goes to the children only comes to its end with as many calls at a time as the tree
is tall. -/
theorem walkWithin_eq_some {next : Tree α → List (Tree α)} {combine : Tree α → List β → β}
    {walk : Tree α → β} (hnext : ∀ tree, next tree ⊆ tree.children)
    (hwalk : ∀ tree, walk tree = combine tree ((next tree).map walk)) {calls : Nat} {tree : Tree α}
    (h : tree.height ≤ calls) : walkWithin next combine calls tree = some (walk tree) := by
  induction calls generalizing tree with
  | zero =>
    obtain ⟨value, children⟩ := tree
    rw [height_node] at h
    omega
  | succ calls ih =>
    have hbelow : ∀ child ∈ next tree,
        walkWithin next combine calls child = some (walk child) := by
      intro child hmem
      obtain ⟨value, children⟩ := tree
      have hchild : child.height ≤ maxHeight children := height_le_maxHeight (hnext _ hmem)
      rw [height_node] at h
      exact ih (by omega)
    rw [walkWithin, mapM_eq_some hbelow, hwalk tree]
    rfl

/-- Counting the nodes with only so many calls at a time. -/
def sizeWithin : Nat → Tree α → Option Nat :=
  walkWithin children fun _ sizes => 1 + total sizes

/-- Listing the values from the root down with only so many calls at a time. -/
def preorderWithin : Nat → Tree α → Option (Nat → List (Nat × α)) :=
  walkWithin children fun tree listings level =>
    (level, tree.value) :: listings.flatMap fun listing => listing (level + 1)

theorem sizeWithin_eq_some {calls : Nat} {tree : Tree α} (h : tree.height ≤ calls) :
    sizeWithin calls tree = some tree.size := by
  refine walkWithin_eq_some (fun _ => List.Subset.refl _) (fun tree => ?_) h
  obtain ⟨value, children⟩ := tree
  exact size_node value children

theorem preorderWithin_eq_some {calls : Nat} {tree : Tree α} (h : tree.height ≤ calls) :
    preorderWithin calls tree = some tree.preorder := by
  refine walkWithin_eq_some (fun _ => List.Subset.refl _) (fun tree => ?_) h
  obtain ⟨value, children⟩ := tree
  exact fold_node ..

end Tree

namespace Lowering

/-- The trees below that the lowering of a statement calls itself for. -/
def substatements (tree : ParseTree) : List ParseTree :=
  match tree.value with
  | .rule rule => if rule.holdsStatements then tree.children else []
  | .terminal _ => []

/-- What lowering a statement does by itself, given the steps of the trees below. -/
def stepOf (tree : ParseTree) (steps : List Step) : Step :=
  match tree with
  | .node (.terminal _) _ => done
  | .node (.rule rule) children =>
      if rule.holdsStatements then steps.foldr andThen done
      else
        match rule, children with
        | .assignment, [name, _, value, _] => store name value
        | .assignment, children => failAt (.ofRule .assignment children)
        | .variableDeclaration, children =>
            initializers (.ofRule .variableDeclaration children) none children
        | _, _ => done

/-- Lowering a statement with only so many calls at a time. -/
def statementWithin : Nat → ParseTree → Option Step :=
  Tree.walkWithin substatements stepOf

theorem statements_eq_foldr (trees : List ParseTree) :
    statements trees = (trees.map statement).foldr andThen done := by
  induction trees with
  | nil => rw [statements, List.map_nil, List.foldr_nil]
  | cons tree trees ih => rw [statements, List.map_cons, List.foldr_cons, ih]

theorem statement_eq_stepOf (tree : ParseTree) :
    statement tree = stepOf tree ((substatements tree).map statement) := by
  obtain ⟨label, children⟩ := tree
  cases label with
  | terminal text =>
    rw [statement]
    rfl
  | rule rule =>
    have hbelow : substatements (.node (.rule rule) children) =
        if rule.holdsStatements then children else [] := rfl
    rw [hbelow]
    unfold statement stepOf
    dsimp only
    by_cases hrule : rule.holdsStatements = true
    · rw [if_pos hrule, if_pos hrule, if_pos hrule, statements_eq_foldr]
    · exact (if_neg hrule).trans (if_neg hrule).symm

theorem statementWithin_eq_some {calls : Nat} {tree : ParseTree} (h : tree.height ≤ calls) :
    statementWithin calls tree = some (statement tree) := by
  refine Tree.walkWithin_eq_some (fun tree => ?_) statement_eq_stepOf h
  unfold substatements
  split
  · split
    · exact List.Subset.refl _
    · exact List.nil_subset _
  · exact List.nil_subset _

end Lowering

/-! ## Height and nesting -/

namespace Rule

/-- How tall the node of a rule may be without any level of nesting below it. -/
def allowance : Rule → Nat
  | .factor => 2
  | .term => 3
  | .expression | .statement => 4
  | .callStatement => 6
  | _ => 5

end Rule

namespace Ebnf

/-- How tall the trees of a form may be without any level of nesting in them. -/
def allowance : Ebnf → Nat
  | .never | .empty => 0
  | .word _ _ | .ofKind _ => 1
  | .rule name => name.allowance
  | .seq first second | .either first second => max first.allowance second.allowance
  | .many body => body.allowance

end Ebnf

namespace Grammar.Derives

open ParseTree ThreeAddress.Tree

variable {form : Ebnf} {tokens : List Token} {trees : List ParseTree}

theorem maxHeight_ofRule_le {rule : Rule} (h : Derives (production rule) tokens trees)
    (hle : maxHeight trees ≤ 3 * nestings trees + (production rule).allowance) :
    maxHeight [ofRule rule trees] ≤ 3 * nestings [ofRule rule trees] + rule.allowance := by
  rw [maxHeight_cons, nestings_cons, maxHeight_nil, nestings_nil, Nat.max_zero, Nat.max_zero,
    nesting_ofRule, ofRule, height_node]
  by_cases hstatement : rule = .statement
  · subst hstatement
    have hallowance : (production .statement).allowance = 6 := by decide
    rw [hallowance] at hle
    show 1 + maxHeight trees ≤ 3 * (1 + nestings trees) + 4
    omega
  · by_cases hfactor : rule = .factor
    · subst hfactor
      rcases h.of_factor with ⟨token, -, -, rfl⟩ | ⟨part, inner, -, -, rfl⟩
      · show 1 + 1 ≤ 3 * (0 + 0) + 2
        omega
      · have hallowance : (production .factor).allowance = 4 := by decide
        rw [hallowance] at hle
        show 1 + maxHeight _ ≤ 3 * (1 + nestings _) + 2
        omega
    · -- no other rule opens a level
      have hallowance : (production rule).allowance + 1 ≤ rule.allowance := by
        revert hstatement hfactor
        cases rule <;> decide
      split <;> omega

/-- A level of nesting makes the trees of a derivation three nodes taller at most. -/
theorem maxHeight_le (h : Derives form tokens trees) :
    maxHeight trees ≤ 3 * nestings trees + form.allowance := by
  induction h with
  | empty | nil => exact Nat.zero_le _
  | word kind text | ofKind kind text =>
    show 1 ≤ 3 * 0 + 1
    omega
  | @rule rule _ children hbody ih =>
    exact maxHeight_ofRule_le hbody ih
  | left _ ih | right _ ih =>
    rw [Ebnf.allowance]
    omega
  | seq _ _ ihfront ihback =>
    rw [maxHeight_append, nestings_append, Ebnf.allowance]
    omega
  | cons _ _ ihfront ihback =>
    rw [Ebnf.allowance] at ihback ⊢
    rw [maxHeight_append, nestings_append]
    omega

end Grammar.Derives

/-! ## Groups in groups -/

namespace ParseTree

open Grammar ThreeAddress.Tree

/-- An operand with the given number of parentheses around it. -/
def groupTokens : Nat → List Token
  | 0 => [⟨.identifier, "a"⟩]
  | count + 1 => ⟨.symbol, "("⟩ :: (groupTokens count ++ [⟨.symbol, ")"⟩])

/-- The three nodes over the children of a factor. -/
def ofFactor (children : List ParseTree) : ParseTree :=
  ofRule .expression [ofRule .term [ofRule .factor children]]

def groupTree : Nat → ParseTree
  | 0 => ofFactor [terminal "a"]
  | count + 1 => ofFactor [terminal "(", groupTree count, terminal ")"]

/-- The labels of the given number of groups inside each other. -/
def groupLabels (count : Nat) : List Label :=
  (List.replicate count [.rule .expression, .rule .term, .rule .factor]).flatten

theorem derives_ofFactor {tokens : List Token} {children : List ParseTree}
    (h : Derives (production .factor) tokens children) :
    Derives (.rule .expression) tokens [ofFactor children] := by
  have hterm : Derives (.rule .term) (tokens ++ []) [ofRule .term [ofRule .factor children]] :=
    .rule (.seq (.rule h) .nil)
  have hexpression : Derives (.rule .expression) (tokens ++ [] ++ []) [ofFactor children] :=
    .rule (.seq hterm .nil)
  rwa [List.append_nil, List.append_nil] at hexpression

theorem isPath_ofFactor {children : List ParseTree} {child : ParseTree} {path : List Label}
    (hmem : child ∈ children) (h : child.IsPath path) :
    (ofFactor children).IsPath (.rule .expression :: .rule .term :: .rule .factor :: path) :=
  .node (List.mem_singleton_self _) (.node (List.mem_singleton_self _) (.node hmem h))

theorem derives_groupTree (count : Nat) :
    Derives (.rule .expression) (groupTokens count) [groupTree count] := by
  induction count with
  | zero => exact derives_ofFactor (.right (.left (.ofKind .identifier "a")))
  | succ count ih =>
    exact derives_ofFactor (.right (.right (.right
      (.seq (.word .symbol "(") (.seq ih (.word .symbol ")"))))))

theorem nesting_ofFactor (children : List ParseTree) :
    nesting (ofFactor children) = (if children.length = 3 then 1 else 0) + nestings children := by
  simp [ofFactor, nesting_ofRule, opensLevel]

theorem nesting_groupTree (count : Nat) : nesting (groupTree count) = count := by
  induction count with
  | zero =>
    rw [groupTree, nesting_ofFactor]
    rfl
  | succ count ih =>
    have hthree : [terminal "(", groupTree count, terminal ")"].length = 3 := rfl
    rw [groupTree, nesting_ofFactor, if_pos hthree, nestings_cons, nestings_cons, nestings_cons,
      nestings_nil, nesting_terminal, nesting_terminal, ih]
    omega

theorem isPath_groupTree (count : Nat) :
    (groupTree count).IsPath (groupLabels (count + 1) ++ [.terminal "a"]) := by
  induction count with
  | zero => exact isPath_ofFactor (List.mem_singleton_self _) (.leaf _)
  | succ count ih =>
    rw [groupLabels, List.replicate_succ, List.flatten_cons, List.append_assoc]
    exact isPath_ofFactor (by simp) ih

/-- A call with an operand in groups as its argument. -/
def callTokens (count : Nat) : List Token :=
  ⟨.identifier, "f"⟩ :: ⟨.symbol, "("⟩ :: (groupTokens count ++ [⟨.symbol, ")"⟩, ⟨.symbol, ";"⟩])

def callTree (count : Nat) : ParseTree :=
  ofRule .root [ofRule .statement [ofRule .callStatement [terminal "f",
    ofRule .functionCall [terminal "(", groupTree count, terminal ")"], terminal ";"]]]

theorem isProgram_callTree (count : Nat) : IsProgram (callTokens count) (callTree count) := by
  have harguments : Derives (production .functionCall) _ [terminal "(", groupTree count,
      terminal ")"] :=
    .seq (.word .symbol "(") (.seq (.left (.seq (derives_groupTree count) .nil))
      (.word .symbol ")"))
  have hcall : Derives (.rule .callStatement) _ [ofRule .callStatement [terminal "f",
      ofRule .functionCall [terminal "(", groupTree count, terminal ")"], terminal ";"]] :=
    .rule (.seq (.ofKind .identifier "f") (.seq (.rule harguments) (.word .symbol ";")))
  have hstatement : Derives (production .statement) _ _ := .oneOf (by decide) hcall
  have hroot : Derives (production .root) _ _ := .cons (.rule hstatement) .nil
  have hprogram := Derives.rule hroot
  unfold IsProgram callTree callTokens
  simpa using hprogram

theorem nesting_callTree (count : Nat) : nesting (callTree count) = count + 1 := by
  rw [Nat.add_comm count]
  simp [callTree, nesting_ofRule, nesting_groupTree, opensLevel]

/-- The way down to the operand of such a call. -/
theorem isPath_callTree (count : Nat) :
    (callTree count).IsPath ([.rule .root, .rule .statement, .rule .callStatement,
      .rule .functionCall] ++ groupLabels (count + 1) ++ [.terminal "a"]) := by
  rw [List.append_assoc]
  exact .node (List.mem_singleton_self _) (.node (List.mem_singleton_self _)
    (.node (List.mem_cons_of_mem _ List.mem_cons_self)
      (.node (List.mem_cons_of_mem _ List.mem_cons_self) (isPath_groupTree count))))

theorem length_groupLabels (count : Nat) : (groupLabels count).length = 3 * count := by
  unfold groupLabels
  induction count with
  | zero => rfl
  | succ count ih =>
    rw [List.replicate_succ, List.flatten_cons, List.length_append, ih, List.length_cons,
      List.length_cons, List.length_singleton]
    omega

theorem height_le_of_ofTokens? {tokens : List Token} {tree : ParseTree}
    (h : ofTokens? tokens = .ok tree) : tree.height ≤ 389 := by
  obtain ⟨hprogram, hnesting⟩ := ofTokens?_eq_ok_iff.1 h
  have hle : maxHeight [tree] ≤ 3 * nestings [tree] + 5 := Derives.maxHeight_le hprogram
  have hlimit : nesting tree ≤ 128 := hnesting
  rw [maxHeight_cons, maxHeight_nil, nestings_cons, nestings_nil] at hle
  omega

/-- On every way down from the root of a program there are 389 nodes at most, so walks that call
themselves for the nodes below come to their end with 389 calls at a time. The way down to an
operand in 127 groups, in the argument of a call, is as long as that. -/
theorem height_of_ofTokens? :
    (∀ tokens tree, ofTokens? tokens = .ok tree →
      (∀ path, tree.IsPath path → path.length ≤ 389) ∧
        tree.sizeWithin 389 = some tree.size ∧ tree.preorderWithin 389 = some tree.preorder ∧
        Lowering.statementWithin 389 tree = some (Lowering.statement tree)) ∧
      ∃ tokens tree path, ofTokens? tokens = .ok tree ∧ tree.IsPath path ∧ path.length = 389 ∧
        path = [.rule .root, .rule .statement, .rule .callStatement, .rule .functionCall] ++
          groupLabels 128 ++ [.terminal "a"] := by
  constructor
  · intro tokens tree h
    have hheight := height_le_of_ofTokens? h
    refine ⟨fun path hpath => ?_, sizeWithin_eq_some hheight, preorderWithin_eq_some hheight,
      Lowering.statementWithin_eq_some hheight⟩
    exact Nat.le_trans hpath.length_le_height hheight
  · have hnesting : nesting (callTree 127) ≤ nestingLimit := Nat.le_of_eq (nesting_callTree 127)
    refine ⟨_, _, _, ofTokens?_eq_ok_iff.2 ⟨isProgram_callTree 127, hnesting⟩, isPath_callTree 127,
      ?_, rfl⟩
    rw [List.length_append, List.length_append, length_groupLabels]
    rfl

theorem height_of_ofTokens?_nested :
    ∃ tree,
      ofTokens? (Token.scan "while (a) \x7b f((b + c) * d); int x = (2), y; \x7d") = .ok tree ∧
      (∀ path, tree.IsPath path → path.length ≤ 389) ∧
        tree.sizeWithin 389 = some tree.size ∧ tree.preorderWithin 389 = some tree.preorder ∧
        Lowering.statementWithin 389 tree = some (Lowering.statement tree) := by
  have hok : (ofTokens? (Token.scan "while (a) \x7b f((b + c) * d); int x = (2), y; \x7d")).isOk =
      true := by
    decide +kernel
  match htree : ofTokens? _, hok with
  | .ok tree, _ => exact ⟨tree, rfl, height_of_ofTokens?.1 _ tree htree⟩

end ParseTree

end ThreeAddress
