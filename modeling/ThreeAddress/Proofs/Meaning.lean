import ThreeAddress.Lowering.Program
import ThreeAddress.Proofs.Trees
import ThreeAddress.Proofs.Walk

/-!
# What parse trees mean

An expression or a term is the fold of its operands from left to right, a group means what is inside
it, and any other factor is looked up by its text. A program sets names to values, one assignment or
initial value after the other, in the order in which they stand.

The meaning of an expression tree can be taken in any domain. In the domain of expressions it is the
expression whose code the lowering emits; in the domain of values it is that expression's value.
-/

namespace ThreeAddress

open Equation

universe u v

namespace ParseTree

section Meaning

variable {α : Type u} (operand : String → α) (combine : Operator → α → α → α)

mutual

/-- What an expression, a term or a factor means, if it has the form that it should have. -/
@[simp]
def meaning? : ParseTree → Option α
  | .node (.rule .factor) [.node (.terminal text) []] => some (operand text)
  | .node (.rule .factor) [.node (.terminal opening) [], inner, .node (.terminal closing) []] =>
      if opening = "(" ∧ closing = ")" then meaning? inner else none
  | .node (.rule .expression) (first :: rest) =>
      (meaning? first).bind fun left => chain? left rest
  | .node (.rule .term) (first :: rest) =>
      (meaning? first).bind fun left => chain? left rest
  | _ => none

/-- Combines a meaning with those of the operands that follow, from left to right. -/
@[simp]
def chain? (left : α) : List ParseTree → Option α
  | [] => some left
  | .node (.terminal symbol) [] :: next :: rest =>
      match Operator.ofText? symbol with
      | none => none
      | some op =>
          if op.isArithmetic then
            (meaning? next).bind fun right => chain? (combine op left right) rest
          else none
  | _ => none

end

end Meaning

/-- The expression that a parse tree stands for. -/
def expr? : ParseTree → Option Expr :=
  meaning? .operand .binary

/-- The value of a parse tree of an expression. -/
def value? {V : Type u} (interpret : Operator → V → V → V) (env : Environment V) :
    ParseTree → Option V :=
  meaning? env interpret

-- A map between domains that respects operands and operators respects meanings.
theorem map_meaning? {α : Type v} {β : Type u} {operand : String → α}
    {combine : Operator → α → α → α} {operand' : String → β} {combine' : Operator → β → β → β}
    (f : α → β) (hoperand : ∀ text, f (operand text) = operand' text)
    (hcombine : ∀ op left right, f (combine op left right) = combine' op (f left) (f right))
    (tree : ParseTree) :
    (meaning? operand combine tree).map f = meaning? operand' combine' tree := by
  -- the cases of the two functions, and in each of them both sides take the same branch
  refine (meaning?.mutual_induct combine
    (fun tree => (meaning? operand combine tree).map f = meaning? operand' combine' tree)
    (fun left rest =>
      (chain? operand combine left rest).map f = chain? operand' combine' (f left) rest)
    ?leaf ?group ?unclosed ?expression ?term ?other ?nil ?unknown ?step ?assign ?odd).1 tree
  case leaf =>
    intro text
    rw [meaning?, meaning?, Option.map_some, hoperand]
  case group =>
    intro opening inner closing hmarks ih
    rw [meaning?, meaning?, if_pos hmarks, if_pos hmarks, ih]
  case unclosed =>
    intro opening inner closing hmarks
    rw [meaning?, meaning?, if_neg hmarks, if_neg hmarks, Option.map_none]
  case expression =>
    intro first rest ihfirst ihrest
    rw [meaning?, meaning?, ← ihfirst, Option.map_bind, Option.bind_map]
    exact congrArg _ (funext ihrest)
  case term =>
    intro first rest ihfirst ihrest
    rw [meaning?, meaning?, ← ihfirst, Option.map_bind, Option.bind_map]
    exact congrArg _ (funext ihrest)
  case other =>
    intro tree hleaf hgroup hexpression hterm
    rw [meaning?, meaning?, Option.map_none] <;> assumption
  case nil =>
    intro left
    rw [chain?, chain?, Option.map_some]
  case unknown =>
    intro left symbol next rest hsymbol
    rw [chain?, chain?, hsymbol, Option.map_none]
  case step =>
    intro left symbol next rest op hsymbol harith ihnext ihrest
    rw [chain?, chain?, hsymbol]
    dsimp only
    rw [if_pos harith, if_pos harith, ← ihnext, Option.map_bind, Option.bind_map]
    refine congrArg _ (funext fun right => ?_)
    show (chain? operand combine (combine op left right) rest).map f = _
    rw [ihrest, hcombine]
    rfl
  case assign =>
    intro left symbol next rest op hsymbol harith
    rw [chain?, chain?, hsymbol]
    dsimp only
    rw [if_neg harith, if_neg harith, Option.map_none]
  case odd =>
    intro rest left hnil hcons
    rw [chain?, chain?, Option.map_none] <;> assumption

-- The value of a tree is the value of the expression it stands for.
theorem value?_eq {V : Type u} (interpret : Operator → V → V → V) (env : Environment V)
    (tree : ParseTree) : tree.value? interpret env = tree.expr?.map (Expr.value interpret env) :=
  Eq.symm (map_meaning? (Expr.value interpret env) (fun _ => rfl) (fun _ _ _ => rfl) tree)

theorem expr?_operand (text : String) :
    expr? (ofRule .factor [terminal text]) = some (.operand text) :=
  meaning?.eq_1 ..

theorem expr?_group (inner : ParseTree) :
    expr? (ofRule .factor [terminal "(", inner, terminal ")"]) = expr? inner := by
  unfold expr?
  show meaning? _ _ (.node (.rule .factor) [.node _ [], inner, .node _ []]) = _
  rw [meaning?, if_pos ⟨rfl, rfl⟩]

theorem expr?_expression (first : ParseTree) (rest : List ParseTree) :
    expr? (ofRule .expression (first :: rest)) =
      (expr? first).bind fun left => chain? .operand .binary left rest :=
  meaning?.eq_3 ..

theorem expr?_term (first : ParseTree) (rest : List ParseTree) :
    expr? (ofRule .term (first :: rest)) =
      (expr? first).bind fun left => chain? .operand .binary left rest :=
  meaning?.eq_4 ..

theorem chain?_cons {op : Operator} (harith : op.isArithmetic = true) {next : ParseTree}
    {right : Expr} (hnext : next.expr? = some right) (left : Expr) (rest : List ParseTree) :
    chain? .operand .binary left (terminal op.symbol :: next :: rest) =
      chain? .operand .binary (.binary op left right) rest := by
  show chain? .operand .binary left (.node (.terminal op.symbol) [] :: next :: rest) = _
  rw [chain?, Operator.ofText?_symbol]
  dsimp only
  rw [if_pos harith, show meaning? _ _ next = some right from hnext, Option.bind_some]

-- A tree that stands for an expression is an inner node.
theorem isLeaf_of_expr? {tree : ParseTree} {expr : Expr} (h : tree.expr? = some expr) :
    tree.isLeaf = false := by
  obtain ⟨label, children⟩ := tree
  cases children with
  | nil => simp [expr?, meaning?] at h
  | cons child children => rfl

/-- Induction over the trees that stand for expressions, along with the chains in them. -/
theorem expr?_induction (motive : ParseTree → Expr → Prop)
    (run : Expr → List ParseTree → Expr → Prop)
    (leaf : ∀ text, motive (ofRule .factor [terminal text]) (.operand text))
    (group : ∀ inner expr, motive inner expr →
      motive (ofRule .factor [terminal "(", inner, terminal ")"]) expr)
    (chain : ∀ rule first rest left expr, expr? first = some left → motive first left →
      run left rest expr → motive (ofRule rule (first :: rest)) expr)
    (nil : ∀ left, run left [] left)
    (step : ∀ symbol op left next right rest expr, Operator.ofText? symbol = some op →
      op.isArithmetic = true → motive next right → run (.binary op left right) rest expr →
      run left (terminal symbol :: next :: rest) expr)
    {tree : ParseTree} {expr : Expr} (h : tree.expr? = some expr) : motive tree expr := by
  revert expr
  -- the cases without a meaning are void, the others are those of the claim
  refine (meaning?.mutual_induct Expr.binary
    (fun tree => ∀ {expr : Expr}, tree.expr? = some expr → motive tree expr)
    (fun left rest => ∀ {expr : Expr}, chain? .operand .binary left rest = some expr →
      run left rest expr)
    ?leaf ?group ?unclosed ?expression ?term ?other ?nil ?unknown ?step ?assign ?odd).1 tree
  case leaf =>
    intro text expr hexpr
    rw [expr?, meaning?, Option.some.injEq] at hexpr
    subst hexpr
    exact leaf text
  case group =>
    intro opening inner closing hmarks ih expr hexpr
    rw [expr?, meaning?, if_pos hmarks] at hexpr
    obtain ⟨rfl, rfl⟩ := hmarks
    exact group inner expr (ih hexpr)
  case unclosed =>
    intro opening inner closing hmarks expr hexpr
    rw [expr?, meaning?, if_neg hmarks] at hexpr
    cases hexpr
  case expression =>
    intro first rest ihfirst ihrest expr hexpr
    rw [expr?, meaning?] at hexpr
    obtain ⟨left, hleft, hrest⟩ := Option.bind_eq_some_iff.1 hexpr
    exact chain .expression first rest left expr hleft (ihfirst hleft) (ihrest left hrest)
  case term =>
    intro first rest ihfirst ihrest expr hexpr
    rw [expr?, meaning?] at hexpr
    obtain ⟨left, hleft, hrest⟩ := Option.bind_eq_some_iff.1 hexpr
    exact chain .term first rest left expr hleft (ihfirst hleft) (ihrest left hrest)
  case other =>
    intro tree hleaf hgroup hexpression hterm expr hexpr
    rw [expr?, meaning?] at hexpr
    · cases hexpr
    all_goals assumption
  case nil =>
    intro left expr hexpr
    rw [chain?, Option.some.injEq] at hexpr
    subst hexpr
    exact nil left
  case unknown =>
    intro left symbol next rest hsymbol expr hexpr
    rw [chain?, hsymbol] at hexpr
    cases hexpr
  case step =>
    intro left symbol next rest op hsymbol harith ihnext ihrest expr hexpr
    rw [chain?, hsymbol] at hexpr
    dsimp only at hexpr
    rw [if_pos harith] at hexpr
    obtain ⟨right, hright, hrest⟩ := Option.bind_eq_some_iff.1 hexpr
    exact step symbol op left next right rest expr hsymbol harith (ihnext hright)
      (ihrest right hrest)
  case assign =>
    intro left symbol next rest op hsymbol harith expr hexpr
    rw [chain?, hsymbol] at hexpr
    dsimp only at hexpr
    rw [if_neg harith] at hexpr
    cases hexpr
  case odd =>
    intro rest left hnil hcons expr hexpr
    rw [chain?] at hexpr
    · cases hexpr
    all_goals assumption

/-- No rule and no token in the tree has the name of a temporary. -/
def AvoidsTemporaries : ParseTree → Prop :=
  Tree.All fun label => isTemporaryName label.text = false

/-- A tree without the names of temporaries stands for an expression without them. -/
theorem isPure_of_expr? {tree : ParseTree} {expr : Expr} (h : tree.expr? = some expr)
    (hnames : tree.AvoidsTemporaries) : expr.isPure = true := by
  revert hnames
  -- a chain keeps what it starts from pure
  refine expr?_induction
    (fun tree expr => tree.AvoidsTemporaries → expr.isPure = true)
    (fun left rest expr => (∀ child ∈ rest, AvoidsTemporaries child) → left.isPure = true →
      expr.isPure = true)
    ?leaf ?group ?chain ?nil ?step h
  case leaf =>
    intro text hnames
    have htext := (hnames.child (List.mem_singleton_self _)).value
    change isTemporaryName text = false at htext
    rw [Expr.isPure, htext]
    rfl
  case group =>
    intro inner expr ih hnames
    exact ih (hnames.child (List.mem_cons_of_mem _ List.mem_cons_self))
  case chain =>
    intro rule first rest left expr _ ihfirst ihrest hnames
    exact ihrest (fun child hmem => hnames.child (List.mem_cons_of_mem _ hmem))
      (ihfirst (hnames.child List.mem_cons_self))
  case nil =>
    intro left _ hleft
    exact hleft
  case step =>
    intro symbol op left next right rest expr _ harith ihnext ihrest hnames hleft
    have hright := ihnext (hnames next (List.mem_cons_of_mem _ List.mem_cons_self))
    refine ihrest (fun child hmem => ?_) ?_
    · exact hnames child (List.mem_cons_of_mem _ (List.mem_cons_of_mem _ hmem))
    · rw [Expr.isPure, harith, hleft, hright]
      rfl

end ParseTree

-- No rule has the name of an operator, so its node is never taken for an operation.
theorem Operator.ofText?_name (rule : Rule) : Operator.ofText? rule.name = none := by
  cases rule <;> rfl

namespace Lowering

-- An inner node in front of operations is no opening parenthesis.
theorem plainForm?_of_operations? {first : Tree String} {rest : List (Tree String)}
    {operations : List Operation} (hfirst : first.isLeaf = false)
    (h : operations? rest = some operations) :
    plainForm? (first :: rest) = some (first, operations) := by
  match rest with
  | [] =>
    cases h
    rfl
  | [second] =>
    rw [plainForm?, h, Option.map_some] <;> simp
  | [inner, last] =>
    -- three children could be a group, but an inner node is no parenthesis
    have hparen : isLeafOf "(" first = false := by
      obtain ⟨value, children⟩ := first
      change children.isEmpty = false at hfirst
      rw [isLeafOf, hfirst, Bool.false_and]
    rw [plainForm?, hparen, Bool.false_and, if_neg Bool.false_ne_true, h, Option.map_some]
  | _ :: _ :: _ :: rest =>
    rw [plainForm?, h, Option.map_some] <;> simp

end Lowering

namespace Code

open Lowering

-- The node of a rule is lowered by its plain form, as its name is no operator.
theorem lower_of_plainForm? {rule : Rule} {child first : Tree String}
    {children : List (Tree String)} {operations : List Operation}
    (h : plainForm? (child :: children) = some (first, operations)) {code later : Code}
    {name : String} (hfirst : code.lower first = (.ok name, later)) :
    code.lower (.node rule.name (child :: children)) = applyAll later name operations := by
  have hform : form? (.node rule.name (child :: children)) = some (first, operations) := by
    rw [form?, Operator.ofText?_name, h]
  rw [lower_of_form? hform, hfirst]

end Code

namespace ParseTree

open Lowering

/-- A tree that stands for an expression gives the code that computes the expression. -/
theorem lower_of_expr? {tree : ParseTree} {expr : Expr} (h : tree.expr? = some expr)
    (code : Code) :
    code.lower (tree.map Label.text) = (.ok (code.compute expr).1, (code.compute expr).2) := by
  revert code
  -- a chain gives operations, and they continue the code of what it starts from
  refine expr?_induction
    (fun tree expr => ∀ code : Code,
      code.lower (tree.map Label.text) = (.ok (code.compute expr).1, (code.compute expr).2))
    (fun left rest expr =>
      ∃ operations, operations? (rest.map (Tree.map Label.text)) = some operations ∧
        ∀ code : Code, applyAll (code.compute left).2 (code.compute left).1 operations =
          (.ok (code.compute expr).1, (code.compute expr).2))
    ?leaf ?group ?chain ?nil ?step h
  case leaf =>
    intro text code
    have hform : plainForm? [.node text []] = some (.node text [], []) := rfl
    show code.lower (.node (Rule.name .factor) [.node text []]) = applyAll code text []
    exact Code.lower_of_plainForm? hform (Code.lower_leaf code text)
  case group =>
    intro inner expr ih code
    have hform : plainForm? [.leaf "(", inner.map Label.text, .leaf ")"] =
        some (inner.map Label.text, []) := rfl
    show code.lower (.node (Rule.name .factor) [.leaf "(", inner.map Label.text, .leaf ")"]) =
      applyAll (code.compute expr).2 (code.compute expr).1 []
    exact Code.lower_of_plainForm? hform (ih code)
  case chain =>
    intro rule first rest left expr hleft ihfirst ihrest code
    obtain ⟨operations, hoperations, happly⟩ := ihrest
    have hinner : (first.map Label.text).isLeaf = false := by
      rw [Tree.isLeaf_map]
      exact isLeaf_of_expr? hleft
    have hform := plainForm?_of_operations? hinner hoperations
    rw [ofRule, Tree.map_node, List.map_cons]
    exact (Code.lower_of_plainForm? hform (ihfirst code)).trans (happly code)
  case nil =>
    intro left
    exact ⟨[], rfl, fun code => rfl⟩
  case step =>
    intro symbol op left next right rest expr hsymbol harith ihnext ihrest
    obtain ⟨operations, hoperations, happly⟩ := ihrest
    refine ⟨(op, next.map Label.text) :: operations, ?_, fun code => ?_⟩
    · show operations? (.node symbol [] :: next.map Label.text :: rest.map _) = _
      rw [operations?, hsymbol]
      dsimp only
      rw [if_pos harith, hoperations, Option.map_some]
    · rw [applyAll, ihnext]
      exact happly code

end ParseTree

end ThreeAddress
