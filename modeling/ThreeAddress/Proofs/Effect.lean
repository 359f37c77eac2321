import ThreeAddress.Proofs.Meaning

/-!
# What statements do

The assignments and the declarators with an initial value are executed in the order in which they
stand, whether they are in the body of a conditional or a loop or not. Each sets its name to what
its expression is worth by then. Lowering a statement emits code that does the same, as long as no
name in the statement is the name of a temporary.
-/

namespace ThreeAddress

universe u

variable {V : Type u} (interpret : Operator → V → V → V)

/-- The rules whose children are executed in order. -/
def Rule.containers : List Rule :=
  [.root, .statement, .mainStatement, .block, .ifStatement, .whileStatement, .forStatement]

theorem Rule.holdsStatements_iff (rule : Rule) :
    rule.holdsStatements = true ↔ rule ∈ Rule.containers := by
  cases rule <;> decide

namespace ParseTree

/-- Sets the name to the value that the expression has now. -/
def assign? (name value : ParseTree) (env : Environment V) : Option (Environment V) :=
  (value.value? interpret env).map fun result => Function.update env name.value.text result

/-- Executes the initial values among the children of a declaration. An equals sign has to stand
between a name and an expression. -/
def initialize? : List ParseTree → Environment V → Option (Environment V)
  | [], env => some env
  | name :: rest, env =>
      if name.value = .terminal "=" then none
      else
        match rest with
        | mark :: value :: more =>
            if mark.value = .terminal "=" then
              (assign? interpret name value env).bind fun next => initialize? more next
            else initialize? (mark :: value :: more) env
        | rest => initialize? rest env

theorem initialize?_of_ne {tree : ParseTree} {rest : List ParseTree}
    (htree : tree.value ≠ .terminal "=")
    (hrest : ∀ next ∈ rest.head?, Tree.value next ≠ .terminal "=") (env : Environment V) :
    initialize? interpret (tree :: rest) env = initialize? interpret rest env := by
  match rest with
  | [] | [_] =>
    rw [initialize?.eq_def]
    exact if_neg htree
  | mark :: value :: more =>
    rw [initialize?.eq_def]
    exact (if_neg htree).trans (if_neg (hrest mark rfl))

theorem initialize?_of_eq {name : ParseTree} (hname : name.value ≠ .terminal "=")
    (value : ParseTree) (rest : List ParseTree) (env : Environment V) :
    initialize? interpret (name :: terminal "=" :: value :: rest) env =
      (assign? interpret name value env).bind fun next => initialize? interpret rest next := by
  rw [initialize?.eq_def]
  exact (if_neg hname).trans (if_pos rfl)

mutual

/-- The environment after the assignments and initial values in a tree, in order. -/
@[simp]
def execute? : ParseTree → Environment V → Option (Environment V)
  | .node (.terminal _) _, env => some env
  | .node (.rule rule) children, env =>
      if rule ∈ Rule.containers then executeAll? children env
      else
        match rule, children with
        | .assignment, [name, _, value, _] => assign? interpret name value env
        | .assignment, _ => none
        | .variableDeclaration, children => initialize? interpret children env
        -- no other rule sets a name
        | _, _ => some env

/-- The environment after each tree of a list in turn. -/
@[simp]
def executeAll? : List ParseTree → Environment V → Option (Environment V)
  | [], env => some env
  | tree :: trees, env => (execute? tree env).bind fun next => executeAll? trees next

end

theorem execute?_of_ne {rule : Rule} (hassign : rule ≠ .assignment)
    (hdeclare : rule ≠ .variableDeclaration) (children : List ParseTree) (env : Environment V) :
    execute? interpret (.node (.rule rule) children) env =
      if rule ∈ Rule.containers then executeAll? interpret children env else some env := by
  rw [execute?] <;> simp [hassign, hdeclare]

end ParseTree

namespace Lowering

/-- The code that the step adds changes environments as told, temporaries apart. -/
def Realizes (step : Step) (change : Environment V → Option (Environment V)) : Prop :=
  ∀ code env state final, (Code.run interpret code env).Agree state → change state = some final →
    ∃ later, step code = (.ok (), later) ∧ (Code.run interpret later env).Agree final

-- A step that adds nothing leaves the environment as it is.
theorem realizes_done : Realizes interpret done some := by
  intro code env state final hagree hfinal
  cases hfinal
  exact ⟨code, rfl, hagree⟩

-- Steps in sequence make changes in sequence.
theorem Realizes.andThen {first second : Step}
    {change next : Environment V → Option (Environment V)}
    (hfirst : Realizes interpret first change) (hsecond : Realizes interpret second next) :
    Realizes interpret (andThen first second) fun env => (change env).bind next := by
  intro code env state final hagree hfinal
  obtain ⟨middle, hmiddle, hnext⟩ := Option.bind_eq_some_iff.1 hfinal
  obtain ⟨later, hlater, hagree⟩ := hfirst code env state middle hagree hmiddle
  obtain ⟨last, hlast, hagree⟩ := hsecond later env middle final hagree hnext
  refine ⟨last, ?_, hagree⟩
  rw [Lowering.andThen, hlater]
  exact hlast

-- A stored expression is computed from the names as they are and then copied to its name.
theorem realizes_store {name value : ParseTree} (hvalue : value.AvoidsTemporaries) :
    Realizes interpret (store name value) (ParseTree.assign? interpret name value) := by
  intro code env state final hagree hfinal
  rw [ParseTree.assign?, ParseTree.value?_eq, Option.map_map] at hfinal
  obtain ⟨expr, hexpr, rfl⟩ := Option.map_eq_some_iff.1 hfinal
  have hpure := ParseTree.isPure_of_expr? hexpr hvalue
  have hcompute := Code.compute_computes interpret env hpure code
  have hstore : store name value code =
      (.ok (), (code.compute expr).2.copy name.value.text (code.compute expr).1) := by
    rw [store, ParseTree.lower_of_expr? hexpr]
  refine ⟨_, hstore, fun other hother => ?_⟩
  rw [Code.run_copy, Function.comp_apply]
  by_cases heq : other = name.value.text
  · -- the expression sees the environment as it was before the temporaries
    rw [heq, Function.update_self, Function.update_self, hcompute.value]
    exact Equation.Expr.value_congr interpret hagree hpure
  · rw [Function.update_of_ne heq, Function.update_of_ne heq,
      hcompute.keeps other (Code.settled_of_not_temporary code hother)]
    exact hagree other hother

theorem initializers_of_ne {child : ParseTree} (h : child.value ≠ .terminal "=")
    (declaration : ParseTree) (before : Option ParseTree) (rest : List ParseTree) :
    initializers declaration before (child :: rest) =
      initializers declaration (some child) rest := by
  rw [initializers.eq_def]
  exact if_neg h

theorem initializers_of_eq {mark : ParseTree} (h : mark.value = .terminal "=")
    (declaration name value : ParseTree) (rest : List ParseTree) :
    initializers declaration (some name) (mark :: value :: rest) =
      andThen (store name value) (initializers declaration (some mark) (value :: rest)) := by
  rw [initializers.eq_def]
  exact if_pos h

-- The initial values of a declaration are stored one after the other.
theorem realizes_initializers (declaration : ParseTree) (before : Option ParseTree)
    {children : List ParseTree} (hnames : ∀ child ∈ children, ParseTree.AvoidsTemporaries child) :
    Realizes interpret (initializers declaration before children)
      (ParseTree.initialize? interpret children) := by
  intro code env state final hagree hfinal
  fun_induction ParseTree.initialize? interpret children state generalizing before code with
  | case1 =>
    cases hfinal
    exact ⟨code, rfl, hagree⟩
  | case2 => cases hfinal
  | case3 name state hname mark value more hmark ih =>
    obtain ⟨middle, hmiddle, hmore⟩ := Option.bind_eq_some_iff.1 hfinal
    have hvalue := hnames value (by simp)
    obtain ⟨later, hlater, hagree⟩ :=
      realizes_store interpret hvalue code env state middle hagree hmiddle
    -- the value is no equals sign itself, so the walk over the children skips it
    have hinner : value.value ≠ .terminal "=" := by
      obtain ⟨expr, hexpr, -⟩ := Option.map_eq_some_iff.1 hmiddle
      obtain ⟨label, children⟩ := value
      rintro rfl
      simp [ParseTree.value?, ParseTree.meaning?] at hexpr
    obtain ⟨last, hlast, hagree⟩ :=
      ih middle (some value) (fun child hmem => hnames child (by simp [hmem])) later hagree hmore
    refine ⟨last, ?_, hagree⟩
    rw [initializers_of_ne hname, initializers_of_eq hmark, initializers_of_ne hinner, andThen,
      hlater]
    exact hlast
  | case4 name state hname mark value more hmark ih =>
    rw [initializers_of_ne hname]
    exact ih (some name) (fun child hmem => hnames child (List.mem_cons_of_mem _ hmem)) code
      hagree hfinal
  | case5 name state hname rest hrest ih =>
    rw [initializers_of_ne hname]
    exact ih (some name) (fun child hmem => hnames child (List.mem_cons_of_mem _ hmem)) code
      hagree hfinal

-- A statement that sets no name itself is lowered child by child or not at all.
theorem statement_of_ne {rule : Rule} (hassign : rule ≠ .assignment)
    (hdeclare : rule ≠ .variableDeclaration) (children : List ParseTree) :
    statement (.node (.rule rule) children) =
      if rule ∈ Rule.containers then statements children else done := by
  rw [statement]
  · simp only [Rule.holdsStatements_iff]
  all_goals simp [hassign, hdeclare]

mutual

/-- Lowering a statement does what the statement does. -/
theorem realizes_statement (tree : ParseTree) (hnames : tree.AvoidsTemporaries) :
    Realizes interpret (statement tree) (tree.execute? interpret) := by
  match tree with
  | .node (.terminal text) children =>
    intro code env state final hagree hfinal
    rw [ParseTree.execute?] at hfinal
    rw [statement]
    exact realizes_done interpret code env state final hagree hfinal
  | .node (.rule rule) children =>
    intro code env state final hagree hfinal
    have hchildren : ∀ child ∈ children, ParseTree.AvoidsTemporaries child :=
      fun child hmem => hnames.child hmem
    by_cases hassign : rule = .assignment
    · -- with any other number of children an assignment has no outcome
      subst hassign
      match children with
      | [name, sign, value, mark] =>
        exact realizes_store interpret (hchildren value (by simp)) code env state final hagree
          hfinal
      | [] | [_] | [_, _] | [_, _, _] | _ :: _ :: _ :: _ :: _ :: _ => cases hfinal
    · by_cases hdeclare : rule = .variableDeclaration
      · subst hdeclare
        exact realizes_initializers interpret _ none hchildren code env state final hagree hfinal
      · rw [ParseTree.execute?_of_ne interpret hassign hdeclare] at hfinal
        rw [statement_of_ne hassign hdeclare]
        by_cases hrule : rule ∈ Rule.containers
        · rw [if_pos hrule] at hfinal
          rw [if_pos hrule]
          exact realizes_statements children hchildren code env state final hagree hfinal
        · rw [if_neg hrule] at hfinal
          rw [if_neg hrule]
          exact realizes_done interpret code env state final hagree hfinal

-- Lowering statements one after the other does what they do.
theorem realizes_statements (trees : List ParseTree)
    (hnames : ∀ tree ∈ trees, ParseTree.AvoidsTemporaries tree) :
    Realizes interpret (statements trees) (ParseTree.executeAll? interpret trees) := by
  match trees with
  | [] =>
    intro code env state final hagree hfinal
    rw [ParseTree.executeAll?] at hfinal
    exact realizes_done interpret code env state final hagree hfinal
  | tree :: trees =>
    intro code env state final hagree hfinal
    rw [ParseTree.executeAll?] at hfinal
    exact (realizes_statement tree (hnames tree List.mem_cons_self)).andThen interpret
      (realizes_statements trees fun tree hmem => hnames tree (List.mem_cons_of_mem _ hmem))
      code env state final hagree hfinal
end

end Lowering

end ThreeAddress
