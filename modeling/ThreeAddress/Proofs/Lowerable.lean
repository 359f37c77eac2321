import ThreeAddress.Proofs.Temporaries

/-!
# What the front ends build can be lowered

The lowering checks the form of every node it comes to. A derivation tree passes these checks
whatever the texts of its tokens are, also if a name is an equals sign or a parenthesis: a program
is lowered part by part, a declaration by its equals signs, and every node that is lowered as a
value is a terminal or an expression. The tree of an equation has operators over two operands only.
So a listing fails for the sake of its program or its equation, never in the lowering.
-/

namespace ThreeAddress

open Equation Grammar

/-- The tree gives code and a name for its value, whatever code there is already. -/
def ParseTree.Lowerable (tree : ParseTree) : Prop :=
  ∀ code : Code, ∃ name later, code.lower (tree.map Label.text) = (.ok name, later)

theorem ParseTree.lowerable_terminal (text : String) : (terminal text).Lowerable :=
  fun code => ⟨text, code, code.lower_leaf text⟩

theorem ParseTree.lowerable_of_expr? {tree : ParseTree} {expr : Expr}
    (h : tree.expr? = some expr) : tree.Lowerable :=
  fun code => ⟨_, _, lower_of_expr? h code⟩

namespace Lowering

/-- The step does not fail, whatever code there is already. -/
def Step.Succeeds (step : Step) : Prop :=
  ∀ code, ∃ later, step code = (.ok (), later)

theorem done_succeeds : Step.Succeeds done :=
  fun code => ⟨code, rfl⟩

theorem Step.Succeeds.andThen {first second : Step} (hfirst : first.Succeeds)
    (hsecond : second.Succeeds) : Step.Succeeds (andThen first second) := by
  intro code
  obtain ⟨middle, hmiddle⟩ := hfirst code
  obtain ⟨later, hlater⟩ := hsecond middle
  refine ⟨later, ?_⟩
  rw [Lowering.andThen, hmiddle]
  exact hlater

theorem store_succeeds (name : ParseTree) {value : ParseTree} (h : value.Lowerable) :
    Step.Succeeds (store name value) := by
  intro code
  obtain ⟨source, later, hlower⟩ := h code
  exact ⟨later.copy name.value.text source, by rw [store, hlower]⟩

/-- A declaration is lowered if no equals sign comes first or last in it. -/
theorem initializers_succeeds (declaration : ParseTree) {before : Option ParseTree}
    {children : List ParseTree} (hchildren : ∀ child ∈ children, child.Lowerable)
    (hfirst : before = none → ∀ first ∈ children.head?, first.value ≠ .terminal "=")
    (hlast : ∀ last ∈ children.getLast?, last.value ≠ .terminal "=") :
    Step.Succeeds (initializers declaration before children) := by
  fun_induction initializers declaration before children with
  | case1 => exact done_succeeds
  | case2 mark hmark name value rest ih =>
    have hvalue := hchildren value (by simp)
    refine (store_succeeds name hvalue).andThen
      (ih ?_ (fun h => absurd h (Option.some_ne_none _)) ?_)
    · exact fun child hmem => hchildren child (List.mem_cons_of_mem _ hmem)
    · intro last hmem
      exact hlast last (by rwa [List.getLast?_cons_cons])
  | case3 before mark rest hmark hneighbours =>
    -- an equals sign without a neighbour on each side is the first child or the last
    cases before with
    | none => exact absurd hmark (hfirst rfl mark rfl)
    | some name =>
      cases rest with
      | nil => exact absurd hmark (hlast mark rfl)
      | cons value rest => exact absurd rfl (hneighbours name value rest rfl)
  | case4 before child rest hchild ih =>
    refine ih ?_ (fun h => absurd h (Option.some_ne_none _)) ?_
    · exact fun other hmem => hchildren other (List.mem_cons_of_mem _ hmem)
    · intro last hmem
      cases rest with
      | nil => cases hmem
      | cons next rest => exact hlast last (by rwa [List.getLast?_cons_cons])

-- What holds of each step of a list holds of them one after the other.
theorem statements_hold {P : Step → Prop} (hdone : P done)
    (hthen : ∀ {first second : Step}, P first → P second → P (andThen first second))
    {trees : List ParseTree} (h : ∀ tree ∈ trees, P (statement tree)) : P (statements trees) := by
  induction trees with
  | nil =>
    rw [statements]
    exact hdone
  | cons tree trees ih =>
    rw [statements]
    exact hthen (h tree List.mem_cons_self)
      (ih fun other hmem => h other (List.mem_cons_of_mem _ hmem))

end Lowering

namespace Ebnf

/-- The rules that the form refers to. -/
def rules : Ebnf → List Rule
  | .rule name => [name]
  | .seq first second | .either first second => first.rules ++ second.rules
  | .many body => body.rules
  | _ => []

end Ebnf

namespace Grammar.Derives

open Lowering

variable {form : Ebnf} {tokens : List Token} {trees : List ParseTree}

-- Where a form refers to expressions only, all trees of its derivations are such or terminals.
theorem terminal_or_expr? (h : Derives form tokens trees) (hform : form.rules ⊆ [.expression]) :
    ∀ tree ∈ trees, (∃ text, tree = ParseTree.terminal text) ∨ ∃ expr, tree.expr? = some expr := by
  induction h with
  | empty | nil => exact fun _ hmem => absurd hmem List.not_mem_nil
  | word kind text | ofKind kind text =>
    intro tree hmem
    exact .inl ⟨text, List.mem_singleton.1 hmem⟩
  | @rule rule _ _ hbody _ =>
    intro tree hmem
    rw [List.mem_singleton.1 hmem]
    obtain rfl : rule = .expression := List.mem_singleton.1 (hform (List.mem_singleton_self rule))
    exact .inr (exists_expr? List.mem_cons_self (Derives.rule hbody))
  | left _ ih => exact ih (List.Subset.trans (List.subset_append_left _ _) hform)
  | right _ ih => exact ih (List.Subset.trans (List.subset_append_right _ _) hform)
  | seq _ _ ihfront ihback =>
    have hfront := ihfront (List.Subset.trans (List.subset_append_left _ _) hform)
    have hback := ihback (List.Subset.trans (List.subset_append_right _ _) hform)
    exact fun tree hmem => (List.mem_append.1 hmem).elim (hfront tree) (hback tree)
  | cons _ _ ihfront ihback =>
    exact fun tree hmem => (List.mem_append.1 hmem).elim (ihfront hform tree) (ihback hform tree)

theorem lowerable (h : Derives form tokens trees) (hform : form.rules ⊆ [.expression]) :
    ∀ tree ∈ trees, tree.Lowerable := by
  intro tree hmem
  rcases h.terminal_or_expr? hform tree hmem with ⟨text, rfl⟩ | ⟨expr, hexpr⟩
  · exact ParseTree.lowerable_terminal text
  · exact ParseTree.lowerable_of_expr? hexpr

theorem succeeds_assignment (h : Derives (production .assignment) tokens trees) :
    (Lowering.statement (ParseTree.ofRule .assignment trees)).Succeeds := by
  obtain ⟨name, part, value, hvalue, -, rfl⟩ := h.of_assignment
  exact store_succeeds (ParseTree.terminal name)
    (hvalue.lowerable (List.Subset.refl _) value (List.mem_singleton_self value))

-- A type stands first in a declaration and a semicolon last, whatever the names in between are.
theorem succeeds_declaration (h : Derives (production .variableDeclaration) tokens trees) :
    (Lowering.statement (ParseTree.ofRule .variableDeclaration trees)).Succeeds := by
  have hchildren := h.lowerable (by decide)
  obtain ⟨type, front, back, left, right, htype, -, -, -, rfl⟩ := h.of_declaration
  refine initializers_succeeds _ hchildren (fun _ first hmem => ?_) fun last hmem => ?_
  · cases hmem
    intro heq
    rw [Label.terminal.inj heq] at htype
    exact absurd htype (by decide)
  · rw [← List.cons_append, ← List.append_assoc, List.getLast?_concat] at hmem
    cases hmem
    decide

/-- What holds of doing nothing, of the steps of assignments and declarations and of one such step
after another holds of the steps of all trees of a derivation. The tokens of the assignments and
declarations are as all tokens of the derivation are. -/
theorem statement_induction {P : Step → Prop} {Q : Token → Prop} (hdone : P done)
    (hthen : ∀ {first second : Step}, P first → P second → P (andThen first second))
    (hassignment : ∀ {tokens trees}, Derives (production .assignment) tokens trees →
      (∀ token ∈ tokens, Q token) →
        P (Lowering.statement (ParseTree.ofRule .assignment trees)))
    (hdeclaration : ∀ {tokens trees}, Derives (production .variableDeclaration) tokens trees →
      (∀ token ∈ tokens, Q token) →
        P (Lowering.statement (ParseTree.ofRule .variableDeclaration trees)))
    (h : Derives form tokens trees) (htokens : ∀ token ∈ tokens, Q token) :
    ∀ tree ∈ trees, P (Lowering.statement tree) := by
  induction h with
  | empty | nil => exact fun _ hmem => absurd hmem List.not_mem_nil
  | word kind text | ofKind kind text =>
    intro tree hmem
    rw [List.mem_singleton.1 hmem, ParseTree.terminal, Tree.leaf, Lowering.statement]
    exact hdone
  | @rule rule _ children hbody ih =>
    intro tree hmem
    rw [List.mem_singleton.1 hmem]
    by_cases hassign : rule = .assignment
    · subst hassign
      exact hassignment hbody htokens
    · by_cases hdeclare : rule = .variableDeclaration
      · subst hdeclare
        exact hdeclaration hbody htokens
      · rw [ParseTree.ofRule, statement_of_ne hassign hdeclare]
        split
        · exact statements_hold hdone hthen (ih htokens)
        · exact hdone
  | left _ ih | right _ ih => exact ih htokens
  | seq _ _ ihfront ihback | cons _ _ ihfront ihback =>
    have hfront := ihfront fun token hmem => htokens token (List.mem_append_left _ hmem)
    have hback := ihback fun token hmem => htokens token (List.mem_append_right _ hmem)
    exact fun tree hmem => (List.mem_append.1 hmem).elim (hfront tree) (hback tree)

/-- Whatever the texts of the tokens are, the trees of a derivation can be lowered. -/
theorem succeeds (h : Derives form tokens trees) :
    ∀ tree ∈ trees, (Lowering.statement tree).Succeeds :=
  h.statement_induction (Q := fun _ => True) done_succeeds .andThen
    (fun hbody _ => hbody.succeeds_assignment) (fun hbody _ => hbody.succeeds_declaration)
    fun _ _ => trivial

end Grammar.Derives

namespace Code

-- Every program that is read can be lowered, also if its tokens come from no text.
theorem exists_ofProgram? {tokens : List Token} {tree : ParseTree}
    (h : ParseTree.ofTokens? tokens = .ok tree) : ∃ code, ofProgram? tree = .ok code := by
  have hderives : Derives (.rule .root) tokens [tree] := (ofTokens?_eq_ok_iff.1 h).1
  obtain ⟨code, hcode⟩ := hderives.succeeds tree (List.mem_singleton_self tree) empty
  exact ⟨code, by rw [ofProgram?, hcode]⟩

theorem exists_ofTree? (expr : Expr) : ∃ code, ofTree? expr.toTree = .ok code :=
  ⟨_, ofTree?_toTree expr⟩

end Code

namespace Listing

/-- The lowering fails on no program that is read and on no equation, so only these two can be at
fault if a source text has no listing. -/
theorem lowering_never_fails :
    (∀ tokens tree, ParseTree.ofTokens? tokens = .ok tree →
        ∃ code, Code.ofProgram? tree = .ok code) ∧
      (∀ text expr, Expr.ofText? text = .ok expr → ∃ code, Code.ofTree? expr.toTree = .ok code) ∧
      ∀ source equation error, ofSource? source equation = .error error →
        (∃ fault, error = .parsing fault) ∨ ∃ fault, error = .equation fault := by
  refine ⟨fun _ _ => Code.exists_ofProgram?, fun _ expr _ => Code.exists_ofTree? expr, ?_⟩
  intro source equation error h
  cases equation with
  | none =>
    rw [ofSource?_none] at h
    split at h
    · exact .inl ⟨_, (Except.error.inj h).symm⟩
    · rename_i tree htree
      obtain ⟨code, hcode⟩ := Code.exists_ofProgram? htree
      rw [hcode] at h
      cases h
  | some text =>
    rw [ofSource?_some] at h
    split at h
    · exact .inl ⟨_, (Except.error.inj h).symm⟩
    · split at h
      · exact .inr ⟨_, (Except.error.inj h).symm⟩
      · rename_i expr _
        obtain ⟨code, hcode⟩ := Code.exists_ofTree? expr
        rw [hcode] at h
        cases h

-- Names that look like an equals sign and a parenthesis, an operator in front of its operands, and
-- an equation that is none.
theorem lowering_never_fails_misnamed :
    (∃ tree, ParseTree.ofTokens? [⟨.reservedWord, "int"⟩, ⟨.identifier, "="⟩, ⟨.symbol, "="⟩,
        ⟨.identifier, "("⟩, ⟨.symbol, ","⟩, ⟨.identifier, "="⟩, ⟨.symbol, ";"⟩] = .ok tree ∧
      ∃ code, Code.ofProgram? tree = .ok code) ∧
      (∃ expr, Expr.ofText? "x = a b + * c" = .ok expr ∧
        ∃ code, Code.ofTree? expr.toTree = .ok code) ∧
      ∃ error, ofSource? "x = 1;" (some "= a") = .error error ∧
        ((∃ fault, error = .parsing fault) ∨ ∃ fault, error = .equation fault) := by
  obtain ⟨hprogram, hequation, hsource⟩ := lowering_never_fails
  refine ⟨?_, ?_, ?_⟩
  · have hok : (ParseTree.ofTokens? [⟨.reservedWord, "int"⟩, ⟨.identifier, "="⟩, ⟨.symbol, "="⟩,
        ⟨.identifier, "("⟩, ⟨.symbol, ","⟩, ⟨.identifier, "="⟩, ⟨.symbol, ";"⟩]).isOk = true := by
      decide +kernel
    match htree : ParseTree.ofTokens? _, hok with
    | .ok tree, _ => exact ⟨tree, rfl, hprogram _ tree htree⟩
  · have hok : (Expr.ofText? "x = a b + * c").isOk = true := by
      decide +kernel
    match hexpr : Expr.ofText? _, hok with
    | .ok expr, _ => exact ⟨expr, rfl, hequation _ expr hexpr⟩
  · have hfails : (ofSource? "x = 1;" (some "= a")).isOk = false := by
      decide +kernel
    match herror : ofSource? _ _, hfails with
    | .error error, _ => exact ⟨error, rfl, hsource _ _ error herror⟩

end Listing

end ThreeAddress
