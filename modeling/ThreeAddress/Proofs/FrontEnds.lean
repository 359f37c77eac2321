import ThreeAddress.Proofs.EquationMeaning
import ThreeAddress.Proofs.ProgramMeaning
import ThreeAddress.Proofs.Spacing

/-!
# The two front ends

A flat equation can be read as a program of one assignment and as an equation. The parse tree groups
its operands in terms, the stacks in a binary expression, but both obey precedence and have the same
operands in the same order. So they stand for the same expression, and their code is the same.
-/

namespace ThreeAddress

open Equation Grammar

/-! ## Rows of operands as parse trees -/

/-- The tree is derived from the rule, opens no level, and stands for an expression with these
lexemes that can be joined at the precedence. -/
structure StandsFor (rule : Rule) (precedence : Nat) (tokens : List Token) (lexemes : List Lexeme)
    (tree : ParseTree) : Prop where
  derives : Derives (.rule rule) tokens [tree]
  flat : tree.nesting = 0
  expr : ∃ expr, tree.expr? = some expr ∧ expr.HoldsAt precedence ∧ expr.inorder = lexemes

/-- The trees are operators of the precedence with operands behind them. -/
structure Chained (signs : Ebnf) (operand : Rule) (precedence : Nat) (tokens : List Token)
    (lexemes : List Lexeme) (trees : List ParseTree) : Prop where
  derives : Derives (.many (.seq signs (.rule operand))) tokens trees
  flat : ParseTree.nestings trees = 0
  expr : ∀ left : Expr, left.HoldsAt precedence → ∃ expr,
    ParseTree.chain? .operand .binary left trees = some expr ∧ expr.HoldsAt precedence ∧
      expr.inorder = left.inorder ++ lexemes

theorem standsFor_factor {kind : Token.Kind} {text : String}
    (hkind : kind = .number ∨ kind = .identifier) :
    StandsFor .factor 3 [⟨kind, text⟩] [.operand text]
      (ParseTree.ofRule .factor [ParseTree.terminal text]) where
  derives := by
    have hform : Ebnf.ofKind kind ∈ [Ebnf.ofKind .number, .ofKind .identifier, .ofKind .string,
        .all [mark "(", .rule .expression, mark ")"]] := by
      rcases hkind with rfl | rfl
      · exact List.mem_cons_self
      · exact List.mem_cons_of_mem _ List.mem_cons_self
    exact .rule (.oneOf hform (.ofKind kind text))
  flat := rfl
  expr := ⟨_, ParseTree.expr?_operand text, Expr.holdsAt_operand text, rfl⟩

-- A plain operand is a number or an identifier, and so a factor.
theorem standsFor_isPlainOperand {text : String} (h : isPlainOperand text = true) :
    StandsFor .factor 3 [Token.ofText text] [.operand text]
      (ParseTree.ofRule .factor [ParseTree.terminal text]) := by
  rw [isPlainOperand, Bool.or_eq_true] at h
  rcases h with h | h
  · rw [Token.ofText, kind_of_isPlainName h]
    exact standsFor_factor (.inr rfl)
  · rw [Token.ofText, kind_of_isNumber h]
    exact standsFor_factor (.inl rfl)

section Chains

variable {signs : Ebnf} {operand : Rule} {precedence : Nat}

theorem chained_nil : Chained signs operand precedence [] [] [] where
  derives := .nil
  flat := rfl
  expr left hleft := ⟨left, by rw [ParseTree.chain?], hleft, (List.append_nil _).symm⟩

-- One more operator and operand in front of a chain.
theorem Chained.cons {op : Operator} (harith : op.isArithmetic = true)
    (hop : op.precedence = precedence)
    (hsign : Derives signs [⟨.symbol, op.symbol⟩] [ParseTree.terminal op.symbol])
    {front back : List Token} {left right : List Lexeme} {next : ParseTree}
    {trees : List ParseTree} (hnext : StandsFor operand (precedence + 1) front left next)
    (hrest : Chained signs operand precedence back right trees) :
    Chained signs operand precedence (⟨.symbol, op.symbol⟩ :: (front ++ back))
      (.operator op :: (left ++ right)) (ParseTree.terminal op.symbol :: next :: trees) where
  derives := .cons (.seq hsign hnext.derives) hrest.derives
  flat := by
    rw [ParseTree.nestings_cons, ParseTree.nestings_cons, hnext.flat, hrest.flat]
    rfl
  expr start hstart := by
    obtain ⟨operandExpr, hexpr, hholds, hinorder⟩ := hnext.expr
    obtain ⟨expr, hchain, hexprHolds, hexprInorder⟩ :=
      hrest.expr (.binary op start operandExpr) (.binary hop hstart hholds)
    refine ⟨expr, (ParseTree.chain?_cons harith hexpr start trees).trans hchain, hexprHolds, ?_⟩
    rw [hexprInorder, Expr.inorder, hinorder, List.append_assoc, List.cons_append]

-- An operand and a chain behind it make the node of a rule.
theorem StandsFor.fold {rule : Rule}
    (hproduction : production rule = .seq (.rule operand) (.many (.seq signs (.rule operand))))
    (hopens : ∀ children, ParseTree.opensLevel (.rule rule) children = false)
    (hexpr : ∀ first rest, ParseTree.expr? (ParseTree.ofRule rule (first :: rest)) =
      (ParseTree.expr? first).bind fun left => ParseTree.chain? .operand .binary left rest)
    {front back : List Token} {left right : List Lexeme} {first : ParseTree}
    {trees : List ParseTree} (hfirst : StandsFor operand (precedence + 1) front left first)
    (hrest : Chained signs operand precedence back right trees) :
    StandsFor rule precedence (front ++ back) (left ++ right)
      (ParseTree.ofRule rule (first :: trees)) where
  derives := by
    apply Derives.rule
    rw [hproduction]
    exact .seq hfirst.derives hrest.derives
  -- neither the node nor anything below it opens a level
  flat := by
    rw [ParseTree.nesting_ofRule, hopens, ParseTree.nestings_cons, hfirst.flat, hrest.flat]
    rfl
  expr := by
    obtain ⟨start, hstart, hholds, hinorder⟩ := hfirst.expr
    obtain ⟨expr, hchain, hexprHolds, hexprInorder⟩ :=
      hrest.expr start (hholds.mono (Nat.le_succ precedence))
    refine ⟨expr, ?_, hexprHolds, ?_⟩
    · rw [hexpr, hstart]
      exact hchain
    · rw [hexprInorder, hinorder]

end Chains

theorem StandsFor.term {front back : List Token} {left right : List Lexeme} {first : ParseTree}
    {trees : List ParseTree} (hfirst : StandsFor .factor 3 front left first)
    (hrest : Chained (.oneOf [mark "*", mark "/"]) .factor 2 back right trees) :
    StandsFor .term 2 (front ++ back) (left ++ right)
      (ParseTree.ofRule .term (first :: trees)) :=
  hfirst.fold rfl (fun _ => rfl) ParseTree.expr?_term hrest

theorem StandsFor.expression {front back : List Token} {left right : List Lexeme}
    {first : ParseTree} {trees : List ParseTree} (hfirst : StandsFor .term 2 front left first)
    (hrest : Chained (.oneOf [mark "+", mark "-"]) .term 1 back right trees) :
    StandsFor .expression 1 (front ++ back) (left ++ right)
      (ParseTree.ofRule .expression (first :: trees)) :=
  hfirst.fold rfl (fun _ => rfl) ParseTree.expr?_expression hrest

/-- The tokens of operators with an operand behind each. -/
def stepTokens (rest : List (Operator × String)) : List Token :=
  rest.flatMap fun step => [⟨.symbol, step.1.symbol⟩, Token.ofText step.2]

theorem derives_productSign {op : Operator} (h : isProduct op = true) :
    Derives (.oneOf [mark "*", mark "/"]) [⟨.symbol, op.symbol⟩]
      [ParseTree.terminal op.symbol] := by
  have hform : mark op.symbol ∈ [mark "*", mark "/"] := by
    revert h
    cases op <;> decide
  exact .oneOf hform (.word ..)

theorem derives_sumSign {op : Operator} (harith : op.isArithmetic = true)
    (h : ¬isProduct op = true) :
    Derives (.oneOf [mark "+", mark "-"]) [⟨.symbol, op.symbol⟩]
      [ParseTree.terminal op.symbol] := by
  have hform : mark op.symbol ∈ [mark "+", mark "-"] := by
    revert harith h
    cases op <;> decide
  exact .oneOf hform (.word ..)

/-- What follows an operand is the rest of its product and then the rest of the sum. -/
theorem exists_chained {rest : List (Operator × String)}
    (hrest : ∀ step ∈ rest, step.1.isArithmetic = true ∧ isPlainOperand step.2 = true) :
    ∃ productTokens sumTokens productLexemes sumLexemes products sums,
      stepTokens rest = productTokens ++ sumTokens ∧
      steps rest = productLexemes ++ sumLexemes ∧
      Chained (.oneOf [mark "*", mark "/"]) .factor 2 productTokens productLexemes products ∧
      Chained (.oneOf [mark "+", mark "-"]) .term 1 sumTokens sumLexemes sums := by
  induction rest with
  | nil => exact ⟨[], [], [], [], [], [], rfl, rfl, chained_nil, chained_nil⟩
  | cons step rest ih =>
    obtain ⟨op, operand⟩ := step
    obtain ⟨harith, hplain⟩ := hrest _ List.mem_cons_self
    obtain ⟨productTokens, sumTokens, productLexemes, sumLexemes, products, sums, htokens, hlexemes,
      hproducts, hsums⟩ := ih fun other hmem => hrest other (List.mem_cons_of_mem _ hmem)
    have hfactor := standsFor_isPlainOperand hplain
    have hstepTokens : stepTokens ((op, operand) :: rest) =
        ⟨.symbol, op.symbol⟩ :: Token.ofText operand :: (productTokens ++ sumTokens) := by
      rw [← htokens]
      rfl
    have hsteps : steps ((op, operand) :: rest) =
        .operator op :: .operand operand :: (productLexemes ++ sumLexemes) := by
      rw [← hlexemes]
      rfl
    by_cases hproduct : isProduct op = true
    · -- the operand continues the product
      have hmore := hproducts.cons harith (precedence_of_isProduct hproduct)
        (derives_productSign hproduct) hfactor
      exact ⟨_, sumTokens, _, sumLexemes, _, sums, hstepTokens, hsteps, hmore, hsums⟩
    · -- the product ends, and the operand begins a term of the sum
      have hmore := hsums.cons harith (precedence_of_not_isProduct harith hproduct)
        (derives_sumSign harith hproduct) (hfactor.term hproducts)
      exact ⟨[], _, [], _, [], _, hstepTokens, hsteps, chained_nil, hmore⟩

/-- A row of operands is an expression. -/
theorem exists_expression {first : String} {rest : List (Operator × String)}
    (hfirst : isPlainOperand first = true)
    (hrest : ∀ step ∈ rest, step.1.isArithmetic = true ∧ isPlainOperand step.2 = true) :
    ∃ tree, StandsFor .expression 1 (Token.ofText first :: stepTokens rest) (row first rest)
      tree := by
  obtain ⟨_, _, _, _, products, sums, htokens, hlexemes, hproducts, hsums⟩ := exists_chained hrest
  have hexpression := ((standsFor_isPlainOperand hfirst).term hproducts).expression hsums
  rw [List.append_assoc, List.append_assoc, ← htokens, ← hlexemes] at hexpression
  exact ⟨_, hexpression⟩

/-! ## Programs of one assignment -/

/-- The tree of a program that is one assignment. -/
def assignmentTree (name : String) (value : ParseTree) : ParseTree :=
  .ofRule .root [.ofRule .statement [.ofRule .assignment
    [.terminal name, .terminal "=", value, .terminal ";"]]]

theorem isProgram_assignmentTree {name : String} {tokens : List Token} {value : ParseTree}
    (h : Derives (.rule .expression) tokens [value]) :
    IsProgram (⟨.identifier, name⟩ :: ⟨.symbol, "="⟩ :: (tokens ++ [⟨.symbol, ";"⟩]))
      (assignmentTree name value) := by
  have hassignment : Derives (production .assignment)
      ([⟨.identifier, name⟩] ++ ([⟨.symbol, "="⟩] ++ (tokens ++ [⟨.symbol, ";"⟩])))
      [.terminal name, .terminal "=", value, .terminal ";"] :=
    .seq (.ofKind ..) (.seq (.word ..) (.seq h (.word ..)))
  -- an assignment is one of the forms of a statement
  have hform : Derives (production .statement) _ _ :=
    Derives.oneOf (by decide) (Derives.rule hassignment)
  have hprogram : Derives (.many (.rule .statement)) _ _ := .cons (.rule hform) .nil
  rw [List.append_nil] at hprogram
  exact .rule hprogram

theorem nesting_assignmentTree {name : String} {value : ParseTree} (h : value.nesting = 0) :
    (assignmentTree name value).nesting = 1 := by
  simp [assignmentTree, ParseTree.nesting_ofRule, ParseTree.opensLevel, h]

-- A program that is one assignment gives the code of the value and a copy.
theorem ofProgram?_assignmentTree {name : String} {value : ParseTree} {expr : Expr}
    (h : value.expr? = some expr) :
    Code.ofProgram? (assignmentTree name value) =
      .ok ((Code.empty.compute expr).2.copy name (Code.empty.compute expr).1) := by
  have hstore : Lowering.store (.terminal name) value Code.empty =
      (.ok (), (Code.empty.compute expr).2.copy name (Code.empty.compute expr).1) := by
    rw [Lowering.store, ParseTree.lower_of_expr? h]
    rfl
  have hstatement : Lowering.statement (assignmentTree name value) Code.empty =
      (.ok (), (Code.empty.compute expr).2.copy name (Code.empty.compute expr).1) := by
    -- the only statement is the assignment, and nothing is done after it
    show Lowering.andThen (Lowering.andThen (Lowering.store (.terminal name) value) Lowering.done)
      Lowering.done Code.empty = _
    rw [Lowering.andThen, Lowering.andThen, hstore]
    rfl
  rw [Code.ofProgram?, hstatement]

theorem Listing.exists_of_program {source : String} {tree : ParseTree} {code : Code}
    (htree : ParseTree.ofTokens? (Token.scan (Text.removeComments source)) = .ok tree)
    (hcode : Code.ofProgram? tree = .ok code) :
    ∃ listing, Listing.ofSource? source none = .ok listing ∧ listing.code = code := by
  rw [Listing.ofSource?_none, htree]
  dsimp only
  rw [hcode]
  exact ⟨_, rfl, rfl⟩

theorem Listing.exists_of_equation {source text : String} {tree : ParseTree} {expr : Expr}
    {code : Code} (htree : ParseTree.ofTokens? (Token.scan (Text.removeComments source)) = .ok tree)
    (hexpr : Expr.ofText? text = .ok expr) (hcode : Code.ofTree? expr.toTree = .ok code) :
    ∃ listing, Listing.ofSource? source (some text) = .ok listing ∧ listing.code = code := by
  rw [Listing.ofSource?_some, htree]
  dsimp only
  rw [hexpr]
  dsimp only
  rw [hcode]
  exact ⟨_, rfl, rfl⟩

/-! ## Texts of equations -/

/-- A name, an equals sign and a row of operands, with single blanks between them. -/
def equationText (name first : String) (rest : List (Operator × String)) : String :=
  " ".intercalate (name :: "=" :: first :: rest.flatMap fun step => [step.1.symbol, step.2])

theorem scan_of_isPlainOperand {word : String} (h : isPlainOperand word = true) :
    Token.scan word = [Token.ofText word] := by
  obtain ⟨hne, hchars⟩ := isAlphanum_of_isPlainOperand h
  exact Token.scan_of_wordChars hne fun c hmem => isWordChar_of_isAlphanum (hchars c hmem)

theorem lexemes_of_isPlainOperand {word : String} (h : isPlainOperand word = true) :
    lexemes word = [.operand word] := by
  obtain ⟨hne, hchars⟩ := isAlphanum_of_isPlainOperand h
  exact lexemes_of_operandChars hne fun c hmem => isOperandChar_of_isAlphanum (hchars c hmem)

theorem isChain_of_isPlainOperand {word : String} (h : isPlainOperand word = true) :
    word.toList.IsChain Text.Apart := by
  refine (List.pairwise_of_forall_mem_list fun a ha b _ hslash => ?_).isChain
  exact absurd hslash (ne_slash_of_isAlphanum ((isAlphanum_of_isPlainOperand h).2 a ha))

theorem isPlainOperand_of_isPlainName {word : String} (h : isPlainName word = true) :
    isPlainOperand word = true := by
  rw [isPlainOperand, h, Bool.true_or]

theorem isChain_symbol (op : Operator) : op.symbol.toList.IsChain Text.Apart := by
  cases op <;> exact List.isChain_singleton _

section Texts

variable {name first : String} {rest : List (Operator × String)}
  (hname : isPlainName name = true) (hfirst : isPlainOperand first = true)
  (hrest : ∀ step ∈ rest, step.1.isArithmetic = true ∧ isPlainOperand step.2 = true)
include hname hfirst hrest

-- The lexemes of the text as an equation.
theorem lexemes_equationText :
    lexemes (equationText name first rest) =
      .operand name :: .operator .assign :: row first rest := by
  have hsteps : (rest.flatMap fun step => [step.1.symbol, step.2]).flatMap lexemes =
      steps rest := by
    rw [List.flatMap_assoc]
    apply List.flatMap_congr
    intro step hmem
    rw [List.flatMap_cons, List.flatMap_singleton, lexemes_symbol,
      lexemes_of_isPlainOperand (hrest step hmem).2]
    rfl
  have hequals : lexemes "=" = [.operator .assign] := lexemes_symbol .assign
  rw [equationText, lexemes_intercalate, List.flatMap_cons, List.flatMap_cons, List.flatMap_cons,
    hsteps, hequals, lexemes_of_isPlainOperand (isPlainOperand_of_isPlainName hname),
    lexemes_of_isPlainOperand hfirst]
  rfl

-- The tokens of the text as a program.
theorem scan_equationText :
    Token.scan (Text.removeComments (equationText name first rest ++ " ;")) =
      ⟨.identifier, name⟩ :: ⟨.symbol, "="⟩ :: (Token.ofText first ::
        stepTokens rest ++ [⟨.symbol, ";"⟩]) := by
  have hname' := isPlainOperand_of_isPlainName hname
  have hsteps : (rest.flatMap fun step => [step.1.symbol, step.2]).flatMap Token.scan =
      stepTokens rest := by
    rw [List.flatMap_assoc]
    apply List.flatMap_congr
    intro step hmem
    rw [List.flatMap_cons, List.flatMap_singleton, Token.scan_symbol,
      scan_of_isPlainOperand (hrest step hmem).2]
    rfl
  -- the semicolon is one more word
  have htext : equationText name first rest ++ " ;" = " ".intercalate
      ((name :: "=" :: first :: rest.flatMap fun step => [step.1.symbol, step.2]) ++ [";"]) := by
    rw [String.intercalate_append_of_ne_nil (List.cons_ne_nil _ _) (List.cons_ne_nil _ _),
      String.intercalate_singleton, String.append_assoc]
    rfl
  have hchain : ∀ word ∈
      (name :: "=" :: first :: rest.flatMap fun step => [step.1.symbol, step.2]) ++ [";"],
      word.toList.IsChain Text.Apart := by
    intro word hmem
    simp only [List.cons_append, List.mem_cons, List.mem_append, List.mem_flatMap,
      List.not_mem_nil, or_false] at hmem
    rcases hmem with rfl | rfl | rfl | ⟨step, hstep, rfl | rfl⟩ | rfl
    · exact isChain_of_isPlainOperand hname'
    · exact isChain_symbol .assign
    · exact isChain_of_isPlainOperand hfirst
    · exact isChain_symbol step.1
    · exact isChain_of_isPlainOperand (hrest step hstep).2
    · exact List.isChain_singleton ';'
  have hequals : Token.scan "=" = [⟨.symbol, "="⟩] := Token.scan_symbol .assign
  have hend : Token.scan ";" = [⟨.symbol, ";"⟩] := by decide
  rw [htext, Text.removeComments_intercalate hchain, Token.scan_intercalate, List.flatMap_append,
    List.flatMap_cons, List.flatMap_cons, List.flatMap_cons, hsteps, hequals,
    scan_of_isPlainOperand hname', scan_of_isPlainOperand hfirst, List.flatMap_singleton, hend,
    Token.ofText, kind_of_isPlainName hname]
  rfl

end Texts

/-- Compiled as a program and as an equation, an assignment of a flat expression gives the same
code. -/
theorem code_eq_of_equationText {name first : String} {rest : List (Operator × String)}
    (hname : isPlainName name = true) (hfirst : isPlainOperand first = true)
    (hrest : ∀ step ∈ rest, step.1.isArithmetic = true ∧ isPlainOperand step.2 = true) :
    ∃ program equation,
      Listing.ofSource? (equationText name first rest ++ " ;") none = .ok program ∧
      Listing.ofSource? "" (some (equationText name first rest)) = .ok equation ∧
      program.code = equation.code := by
  -- the row as a parse tree, and the expression that the tree stands for
  obtain ⟨tree, htree⟩ := exists_expression hfirst hrest
  obtain ⟨expr, hexpr, hholds, hinorder⟩ := htree.expr
  have hprogram : ParseTree.ofTokens?
      (Token.scan (Text.removeComments (equationText name first rest ++ " ;"))) =
        .ok (assignmentTree name tree) := by
    rw [scan_equationText hname hfirst hrest]
    refine ofTokens?_eq_ok_iff.2 ⟨isProgram_assignmentTree htree.derives, ?_⟩
    rw [nesting_assignmentTree htree.flat]
    decide
  -- the stacks find the same expression, since its row is the same
  have hwhole : (Expr.binary .assign (.operand name) expr).HoldsAt 0 :=
    .binary rfl ((Expr.holdsAt_operand name).mono (Nat.zero_le 3)) hholds
  have hlexemes : lexemes (equationText name first rest) =
      (Expr.binary .assign (.operand name) expr).inorder := by
    rw [lexemes_equationText hname hfirst hrest, Expr.inorder, hinorder]
    rfl
  have hequation : Expr.ofText? (equationText name first rest) =
      .ok (.binary .assign (.operand name) expr) := by
    rw [Expr.ofText?, hlexemes]
    exact Expr.ofLexemes?_inorder hwhole.1
  -- without any tokens the program is an empty root
  have hempty : ParseTree.ofTokens? (Token.scan (Text.removeComments "")) =
      .ok (.ofRule .root []) := by
    have hscan : Token.scan (Text.removeComments "") = [] := by decide
    rw [hscan]
    exact ofTokens?_eq_ok_iff.2 ⟨.rule .nil, by decide⟩
  obtain ⟨program, hprogram, hprogramCode⟩ :=
    Listing.exists_of_program hprogram (ofProgram?_assignmentTree hexpr)
  obtain ⟨equation, hequation, hequationCode⟩ :=
    Listing.exists_of_equation hempty hequation (Code.ofTree?_assign name expr)
  exact ⟨program, equation, hprogram, hequation, hprogramCode.trans hequationCode.symm⟩

theorem code_eq_of_equationText_mixed :
    isPlainName "total" = true ∧ isPlainOperand "7" = true ∧
      (∀ step ∈ [(Operator.mul, "b2"), (.sub, "10"), (.div, "c")],
        step.1.isArithmetic = true ∧ isPlainOperand step.2 = true) ∧
      ∃ program equation,
        Listing.ofSource?
          (equationText "total" "7" [(.mul, "b2"), (.sub, "10"), (.div, "c")] ++ " ;") none =
            .ok program ∧
        Listing.ofSource? ""
          (some (equationText "total" "7" [(.mul, "b2"), (.sub, "10"), (.div, "c")])) =
            .ok equation ∧
        program.code = equation.code :=
  ⟨by decide, by decide, by decide,
    code_eq_of_equationText (by decide) (by decide) (by decide)⟩

end ThreeAddress
