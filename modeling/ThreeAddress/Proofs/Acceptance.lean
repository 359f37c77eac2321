import ThreeAddress.Proofs.Prediction
import ThreeAddress.Proofs.Productions

/-!
# Acceptance

The phrases a reader works with stand for the same derivations as the productions of the grammar.
So a token list is accepted exactly if it has a derivation within the nesting limit, and the tree
read is its only derivation tree.
-/

namespace ThreeAddress.Grammar

open Ebnf ThreeAddress.Language ParseTree

/-! ## Derivations of bounded nesting -/

/-- The derivations whose trees nest at most as deep as the bound. -/
def Within (bound : Nat) (form : Ebnf) : Language :=
  fun tokens trees => Derives form tokens trees ∧ nestings trees ≤ bound

/-- The derivations whose trees nest less deep than the bound. -/
def Below (bound : Nat) (form : Ebnf) : Language :=
  fun tokens trees => Derives form tokens trees ∧ nestings trees < bound

section Within

variable {bound : Nat}

theorem below_succ (form : Ebnf) : Below (bound + 1) form = Within bound form := by
  apply Language.ext
  intro tokens trees
  rw [Below, Within, Nat.lt_succ_iff]

theorem within_empty : Within bound .empty = Language.empty := by
  apply Language.ext
  intro tokens trees
  constructor
  · rintro ⟨h, -⟩
    cases h
    exact ⟨rfl, rfl⟩
  · rintro ⟨rfl, rfl⟩
    exact ⟨.empty, Nat.zero_le _⟩

theorem within_word (kind : Token.Kind) (text : String) :
    Within bound (.word kind text) = Language.token (Pattern.word kind [text]).accepts := by
  apply Language.ext
  intro tokens trees
  constructor
  · rintro ⟨h, -⟩
    cases h
    exact ⟨⟨kind, text⟩, by simp [Pattern.accepts], rfl, rfl⟩
  · rintro ⟨⟨kind', text'⟩, haccepts, rfl, rfl⟩
    obtain ⟨rfl, rfl⟩ : kind' = kind ∧ text' = text := by simpa [Pattern.accepts] using haccepts
    exact ⟨.word kind' text', Nat.zero_le _⟩

theorem within_ofKind (kind : Token.Kind) :
    Within bound (.ofKind kind) = Language.token (Pattern.ofKind [kind]).accepts := by
  apply Language.ext
  intro tokens trees
  constructor
  · rintro ⟨h, -⟩
    cases h with
    | ofKind _ text => exact ⟨⟨kind, text⟩, by simp [Pattern.accepts], rfl, rfl⟩
  · rintro ⟨⟨kind', text'⟩, haccepts, rfl, rfl⟩
    obtain rfl : kind' = kind := by simpa [Pattern.accepts] using haccepts
    exact ⟨.ofKind kind' text', Nat.zero_le _⟩

theorem within_either (first second : Ebnf) :
    Within bound (.either first second) =
      Language.either (Within bound first) (Within bound second) := by
  apply Language.ext
  intro tokens trees
  constructor
  · rintro ⟨h, hle⟩
    cases h with
    | left h => exact .inl ⟨h, hle⟩
    | right h => exact .inr ⟨h, hle⟩
  · rintro (⟨h, hle⟩ | ⟨h, hle⟩)
    · exact ⟨.left h, hle⟩
    · exact ⟨.right h, hle⟩

theorem within_seq (first second : Ebnf) :
    Within bound (.seq first second) =
      Language.seq (Within bound first) (Within bound second) := by
  apply Language.ext
  intro tokens trees
  constructor
  · rintro ⟨h, hle⟩
    cases h with
    | seq hfirst hsecond =>
      rw [nestings_append, Nat.max_le] at hle
      exact seq_intro ⟨hfirst, hle.1⟩ ⟨hsecond, hle.2⟩
  · rintro ⟨front, back, left, right, rfl, rfl, ⟨hfirst, hleft⟩, hsecond, hright⟩
    refine ⟨.seq hfirst hsecond, ?_⟩
    rw [nestings_append]
    exact Nat.max_le.2 ⟨hleft, hright⟩

theorem within_many (body : Ebnf) :
    Within bound (.many body) = Language.Many (Within bound body) := by
  apply Language.ext
  intro tokens trees
  constructor
  · rintro ⟨h, hle⟩
    induction h using Derives.many_induction with
    | nil => exact .nil
    | cons front back left right hitem _ ih =>
      rw [nestings_append, Nat.max_le] at hle
      exact .cons ⟨hitem, hle.1⟩ (ih hle.2)
  · intro h
    induction h with
    | nil => exact ⟨.nil, Nat.zero_le _⟩
    | cons hitem _ ih =>
      refine ⟨.cons hitem.1 ih.1, ?_⟩
      rw [nestings_append]
      exact Nat.max_le.2 ⟨hitem.2, ih.2⟩

-- A node opens at most one level above its children.
theorem within_rule_eq (rule : Rule) :
    Within bound (.rule rule) = Language.node rule fun tokens trees =>
      Derives (production rule) tokens trees ∧
        if opensLevel (.rule rule) trees.length then nestings trees < bound
        else nestings trees ≤ bound := by
  have hnestings (trees : List ParseTree) : nestings [ofRule rule trees] ≤ bound ↔
      if opensLevel (.rule rule) trees.length then nestings trees < bound
      else nestings trees ≤ bound := by
    rw [nestings_cons, nesting_ofRule, nestings_nil, Nat.max_zero]
    split <;> omega
  apply Language.ext
  intro tokens trees
  constructor
  · rintro ⟨hrule, hle⟩
    cases hrule with
    | rule hbody => exact ⟨_, ⟨hbody, (hnestings _).1 hle⟩, rfl⟩
  · rintro ⟨children, ⟨hbody, hle⟩, rfl⟩
    exact ⟨.rule hbody, (hnestings _).2 hle⟩

-- A node that opens no level nests as deep as its children.
theorem within_rule {rule : Rule} (h : ∀ children, opensLevel (.rule rule) children = false) :
    Within bound (.rule rule) = Language.node rule (Within bound (production rule)) := by
  rw [within_rule_eq]
  simp only [h, Bool.false_eq_true, if_false]
  rfl

theorem within_statement : Within bound (.rule .statement) =
    Language.node .statement (Below bound (production .statement)) := by
  rw [within_rule_eq]
  rfl

-- A factor is one operand, or an expression in parentheses that lies one level deeper.
theorem within_factor : Within bound (.rule .factor) =
    Language.node .factor (Language.either (Language.token operand.accepts)
      (Language.seq (Within bound (mark "(")) (Language.seq (Below bound (.rule .expression))
        (Within bound (mark ")"))))) := by
  rw [within_rule_eq]
  congr 1
  apply Language.ext
  intro tokens trees
  constructor
  · rintro ⟨h, hnest⟩
    rcases h.of_factor with ⟨token, hkind, rfl, rfl⟩ | ⟨part, inner, hinner, rfl, rfl⟩
    · exact .inl ⟨token, List.elem_eq_true_of_mem hkind, rfl, rfl⟩
    · -- three children, so the node opens the level of the expression
      refine .inr ⟨[_], _, [_], _, rfl, rfl, ⟨.word .symbol "(", Nat.zero_le _⟩,
        part, _, [inner], _, rfl, rfl, ⟨hinner, ?_⟩, ⟨.word .symbol ")", Nat.zero_le _⟩⟩
      change nestings [terminal "(", inner, terminal ")"] < bound at hnest
      rw [nestings_cons, nestings_cons, nesting_terminal, Nat.zero_max] at hnest
      rw [nestings_cons, nestings_nil, Nat.max_zero]
      omega
  · rintro (⟨⟨kind, text⟩, haccepts, rfl, rfl⟩ | h)
    · -- one child and no level
      have hkind : kind = .number ∨ kind = .identifier ∨ kind = .string := by
        simpa [operand, Pattern.accepts] using haccepts
      refine ⟨?_, Nat.zero_le _⟩
      rcases hkind with rfl | rfl | rfl
      · exact .left (.ofKind .number text)
      · exact .right (.left (.ofKind .identifier text))
      · exact .right (.right (.left (.ofKind .string text)))
    · obtain ⟨_, _, _, _, rfl, rfl, ⟨hopening, -⟩, _, _, _, _, rfl, rfl, ⟨hinner, hlt⟩, hclosing,
        -⟩ := h
      obtain ⟨rfl, rfl⟩ := hopening.of_word
      obtain ⟨rfl, rfl⟩ := hclosing.of_word
      obtain ⟨inner, -, rfl⟩ := hinner.of_rule
      refine ⟨.right (.right (.right (.seq (.word ..) (.seq hinner (.word ..))))), ?_⟩
      rw [nestings_append, nestings_append]
      show max 0 (max _ 0) < bound
      rwa [Nat.max_zero, Nat.zero_max]

end Within

/-! ## Phrases and productions -/

-- A pattern of several texts accepts what patterns of the single texts accept.
theorem token_word_cons (kind : Token.Kind) (text next : String) (texts : List String) :
    Language.token (Pattern.word kind (text :: next :: texts)).accepts =
      Language.either (Language.token (Pattern.word kind [text]).accepts)
        (Language.token (Pattern.word kind (next :: texts)).accepts) := by
  have haccepts (token : Token) : (Pattern.word kind (text :: next :: texts)).accepts token =
      ((Pattern.word kind [text]).accepts token ||
        (Pattern.word kind (next :: texts)).accepts token) := by
    simp [Pattern.accepts, Bool.and_or_distrib_left]
  apply Language.ext
  intro tokens trees
  simp only [Language.token, Language.either, haccepts, Bool.or_eq_true]
  grind

section Phrases

variable (bound : Nat) {nested : Nesting → Language}

theorem symbol_language (text context : String) :
    (symbol text context).language nested = Within bound (mark text) :=
  (within_word ..).symm

theorem word_language (text context : String) :
    (word text context).language nested = Within bound (reserved text) :=
  (within_word ..).symm

theorem identifier_language (context : String) :
    (identifier context).language nested = Within bound (.ofKind .identifier) :=
  (within_ofKind _).symm

theorem sign_language (text : String) :
    (found (sign text)).language nested = Within bound (mark text) :=
  (within_word ..).symm

theorem keyword_language (text : String) :
    (found (keyword text)).language nested = Within bound (reserved text) :=
  (within_word ..).symm

theorem sumSign_language :
    (found sumSign).language nested = Within bound (oneOf [mark "+", mark "-"]) := by
  simp only [oneOf, mark, within_either, within_word, ← token_word_cons]
  rfl

theorem productSign_language :
    (found productSign).language nested = Within bound (oneOf [mark "*", mark "/"]) := by
  simp only [oneOf, mark, within_either, within_word, ← token_word_cons]
  rfl

theorem typeWord_language : (found typeWord).language nested =
    Within bound (oneOf [reserved "int", reserved "float", reserved "void"]) := by
  simp only [oneOf, reserved, within_either, within_word, ← token_word_cons]
  rfl

/-! ### Statements with nothing nested -/

theorem inputStatement_language :
    inputStatement.language nested = Within bound (.rule .inputStatement) := by
  rw [within_rule fun _ => rfl]
  simp only [production, Ebnf.all, within_seq, within_many, inputStatement, Phrase.all,
    Phrase.language, identifier_language bound, keyword_language bound, symbol_language bound]

theorem includeStatement_language :
    includeStatement.language nested = Within bound (.rule .includeStatement) := by
  rw [within_rule fun _ => rfl]
  simp only [production, Ebnf.all, within_seq, includeStatement, Phrase.all, Phrase.language,
    identifier_language bound, keyword_language bound, symbol_language bound]

theorem usingStatement_language :
    usingStatement.language nested = Within bound (.rule .usingNamespaceStatement) := by
  rw [within_rule fun _ => rfl]
  simp only [production, Ebnf.all, within_seq, usingStatement, Phrase.all, Phrase.language,
    word_language bound, keyword_language bound, symbol_language bound]

theorem jump_language {rule : Rule} {text : String}
    (hopens : ∀ children, opensLevel (.rule rule) children = false)
    (hrule : production rule = Ebnf.all [reserved text, mark ";"]) :
    (jump rule text).language nested = Within bound (.rule rule) := by
  rw [within_rule hopens, hrule]
  simp only [Ebnf.all, within_seq, jump, Phrase.all, Phrase.language, keyword_language bound,
    symbol_language bound]

variable {bound}

/-! ### Expressions -/

section Expressions

variable (hgroup : nested .group = Below bound (.rule .expression))
include hgroup

theorem factor_language : factor.language nested = Within bound (.rule .factor) := by
  rw [within_factor, ← hgroup]
  simp only [factor, Phrase.choose, List.foldr, Phrase.all, Phrase.language, either_never,
    sign_language bound, symbol_language bound]
  rfl

theorem term_language : term.language nested = Within bound (.rule .term) := by
  rw [within_rule fun _ => rfl]
  simp only [production, Ebnf.all, within_seq, within_many, term, Phrase.language,
    factor_language hgroup, productSign_language bound]

theorem expression_language : expression.language nested = Within bound (.rule .expression) := by
  rw [within_rule fun _ => rfl]
  simp only [production, Ebnf.all, within_seq, within_many, expression, Phrase.language,
    term_language hgroup, sumSign_language bound]

theorem arguments_language : arguments.language nested = Within bound (.rule .functionCall) := by
  rw [within_rule fun _ => rfl]
  -- the reader looks for the closing parenthesis first, so its choices stand the other way round
  simp only [production, Ebnf.all, maybe, within_seq, within_many, within_either, within_empty,
    arguments, Phrase.all, Phrase.language, expression_language hgroup,
    either_comm Language.empty, symbol_language bound, sign_language bound]

/-! ### Statements -/

theorem declarator_language (context : String) :
    (declarator context).language nested = Within bound declaratorForm := by
  simp only [declarator, declaratorForm, Ebnf.all, maybe, within_seq, within_either, within_empty,
    Phrase.language, expression_language hgroup, identifier_language bound, sign_language bound]

theorem declaration_language :
    declaration.language nested = Within bound (.rule .variableDeclaration) := by
  rw [within_rule fun _ => rfl]
  simp only [production, Ebnf.all, within_seq, within_many, declaration, Phrase.all,
    Phrase.language, declarator_language hgroup, typeWord_language bound, sign_language bound,
    symbol_language bound]

theorem assignment_language : assignment.language nested = Within bound (.rule .assignment) := by
  rw [within_rule fun _ => rfl]
  simp only [production, Ebnf.all, within_seq, assignment, Phrase.all, Phrase.language,
    expression_language hgroup, identifier_language bound, sign_language bound,
    symbol_language bound]

theorem call_language : call.language nested = Within bound (.rule .callStatement) := by
  rw [within_rule fun _ => rfl]
  simp only [production, Ebnf.all, within_seq, call, Phrase.all, Phrase.language,
    arguments_language hgroup, identifier_language bound, symbol_language bound]

theorem returnStatement_language :
    returnStatement.language nested = Within bound (.rule .returnStatement) := by
  rw [within_rule fun _ => rfl]
  simp only [production, Ebnf.all, within_seq, returnStatement, Phrase.all, Phrase.language,
    expression_language hgroup, keyword_language bound, symbol_language bound]

theorem outputStatement_language :
    outputStatement.language nested = Within bound (.rule .outputStatement) := by
  rw [within_rule fun _ => rfl]
  simp only [production, Ebnf.all, within_seq, within_many, outputStatement, Phrase.all,
    Phrase.language, expression_language hgroup, keyword_language bound, symbol_language bound]

variable (hstatement : nested .statement = Below bound (production .statement))
include hstatement

omit hgroup in
theorem statement_language : statement.language nested = Within bound (.rule .statement) := by
  rw [within_statement, ← hstatement]
  simp only [statement, Phrase.language, either_never]

omit hgroup in
theorem statements_language :
    statements.language nested = Within bound (.many (.rule .statement)) := by
  rw [within_many, ← statement_language hstatement]
  rfl

omit hgroup in
theorem block_language : block.language nested = Within bound (.rule .block) := by
  rw [within_rule fun _ => rfl]
  simp only [production, braced, Ebnf.all, within_seq, block, Phrase.all, Phrase.language,
    statements_language hstatement, symbol_language bound]

theorem conditional_language {rule : Rule} {text : String}
    (hopens : ∀ children, opensLevel (.rule rule) children = false)
    (hrule : production rule = guarded text) :
    (conditional rule text).language nested = Within bound (.rule rule) := by
  rw [within_rule hopens, hrule]
  simp only [guarded, Ebnf.all, within_seq, conditional, Phrase.all, Phrase.language,
    expression_language hgroup, statement_language hstatement, keyword_language bound,
    symbol_language bound]

theorem forStatement_language :
    forStatement.language nested = Within bound (.rule .forStatement) := by
  rw [within_rule fun _ => rfl]
  simp only [production, Ebnf.all, within_seq, forStatement, Phrase.all, Phrase.language,
    expression_language hgroup, statement_language hstatement, keyword_language bound,
    symbol_language bound]

omit hgroup in
-- The entry point is read in two ways, with its return type and without.
theorem main_language :
    Language.either
        ((Phrase.node .mainStatement (Phrase.all (found (keyword "int") :: entryPoint))).language
          nested)
        ((Phrase.node .mainStatement (Phrase.all entryPoint)).language nested) =
      Within bound (.rule .mainStatement) := by
  rw [within_rule fun _ => rfl]
  -- the choice of a return type is moved out of the sequence and out of the node
  simp only [production, braced, maybe, Ebnf.all, within_seq, within_either, within_empty,
    entryPoint, Phrase.all, Phrase.language, seq_either, empty_seq, node_either,
    statements_language hstatement, keyword_language bound, word_language bound,
    symbol_language bound]

theorem statementForm_language :
    statementForm.language nested = Within bound (production .statement) := by
  have hif : (conditional .ifStatement "if").language nested = Within bound (.rule .ifStatement) :=
    conditional_language hgroup hstatement (fun _ => rfl) rfl
  have hwhile : (conditional .whileStatement "while").language nested =
      Within bound (.rule .whileStatement) :=
    conditional_language hgroup hstatement (fun _ => rfl) rfl
  have hcontinue : (jump .continueStatement "continue").language nested =
      Within bound (.rule .continueStatement) :=
    jump_language bound (fun _ => rfl) rfl
  have hbreak : (jump .breakStatement "break").language nested =
      Within bound (.rule .breakStatement) :=
    jump_language bound (fun _ => rfl) rfl
  apply Language.ext
  intro tokens trees
  apply iff_of_eq
  simp only [statementForm, Phrase.choose, List.foldr, Phrase.language, production, oneOf,
    within_either, seq_never, Language.either, assignment_language hgroup,
    call_language hgroup, declaration_language hgroup, returnStatement_language hgroup,
    outputStatement_language hgroup, inputStatement_language bound,
    includeStatement_language bound, usingStatement_language bound, block_language hstatement,
    forStatement_language hgroup hstatement, keyword_language bound, ← main_language hstatement,
    hif, hwhile, hcontinue, hbreak, or_false, false_or]
  -- the alternatives stand in another order, and the entry point in two places
  ac_rfl

end Expressions

end Phrases

/-- With some levels to spare, the nested phrases stand for the derivations that nest less deep. -/
theorem nestedLanguage_eq (levels : Nat) :
    nestedLanguage levels .group = Below levels (.rule .expression) ∧
      nestedLanguage levels .statement = Below levels (production .statement) := by
  induction levels with
  | zero =>
    -- nothing nests less deep than not at all
    have hzero (form : Ebnf) : Below 0 form = fun _ _ => False := by
      apply Language.ext
      intro tokens trees
      exact ⟨fun h => Nat.not_lt_zero _ h.2, False.elim⟩
    rw [hzero, hzero]
    exact ⟨rfl, rfl⟩
  | succ levels ih =>
    rw [below_succ, below_succ]
    exact ⟨expression_language ih.1, statementForm_language ih.1 ih.2⟩

theorem program_language (levels : Nat) :
    program.language (nestedLanguage levels) = Within levels (.many (.rule .statement)) := by
  rw [within_many, ← statement_language (nestedLanguage_eq levels).2]
  rfl

/-! ## Programs -/

theorem isProgram_iff {tokens : List Token} {tree : ParseTree} :
    IsProgram tokens tree ↔
      ∃ trees, tree = ofRule .root trees ∧ Derives (.many (.rule .statement)) tokens trees := by
  constructor
  · intro h
    cases h with
    | rule hbody => exact ⟨_, rfl, hbody⟩
  · rintro ⟨trees, rfl, h⟩
    exact .rule h

theorem nesting_root (trees : List ParseTree) : nesting (ofRule .root trees) = nestings trees := by
  rw [nesting_ofRule]
  exact Nat.zero_add _

-- Reading with enough levels to spare finds every derivation of a program.
theorem read_program {levels : Nat} {tokens : List Token} {trees : List ParseTree}
    (h : Derives (.many (.rule .statement)) tokens trees) (hle : nestings trees ≤ levels) :
    program.read (readNested levels) tokens = .ok (trees, []) := by
  have hlanguage : program.language (nestedLanguage levels) tokens trees := by
    rw [program_language]
    exact ⟨h, hle⟩
  -- a predictive phrase is read before any tokens that may follow it, here before none
  have hread : program.read (readNested levels) (tokens ++ []) = .ok (trees, []) :=
    Phrase.read_complete (nestedLanguage_starts levels) (readNested_complete levels)
      predictive_program hlanguage rfl
  rwa [List.append_nil] at hread

-- What is read as a program derives from the tokens taken, within the limit.
theorem readProgram_sound {tokens rest : List Token} {trees : List ParseTree}
    (h : readProgram tokens = .ok (trees, rest)) :
    ∃ front, tokens = front ++ rest ∧ Derives (.many (.rule .statement)) front trees ∧
      nestings trees ≤ nestingLimit := by
  obtain ⟨front, hfront, hlanguage⟩ :=
    Phrase.read_sound (readNested_sound nestingLimit) program _ _ _ h
  rw [program_language] at hlanguage
  exact ⟨front, hfront, hlanguage⟩

-- A program that is read to its end becomes the children of the root.
theorem ofTokens?_of_ok {tokens : List Token} {trees : List ParseTree}
    (h : readProgram tokens = .ok (trees, [])) :
    ParseTree.ofTokens? tokens = .ok (ofRule .root trees) := by
  unfold ParseTree.ofTokens? Reading.next
  rw [show (Reading.start tokens).tokens.drop (Reading.start tokens).position = tokens from rfl, h]

theorem ofTokens?_of_error {tokens : List Token} {failure : Failure}
    (h : readProgram tokens = .error failure) :
    ParseTree.ofTokens? tokens =
      .error (.ofFailure (tokens.length - failure.rest.length) failure) := by
  unfold ParseTree.ofTokens? Reading.next
  rw [show (Reading.start tokens).tokens.drop (Reading.start tokens).position = tokens from rfl, h]
  rfl

theorem readProgram_of_ok {tokens : List Token} {tree : ParseTree}
    (h : ParseTree.ofTokens? tokens = .ok tree) :
    ∃ trees, readProgram tokens = .ok (trees, []) ∧ tree = ofRule .root trees := by
  cases hread : readProgram tokens with
  | error failure =>
    rw [ofTokens?_of_error hread] at h
    simp at h
  | ok result =>
    obtain ⟨trees, rest⟩ := result
    unfold ParseTree.ofTokens? Reading.next at h
    rw [show (Reading.start tokens).tokens.drop (Reading.start tokens).position = tokens from rfl,
      hread] at h
    cases rest with
    | nil => exact ⟨trees, rfl, (Except.ok.inj h).symm⟩
    | cons found rest => simp at h

/-- A program has one derivation tree at most. -/
theorem isProgram_unique {tokens : List Token} {tree other : ParseTree}
    (htree : IsProgram tokens tree) (hother : IsProgram tokens other) : tree = other := by
  obtain ⟨trees, rfl, hderives⟩ := isProgram_iff.1 htree
  obtain ⟨others, rfl, hderived⟩ := isProgram_iff.1 hother
  -- with levels enough for both trees the reader would have to give both
  have hread := read_program hderives (Nat.le_max_left (nestings trees) (nestings others))
  rw [read_program hderived (Nat.le_max_right ..)] at hread
  rw [(Prod.mk.inj (Except.ok.inj hread)).1]

/-- The reader gives a tree exactly if it is a derivation tree within the limit. -/
theorem ofTokens?_eq_ok_iff {tokens : List Token} {tree : ParseTree} :
    ParseTree.ofTokens? tokens = .ok tree ↔
      IsProgram tokens tree ∧ nesting tree ≤ nestingLimit := by
  constructor
  · intro h
    obtain ⟨trees, hread, rfl⟩ := readProgram_of_ok h
    obtain ⟨front, rfl, hderives, hle⟩ := readProgram_sound hread
    rw [List.append_nil, nesting_root]
    exact ⟨.rule hderives, hle⟩
  · rintro ⟨h, hle⟩
    obtain ⟨trees, rfl, hderives⟩ := isProgram_iff.1 h
    rw [nesting_root] at hle
    exact ofTokens?_of_ok (read_program hderives hle)

/-- A program that nests too deep is refused for just that reason. -/
theorem ofTokens?_tooDeep {tokens : List Token} {tree : ParseTree} (h : IsProgram tokens tree)
    (hlt : nestingLimit < nesting tree) :
    ∃ position, ParseTree.ofTokens? tokens = .error (.tooDeep position) := by
  obtain ⟨trees, rfl, hderives⟩ := isProgram_iff.1 h
  rw [nesting_root] at hlt
  have hlong := read_program hderives (Nat.le_refl (nestings trees))
  rcases Phrase.read_upToDepth (readNested_upToDepth (Nat.le_of_lt hlt)) program tokens with
    heq | ⟨rest, heq⟩
  · -- reading within the limit cannot give a tree that nests deeper
    obtain ⟨_, _, _, hle⟩ := readProgram_sound (heq.trans hlong)
    omega
  · exact ⟨_, ofTokens?_of_error heq⟩

/-- The reader accepts exactly the programs of the grammar that nest at most 128 levels deep, and
gives their only derivation tree; a program that nests deeper is too deep. -/
theorem ofTokens?_accepts_exactly (tokens : List Token) :
    (∀ tree, ParseTree.ofTokens? tokens = .ok tree ↔ IsProgram tokens tree ∧ nesting tree ≤ 128) ∧
      (∀ tree other, IsProgram tokens tree → IsProgram tokens other → tree = other) ∧
      (∀ tree, IsProgram tokens tree → 128 < nesting tree →
        ∃ position, ParseTree.ofTokens? tokens = .error (.tooDeep position)) :=
  ⟨fun _ => ofTokens?_eq_ok_iff, fun _ _ => isProgram_unique, fun _ => ofTokens?_tooDeep⟩

end ThreeAddress.Grammar
