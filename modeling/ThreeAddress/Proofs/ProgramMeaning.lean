import ThreeAddress.Listing
import ThreeAddress.Proofs.Acceptance
import ThreeAddress.Proofs.Effect

/-!
# Programs and their code

A derivation tree has the form that its meaning asks for: every expression in it stands for
something, and every assignment and every declaration can be executed. So the code of a program does
what the program does.
-/

namespace ThreeAddress

open Equation Grammar

universe u

/-! ## Tokens of a text -/

/-- The kind of the token is the one that its text has. -/
def Token.IsScanned (token : Token) : Prop :=
  token.kind = Token.Kind.ofText token.text

theorem Token.isScanned_of_mem_scan {text : String} {token : Token} (h : token ∈ Token.scan text) :
    token.IsScanned := by
  obtain ⟨piece, -, rfl⟩ := List.mem_map.1 h
  rfl

theorem Token.isIdentifier_of_isTemporaryName {name : String} (h : isTemporaryName name = true) :
    Token.isIdentifier name.toList = true := by
  unfold isTemporaryName at h
  split at h
  · rename_i digits hname
    rw [hname, Token.isIdentifier]
    rw [Token.isNumber, Bool.and_eq_true, List.all_eq_true] at h
    refine Bool.and_eq_true_iff.2 ⟨by decide, List.all_eq_true.2 fun c hmem => ?_⟩
    rw [Char.isAlphanum, h.2 c hmem, Bool.or_true, Bool.true_or]
  · cases h

-- Only an identifier can have the name of a temporary.
theorem Token.kind_of_isTemporaryName {token : Token} (hscanned : token.IsScanned)
    (h : isTemporaryName token.text = true) : token.kind = .identifier := by
  have hreserved := Token.not_mem_reservedWords isTemporaryName (by decide) h
  rw [hscanned, Token.Kind.ofText_of_not_mem hreserved,
    if_pos (Token.isIdentifier_of_isTemporaryName h)]

theorem Token.text_ne_equals {token : Token} (hscanned : token.IsScanned)
    (h : token.kind = .identifier) : token.text ≠ "=" := by
  intro htext
  rw [hscanned, htext] at h
  revert h
  decide

/-! ## Operators and their signs -/

/-- How many operators the expression has. -/
def Equation.Expr.joins : Expr → Nat
  | .operand _ => 0
  | .binary _ left right => left.joins + right.joins + 1

namespace Grammar

/-- The sign of an arithmetic operator. -/
def arithmeticSign : Pattern :=
  .word .symbol ["+", "-", "*", "/"]

theorem arithmeticSign_accepts {op : Operator} (h : op.isArithmetic = true) :
    arithmeticSign.accepts ⟨.symbol, op.symbol⟩ = true := by
  revert h
  cases op <;> decide

theorem not_arithmeticSign_accepts {token : Token}
    (h : token.kind ∈ [Token.Kind.number, .identifier, .string]) :
    ¬arithmeticSign.accepts token = true := by
  intro haccepts
  rw [arithmeticSign, Pattern.accepts, Bool.and_eq_true] at haccepts
  rw [eq_of_beq haccepts.1] at h
  revert h
  decide

end Grammar

/-! ## Trees of a derivation -/

namespace Grammar.Derives

/-- What holds of the rules and of the texts of all tokens holds of all labels. -/
theorem all_labels {condition : Label → Prop} {form : Ebnf} {tokens : List Token}
    {trees : List ParseTree} (hrules : ∀ rule, condition (.rule rule))
    (h : Derives form tokens trees) (htokens : ∀ token ∈ tokens, condition (.terminal token.text)) :
    ∀ tree ∈ trees, tree.All condition := by
  induction h with
  | empty | nil => exact fun _ hmem => absurd hmem List.not_mem_nil
  | word kind text | ofKind kind text =>
    intro tree hmem
    rw [List.mem_singleton.1 hmem]
    exact .node (htokens _ (List.mem_singleton_self _)) fun _ hmem => absurd hmem List.not_mem_nil
  | @rule rule _ _ _ ih =>
    intro tree hmem
    rw [List.mem_singleton.1 hmem]
    exact .node (hrules rule) (ih htokens)
  | left _ ih | right _ ih => exact ih htokens
  | seq _ _ ihfront ihback | cons _ _ ihfront ihback =>
    have hfront := ihfront fun token hmem => htokens token (List.mem_append_left _ hmem)
    have hback := ihback fun token hmem => htokens token (List.mem_append_right _ hmem)
    exact fun tree hmem => (List.mem_append.1 hmem).elim (hfront tree) (hback tree)

-- If no token has the name of a temporary, no tree derived from them has.
theorem avoidsTemporaries {form : Ebnf} {tokens : List Token} {trees : List ParseTree}
    (h : Derives form tokens trees)
    (hnames : ∀ token ∈ tokens, isTemporaryName token.text = false) :
    ∀ tree ∈ trees, tree.AvoidsTemporaries := by
  have hrules (rule : Rule) : isTemporaryName rule.name = false := by
    cases rule <;> decide
  exact h.all_labels hrules hnames

/-! ### Expressions -/

-- The token and the tree of an operator sign.
theorem exists_operator (first second : Operator) {tokens : List Token} {trees : List ParseTree}
    (hfirst : first.isArithmetic = true) (hsecond : second.isArithmetic = true)
    (h : Derives (.oneOf [mark first.symbol, mark second.symbol]) tokens trees) :
    ∃ op : Operator, op.isArithmetic = true ∧ tokens = [⟨.symbol, op.symbol⟩] ∧
      trees = [ParseTree.terminal op.symbol] := by
  rcases h.of_either with h | h
  · exact ⟨first, hfirst, h.of_word⟩
  · exact ⟨second, hsecond, h.of_word⟩

section Operands

variable {signs : Ebnf} {operand : Rule} {tokens : List Token} {trees : List ParseTree}
  (hsigns : ∀ {tokens trees}, Derives signs tokens trees →
    ∃ op : Operator, op.isArithmetic = true ∧ tokens = [⟨.symbol, op.symbol⟩] ∧
      trees = [ParseTree.terminal op.symbol])
  (hoperand : ∀ tree ∈ trees, ∀ tokens, Derives (.rule operand) tokens [tree] →
    ∃ expr, tree.expr? = some expr ∧ expr.joins = tokens.countP arithmeticSign.accepts)
include hsigns hoperand

-- A chain of operands that stand for something stands for something, whatever it starts from.
theorem exists_chain? (h : Derives (.many (.seq signs (.rule operand))) tokens trees)
    (left : Expr) :
    ∃ expr, ParseTree.chain? .operand .binary left trees = some expr ∧
      expr.joins = left.joins + tokens.countP arithmeticSign.accepts := by
  induction h using many_induction generalizing left with
  | nil => exact ⟨left, by rw [ParseTree.chain?], rfl⟩
  | cons front back signed rest hitem _ ih =>
    obtain ⟨_, nextTokens, _, _, rfl, rfl, hsign, hnext⟩ := hitem.of_seq
    obtain ⟨op, harith, rfl, rfl⟩ := hsigns hsign
    obtain ⟨children, hbody, rfl⟩ := hnext.of_rule
    obtain ⟨right, hright, hcount⟩ :=
      hoperand (ParseTree.ofRule operand children) (by simp) _ (.rule hbody)
    obtain ⟨expr, hexpr, htotal⟩ :=
      ih (fun tree hmem => hoperand tree (by simp [hmem])) (.binary op left right)
    refine ⟨expr, (ParseTree.chain?_cons harith hright left rest).trans hexpr, ?_⟩
    rw [htotal, Expr.joins, hcount, List.countP_append, List.singleton_append,
      List.countP_cons_of_pos (arithmeticSign_accepts harith)]
    omega

-- Operands of one rule with arithmetic signs between them fold to one expression.
theorem exists_fold
    (h : Derives (.seq (.rule operand) (.many (.seq signs (.rule operand)))) tokens trees) :
    ∃ first rest expr, trees = first :: rest ∧
      ((ParseTree.expr? first).bind fun left => ParseTree.chain? .operand .binary left rest) =
        some expr ∧
      expr.joins = tokens.countP arithmeticSign.accepts := by
  obtain ⟨front, back, _, rest, rfl, rfl, hfirst, hrest⟩ := h.of_seq
  obtain ⟨children, hbody, rfl⟩ := hfirst.of_rule
  obtain ⟨left, hleft, hcount⟩ :=
    hoperand (ParseTree.ofRule operand children) (by simp) _ (.rule hbody)
  obtain ⟨expr, hexpr, htotal⟩ :=
    exists_chain? hsigns (fun tree hmem => hoperand tree (by simp [hmem])) hrest left
  refine ⟨_, rest, expr, rfl, Option.bind_eq_some_iff.2 ⟨left, hleft, hexpr⟩, ?_⟩
  rw [htotal, hcount, List.countP_append]

end Operands

/-- An expression, a term or a factor stands for something, with as many operators as there are
signs of them. -/
theorem exists_expr?_joins {tree : ParseTree} : ∀ {rule : Rule} {tokens : List Token},
    rule ∈ [Rule.expression, .term, .factor] → Derives (.rule rule) tokens [tree] →
      ∃ expr, tree.expr? = some expr ∧ expr.joins = tokens.countP arithmeticSign.accepts := by
  induction tree using Tree.childInduction with
  | node value children ih =>
    intro rule tokens hrule h
    obtain ⟨_, hbody, htree⟩ := h.of_rule
    rw [ParseTree.ofRule, List.singleton_inj, Tree.node.injEq] at htree
    obtain ⟨rfl, rfl⟩ := htree
    -- the operands of a rule are of the next rule, and a group leads back to the first
    have hexpression : Rule.expression ∈ [Rule.expression, .term, .factor] := by decide
    have hterm : Rule.term ∈ [Rule.expression, .term, .factor] := by decide
    have hfactor : Rule.factor ∈ [Rule.expression, .term, .factor] := by decide
    simp only [List.mem_cons, List.not_mem_nil, or_false] at hrule
    rcases hrule with rfl | rfl | rfl
    · obtain ⟨first, rest, expr, rfl, hexpr, hcount⟩ :=
        exists_fold (exists_operator .add .sub rfl rfl)
          (fun child hmem _ => ih child hmem hterm) hbody
      exact ⟨expr, (ParseTree.expr?_expression first rest).trans hexpr, hcount⟩
    · obtain ⟨first, rest, expr, rfl, hexpr, hcount⟩ :=
        exists_fold (exists_operator .mul .div rfl rfl)
          (fun child hmem _ => ih child hmem hfactor) hbody
      exact ⟨expr, (ParseTree.expr?_term first rest).trans hexpr, hcount⟩
    · rcases hbody.of_factor with ⟨token, hkind, rfl, rfl⟩ | ⟨part, inner, hinner, rfl, rfl⟩
      · refine ⟨_, ParseTree.expr?_operand token.text, ?_⟩
        rw [List.countP_singleton, if_neg (not_arithmeticSign_accepts hkind)]
        rfl
      · obtain ⟨expr, hexpr, hcount⟩ := ih inner (by simp) hexpression hinner
        refine ⟨expr, (ParseTree.expr?_group inner).trans hexpr, ?_⟩
        -- parentheses are no arithmetic signs
        rw [List.countP_cons_of_neg (by decide), List.countP_append, hcount]
        rfl

theorem exists_expr? {tree : ParseTree} {rule : Rule} {tokens : List Token}
    (hrule : rule ∈ [Rule.expression, .term, .factor]) (h : Derives (.rule rule) tokens [tree]) :
    ∃ expr, tree.expr? = some expr := by
  obtain ⟨expr, hexpr, -⟩ := exists_expr?_joins hrule h
  exact ⟨expr, hexpr⟩

/-! ### Statements -/

theorem value_terminal_ne {text : String} (h : text ≠ "=") :
    Tree.value (ParseTree.terminal text) ≠ .terminal "=" :=
  fun heq => h (Label.terminal.inj heq)

-- The type of a declaration is one of three words, none of which is an equals sign.
theorem type_ne_equals {type : String} (h : type ∈ ["int", "float", "void"]) : type ≠ "=" := by
  rintro rfl
  revert h
  decide

section Statements

variable {V : Type u} (interpret : Operator → V → V → V)

theorem exists_assign? {name value : ParseTree} {tokens : List Token}
    (h : Derives (.rule .expression) tokens [value]) (env : Environment V) :
    ∃ final, ParseTree.assign? interpret name value env = some final := by
  obtain ⟨expr, hexpr⟩ := exists_expr? (List.mem_cons_self) h
  rw [ParseTree.assign?, ParseTree.value?_eq, hexpr]
  exact ⟨_, rfl⟩

/-- What follows a declarator: no equals sign comes first, and it can be executed. -/
def Continues (rest : List ParseTree) : Prop :=
  (∀ next ∈ rest.head?, Tree.value next ≠ .terminal "=") ∧
    ∀ env, ∃ final, ParseTree.initialize? interpret rest env = some final

theorem continues_nil : Continues interpret [] := by
  refine ⟨fun _ hnext => ?_, fun env => ⟨env, by rw [ParseTree.initialize?]⟩⟩
  cases hnext

theorem Continues.cons {tree : ParseTree} {rest : List ParseTree}
    (hrest : Continues interpret rest) (htree : tree.value ≠ .terminal "=") :
    Continues interpret (tree :: rest) := by
  refine ⟨fun next hnext => ?_, fun env => ?_⟩
  · cases hnext
    exact htree
  · rw [ParseTree.initialize?_of_ne interpret htree hrest.1]
    exact hrest.2 env

-- A declarator in front of what can follow one.
theorem Continues.declarator {tokens : List Token} {trees rest : List ParseTree}
    (hrest : Continues interpret rest) (h : Derives declaratorForm tokens trees)
    (hnames : ∀ token ∈ tokens, token.kind = .identifier → token.text ≠ "=") :
    Continues interpret (trees ++ rest) := by
  obtain ⟨name, hdeclarator⟩ := h.of_declarator
  rcases hdeclarator with ⟨rfl, rfl⟩ | ⟨part, children, hvalue, rfl, rfl⟩
  · exact hrest.cons interpret (value_terminal_ne (hnames _ List.mem_cons_self rfl))
  · have hne := value_terminal_ne (hnames ⟨.identifier, name⟩ List.mem_cons_self rfl)
    refine ⟨fun next hnext => ?_, fun env => ?_⟩
    · cases hnext
      exact hne
    · obtain ⟨middle, hmiddle⟩ := exists_assign? interpret hvalue env
      obtain ⟨final, hfinal⟩ := hrest.2 middle
      refine ⟨final, ?_⟩
      show ParseTree.initialize? interpret (_ :: ParseTree.terminal "=" :: _ :: rest) env = _
      rw [ParseTree.initialize?_of_eq interpret hne, hmiddle]
      exact hfinal

-- Further declarators, each behind a comma.
theorem Continues.declarators {tokens : List Token} {trees rest : List ParseTree}
    (hrest : Continues interpret rest)
    (h : Derives (.many (.all [mark ",", declaratorForm])) tokens trees)
    (hnames : ∀ token ∈ tokens, token.kind = .identifier → token.text ≠ "=") :
    Continues interpret (trees ++ rest) := by
  induction h using many_induction with
  | nil => exact hrest
  | cons front back left right hitem _ ih =>
    obtain ⟨_, _, _, _, rfl, rfl, hcomma, hdeclarator⟩ := hitem.of_seq
    obtain ⟨rfl, rfl⟩ := hcomma.of_word
    have hright := ih fun token hmem => hnames token (by simp [hmem])
    rw [List.append_assoc, List.append_assoc]
    have hback := hright.declarator interpret hdeclarator fun token hmem =>
      hnames token (by simp [hmem])
    exact hback.cons interpret (by decide)

-- The children of a declaration can be executed from the type on.
theorem continues_declaration {tokens : List Token} {trees : List ParseTree}
    (h : Derives (production .variableDeclaration) tokens trees)
    (hnames : ∀ token ∈ tokens, token.kind = .identifier → token.text ≠ "=") :
    Continues interpret trees := by
  obtain ⟨type, front, back, left, right, htype, hfirst, hmore, rfl, rfl⟩ := h.of_declaration
  have hlast : Continues interpret [ParseTree.terminal ";"] :=
    (continues_nil interpret).cons interpret (by decide)
  have hothers := (hlast.declarators interpret hmore fun token hmem =>
    hnames token (by simp [hmem])).declarator interpret hfirst fun token hmem =>
      hnames token (by simp [hmem])
  exact hothers.cons interpret (value_terminal_ne (type_ne_equals htype))

theorem exists_execute?_assignment {tokens : List Token} {trees : List ParseTree}
    (h : Derives (production .assignment) tokens trees) (env : Environment V) :
    ∃ final,
      ParseTree.execute? interpret (ParseTree.ofRule .assignment trees) env = some final := by
  obtain ⟨name, part, value, hvalue, -, rfl⟩ := h.of_assignment
  exact exists_assign? interpret hvalue env

-- Trees that can be executed one by one can be executed in a row.
theorem exists_executeAll? {trees : List ParseTree}
    (h : ∀ tree ∈ trees, ∀ env, ∃ final, ParseTree.execute? interpret tree env = some final)
    (env : Environment V) : ∃ final, ParseTree.executeAll? interpret trees env = some final := by
  induction trees generalizing env with
  | nil => exact ⟨env, by rw [ParseTree.executeAll?]⟩
  | cons tree trees ih =>
    obtain ⟨middle, hmiddle⟩ := h tree List.mem_cons_self env
    obtain ⟨final, hfinal⟩ := ih (fun other hmem => h other (List.mem_cons_of_mem _ hmem)) middle
    refine ⟨final, ?_⟩
    rw [ParseTree.executeAll?, hmiddle]
    exact hfinal

/-- A derived tree can be executed in every environment. -/
theorem exists_execute? {tree : ParseTree} : ∀ {rule : Rule} {tokens : List Token},
    Derives (.rule rule) tokens [tree] →
      (∀ token ∈ tokens, token.kind = .identifier → token.text ≠ "=") →
        ∀ env, ∃ final, tree.execute? interpret env = some final := by
  induction tree using Tree.childInduction with
  | node value children ih =>
    intro rule tokens h hnames env
    obtain ⟨_, hbody, htree⟩ := h.of_rule
    rw [ParseTree.ofRule, List.singleton_inj, Tree.node.injEq] at htree
    obtain ⟨rfl, rfl⟩ := htree
    by_cases hassign : rule = .assignment
    · subst hassign
      exact exists_execute?_assignment interpret hbody env
    · by_cases hdeclare : rule = .variableDeclaration
      · subst hdeclare
        exact (continues_declaration interpret hbody hnames).2 env
      · rw [ParseTree.execute?_of_ne interpret hassign hdeclare]
        by_cases hrule : rule ∈ Rule.containers
        · rw [if_pos hrule]
          refine exists_executeAll? interpret (fun child hmem env => ?_) env
          -- a child is a token, which does nothing, or derives from a rule by itself
          rcases hbody.parts hmem with ⟨token, -, rfl⟩ | ⟨inner, part, hpart, hderives⟩
          · exact ⟨env, ParseTree.execute?.eq_1 ..⟩
          · exact ih child hmem hderives (fun token htoken => hnames token (hpart htoken)) env
        · rw [if_neg hrule]
          exact ⟨env, rfl⟩

end Statements

end Grammar.Derives

/-! ## The code of a program -/

namespace Listing

-- A listing holds what each stage makes of the outcome of the one before.
theorem parts_of_ofSource? {source : String} {listing : Listing}
    (h : ofSource? source none = .ok listing) :
    listing.tokens = Token.scan (Text.removeComments source) ∧
      ParseTree.ofTokens? listing.tokens = .ok listing.tree ∧
      Code.ofProgram? listing.tree = .ok listing.code := by
  rw [ofSource?_none] at h
  split at h
  · cases h
  rename_i tree htree
  split at h
  · cases h
  rename_i code hcode
  cases h
  dsimp only
  exact ⟨rfl, htree, hcode⟩

variable {V : Type u} (interpret : Operator → V → V → V)

/-- The code of a program does what the program does. If no identifier has the name of a temporary,
the program can be executed in every environment, and running its code gives the same value to every
name that no temporary has. -/
theorem ofSource?_preserves_meaning {source : String} {listing : Listing}
    (h : ofSource? source none = .ok listing)
    (hnames : ∀ token ∈ listing.tokens, token.kind = .identifier →
      isTemporaryName token.text = false) (env : Environment V) :
    ∃ final, listing.tree.execute? interpret env = some final ∧
      ∀ name, isTemporaryName name = false →
        listing.code.run interpret env name = final name := by
  obtain ⟨htokens, htree, hcode⟩ := parts_of_ofSource? h
  -- tokens of a text have the kinds of their texts, so only identifiers need to be looked at
  have hscanned : ∀ token ∈ listing.tokens, token.IsScanned := by
    intro token hmem
    rw [htokens] at hmem
    exact Token.isScanned_of_mem_scan hmem
  have hderives := (ofTokens?_eq_ok_iff.1 htree).1
  have havoids : listing.tree.AvoidsTemporaries := by
    refine hderives.avoidsTemporaries (fun token hmem => ?_) _ (List.mem_singleton_self _)
    by_cases htemporary : isTemporaryName token.text = true
    · have hkind := Token.kind_of_isTemporaryName (hscanned token hmem) htemporary
      exact hnames token hmem hkind
    · exact Bool.eq_false_iff.2 htemporary
  have hequals : ∀ token ∈ listing.tokens, token.kind = .identifier → token.text ≠ "=" :=
    fun token hmem => Token.text_ne_equals (hscanned token hmem)
  -- the program has an outcome, and its code, run along with it, reaches the same
  obtain ⟨final, hfinal⟩ := hderives.exists_execute? interpret hequals env
  obtain ⟨later, hlater, hagree⟩ := Lowering.realizes_statement interpret listing.tree havoids
    Code.empty env env final (fun _ _ => rfl) hfinal
  have hlistingcode : listing.code = later := by
    rw [Code.ofProgram?, hlater] at hcode
    exact (Except.ok.inj hcode).symm
  rw [hlistingcode]
  exact ⟨final, hfinal, hagree⟩

theorem ofSource?_preserves_meaning_loop :
    ∃ listing final,
      ofSource? "int a = 2, b; while (a) b = (a - 1) * 3;" none = .ok listing ∧
      (∀ token ∈ listing.tokens, token.kind = .identifier → isTemporaryName token.text = false) ∧
      listing.tree.execute? Operator.onIntegers (fun _ => 1) = some final ∧
      ∀ name, isTemporaryName name = false →
        listing.code.run Operator.onIntegers (fun _ => 1) name = final name := by
  have hok : (ofSource? "int a = 2, b; while (a) b = (a - 1) * 3;" none).isOk = true := by
    decide +kernel
  match hlisting : ofSource? "int a = 2, b; while (a) b = (a - 1) * 3;" none with
  | .error error =>
    rw [hlisting] at hok
    cases hok
  | .ok listing =>
    have hnames : ∀ token ∈ listing.tokens, token.kind = .identifier →
        isTemporaryName token.text = false := by
      rw [(parts_of_ofSource? hlisting).1]
      decide +kernel
    obtain ⟨final, hfinal, hagree⟩ :=
      ofSource?_preserves_meaning Operator.onIntegers hlisting hnames (fun _ => 1)
    exact ⟨listing, final, rfl, hnames, hfinal, hagree⟩

end Listing

end ThreeAddress
