import Mathlib.Data.List.Forall2
import ThreeAddress.Proofs.Lowerable

/-!
# The code of a program, assignment by assignment

The equals signs of a program are those of its assignments and initial values, wherever they are
nested, and nothing else gives code. So the code is cut into one block for each equals sign, in
order. The block has an operator for each arithmetic sign up to the next comma or semicolon, and
then one copy to the name in front of the equals sign.
-/

namespace ThreeAddress

open Equation Grammar

/-- What ends an assignment or an initial value. -/
def Grammar.separator : Pattern :=
  .word .symbol [",", ";"]

namespace Token

def equals : Token :=
  ⟨.symbol, "="⟩

/-- The positions of the equals signs, in order. -/
def equalsSigns (tokens : List Token) : List Nat :=
  (List.range tokens.length).filter fun position => tokens[position]? == some equals

theorem equalsSigns_append (front back : List Token) :
    equalsSigns (front ++ back) =
      equalsSigns front ++ (equalsSigns back).map (front.length + ·) := by
  unfold equalsSigns
  rw [List.length_append, List.range_add, List.filter_append, List.filter_map]
  congr 1
  · refine List.filter_congr fun position hmem => ?_
    rw [List.getElem?_append_left (List.mem_range.1 hmem)]
  · refine congrArg _ (List.filter_congr fun position _ => ?_)
    show ((front ++ back)[front.length + position]? == some equals) = _
    rw [List.getElem?_append_right (Nat.le_add_right _ _), Nat.add_sub_cancel_left]

theorem equalsSigns_eq_nil {tokens : List Token} (h : equals ∉ tokens) :
    equalsSigns tokens = [] := by
  refine List.filter_eq_nil_iff.2 fun position _ hfound => h ?_
  exact List.mem_of_getElem? (eq_of_beq hfound)

end Token

/-! ## Blocks of code -/

open Token

/-- The instructions are the code of the assignment whose equals sign has the position: an operator
for each arithmetic sign before the next separator, and a copy to the name in front. -/
inductive AssignsAt : List Token → Nat → List Instruction → Prop where
  | intro (front : List Token) {between back : List Token} {name stop : Token}
      {operators : List Instruction} (source : String)
      (stops : separator.accepts stop = true)
      (goesOn : ∀ token ∈ between, separator.accepts token = false)
      (binary : ∀ instruction ∈ operators, instruction.isBinary = true)
      (count : operators.length = between.countP arithmeticSign.accepts) :
      AssignsAt (front ++ name :: equals :: (between ++ stop :: back)) (front.length + 1)
        (operators ++ [.copy name.text source])

/-- The instructions are the code of the assignments in the tokens, in order. -/
def Accounts (tokens : List Token) (instructions : List Instruction) : Prop :=
  ∃ blocks, instructions = blocks.flatten ∧
    List.Forall₂ (AssignsAt tokens) (equalsSigns tokens) blocks

theorem AssignsAt.append_right {tokens : List Token} {position : Nat} {block : List Instruction}
    (h : AssignsAt tokens position block) (more : List Token) :
    AssignsAt (tokens ++ more) position block := by
  obtain ⟨front, source, hstop, hbetween, hbinary, hcount⟩ := h
  rw [List.append_assoc, List.cons_append, List.cons_append, List.append_assoc, List.cons_append]
  exact .intro _ source hstop hbetween hbinary hcount

theorem AssignsAt.append_left {tokens : List Token} {position : Nat} {block : List Instruction}
    (h : AssignsAt tokens position block) (more : List Token) :
    AssignsAt (more ++ tokens) (more.length + position) block := by
  obtain ⟨front, source, hstop, hbetween, hbinary, hcount⟩ := h
  rw [← List.append_assoc, ← Nat.add_assoc, ← List.length_append]
  exact .intro _ source hstop hbetween hbinary hcount

theorem accounts_nil {tokens : List Token} (h : equals ∉ tokens) : Accounts tokens [] := by
  refine ⟨[], rfl, ?_⟩
  rw [equalsSigns_eq_nil h]
  exact .nil

theorem Accounts.append {front back : List Token} {first second : List Instruction}
    (hfirst : Accounts front first) (hsecond : Accounts back second) :
    Accounts (front ++ back) (first ++ second) := by
  obtain ⟨left, rfl, hleft⟩ := hfirst
  obtain ⟨right, rfl, hright⟩ := hsecond
  refine ⟨left ++ right, List.flatten_append.symm, ?_⟩
  rw [equalsSigns_append]
  refine List.rel_append (hleft.imp fun _ _ h => h.append_right back) ?_
  rw [List.forall₂_map_left_iff]
  exact hright.imp fun _ _ h => h.append_left front

/-- An assignment in front of the separator that ends it. -/
theorem Accounts.assignment {name stop : Token} {between back : List Token}
    {operators instructions : List Instruction} (hrest : Accounts (stop :: back) instructions)
    (source : String) (hname : name ≠ equals) (hequals : equals ∉ between)
    (hstop : separator.accepts stop = true)
    (hbetween : ∀ token ∈ between, separator.accepts token = false)
    (hbinary : ∀ instruction ∈ operators, instruction.isBinary = true)
    (hcount : operators.length = between.countP arithmeticSign.accepts) :
    Accounts (name :: equals :: (between ++ stop :: back))
      (operators ++ [.copy name.text source] ++ instructions) := by
  obtain ⟨blocks, rfl, hblocks⟩ := hrest
  refine ⟨(operators ++ [.copy name.text source]) :: blocks, rfl, ?_⟩
  have hfront : equalsSigns (name :: equals :: between) = [1] := by
    rw [show name :: equals :: between = [name] ++ ([equals] ++ between) from rfl,
      equalsSigns_append, equalsSigns_append, equalsSigns_eq_nil hequals,
      equalsSigns_eq_nil (by simpa using hname.symm)]
    rfl
  have hsigns : equalsSigns (name :: equals :: (between ++ stop :: back)) =
      1 :: (equalsSigns (stop :: back)).map ((name :: equals :: between).length + ·) := by
    rw [show name :: equals :: (between ++ stop :: back) =
      (name :: equals :: between) ++ stop :: back from rfl, equalsSigns_append, hfront]
    rfl
  rw [hsigns]
  refine .cons ?_ ?_
  · exact AssignsAt.intro [] source hstop hbetween hbinary hcount
  · rw [List.forall₂_map_left_iff]
    exact hblocks.imp fun _ _ h => h.append_left (name :: equals :: between)

/-! ## Where tokens can stand -/

namespace Ebnf

/-- Whether the form itself, apart from the rules in it, has a place for the token. -/
def admits (token : Token) : Ebnf → Bool
  | .word kind text => kind == token.kind && text == token.text
  | .ofKind kind => kind == token.kind
  | .seq first second | .either first second => first.admits token || second.admits token
  | .many body => body.admits token
  | _ => false

end Ebnf

namespace Grammar

/-- Whether the rules lead to no other rules and have no place for the token. -/
def excludes (rules : List Rule) (token : Token) : Bool :=
  rules.all fun rule =>
    !(production rule).admits token && (production rule).rules.all rules.contains

/-- The rules that no statement is derived by way of and that give no code of their own. -/
def plainRules : List Rule :=
  [.returnStatement, .inputStatement, .outputStatement, .continueStatement, .breakStatement,
   .includeStatement, .usingNamespaceStatement, .callStatement, .functionCall, .expression, .term,
   .factor]

theorem mem_plainRules {rule : Rule} (hassign : rule ≠ .assignment)
    (hdeclare : rule ≠ .variableDeclaration) (hcontainer : rule ∉ Rule.containers) :
    rule ∈ plainRules := by
  revert hassign hdeclare hcontainer
  cases rule <;> decide

theorem not_mem_of_excludes {rules : List Rule} {token : Token}
    (hexcludes : excludes rules token = true) {form : Ebnf} {tokens : List Token}
    {trees : List ParseTree} (h : Derives form tokens trees) (hform : form.admits token = false)
    (hrules : form.rules ⊆ rules) : token ∉ tokens := by
  induction h with
  | empty | nil => exact List.not_mem_nil
  | word kind text =>
    intro hmem
    rw [List.mem_singleton.1 hmem, Ebnf.admits, beq_self_eq_true, beq_self_eq_true] at hform
    cases hform
  | ofKind kind text =>
    intro hmem
    rw [List.mem_singleton.1 hmem, Ebnf.admits, beq_self_eq_true] at hform
    cases hform
  | @rule rule _ _ _ ih =>
    have hrule := List.all_eq_true.1 hexcludes rule (hrules (List.mem_singleton_self rule))
    rw [Bool.and_eq_true, Bool.not_eq_true', List.all_eq_true] at hrule
    exact ih hrule.1 fun other hmem => List.contains_iff_mem.1 (hrule.2 other hmem)
  | left _ ih =>
    exact ih (Bool.or_eq_false_iff.1 hform).1
      (List.Subset.trans (List.subset_append_left _ _) hrules)
  | right _ ih =>
    exact ih (Bool.or_eq_false_iff.1 hform).2
      (List.Subset.trans (List.subset_append_right _ _) hrules)
  | seq _ _ ihfront ihback =>
    rw [Ebnf.admits, Bool.or_eq_false_iff] at hform
    rw [List.mem_append, not_or]
    exact ⟨ihfront hform.1 (List.Subset.trans (List.subset_append_left _ _) hrules),
      ihback hform.2 (List.Subset.trans (List.subset_append_right _ _) hrules)⟩
  | cons _ _ ihfront ihback =>
    rw [List.mem_append, not_or]
    exact ⟨ihfront hform hrules, ihback hform hrules⟩

-- There is an equals sign neither in an expression nor in a statement of another kind.
theorem equals_not_mem {rule : Rule} (hrule : rule ∈ plainRules) {tokens : List Token}
    {trees : List ParseTree} (h : Derives (.rule rule) tokens trees) : equals ∉ tokens :=
  not_mem_of_excludes (by decide : excludes plainRules equals = true) h rfl
    (List.cons_subset.2 ⟨hrule, List.nil_subset _⟩)

theorem not_separator_of_mem {tokens : List Token} {trees : List ParseTree}
    (h : Derives (.rule .expression) tokens trees) :
    ∀ token ∈ tokens, separator.accepts token = false := by
  intro token hmem
  rw [← Bool.not_eq_true]
  intro haccepts
  have hrules : Ebnf.rules (.rule .expression) ⊆ [.expression, .term, .factor] := by decide
  rw [separator, Pattern.accepts, Bool.and_eq_true, List.contains_iff_mem] at haccepts
  obtain ⟨kind, text⟩ := token
  obtain ⟨hkind, htext⟩ := haccepts
  obtain rfl := eq_of_beq hkind
  rw [List.mem_cons, List.mem_singleton] at htext
  rcases htext with rfl | rfl
  · exact not_mem_of_excludes (by decide) h rfl hrules hmem
  · exact not_mem_of_excludes (by decide) h rfl hrules hmem

end Grammar

/-! ## What steps add -/

namespace Equation.Expr

/-- Arithmetic operators only. -/
def isArithmetic : Expr → Bool
  | .operand _ => true
  | .binary op left right => op.isArithmetic && left.isArithmetic && right.isArithmetic

end Equation.Expr

theorem ParseTree.isArithmetic_of_expr? {tree : ParseTree} {expr : Expr}
    (h : tree.expr? = some expr) : expr.isArithmetic = true := by
  refine expr?_induction (fun _ expr => expr.isArithmetic = true)
    (fun left _ expr => left.isArithmetic = true → expr.isArithmetic = true)
    ?leaf ?group ?chain ?nil ?step h
  case leaf =>
    intro text
    rfl
  case group =>
    intro inner expr ih
    exact ih
  case chain =>
    intro rule first rest left expr _ ihfirst ihrest
    exact ihrest ihfirst
  case nil =>
    intro left hleft
    exact hleft
  case step =>
    intro symbol op left next right rest expr _ harith ihnext ihrest hleft
    refine ihrest ?_
    rw [Expr.isArithmetic, harith, hleft, ihnext]
    rfl

namespace Code

/-- Computing an arithmetic expression adds an instruction for each of its operators. -/
theorem exists_added_of_compute {expr : Expr} (h : expr.isArithmetic = true) (code : Code) :
    ∃ added, (code.compute expr).2.instructions.toList = code.instructions.toList ++ added ∧
      (∀ instruction ∈ added, instruction.isBinary = true) ∧ added.length = expr.joins := by
  induction expr generalizing code with
  | operand text => exact ⟨[], (List.append_nil _).symm, fun _ hmem => (nomatch hmem), rfl⟩
  | binary op left right ihleft ihright =>
    rw [Expr.isArithmetic, Bool.and_eq_true, Bool.and_eq_true] at h
    obtain ⟨⟨harith, hleft⟩, hright⟩ := h
    obtain ⟨front, hfront, hfrontBinary, hfrontLength⟩ := ihleft hleft code
    obtain ⟨back, hback, hbackBinary, hbackLength⟩ := ihright hright (code.compute left).2
    generalize hlast : (code.compute left).2.compute right = last at hback
    have hresult : (code.compute (.binary op left right)).2 =
        last.2.join op (code.compute left).1 last.1 := by
      rw [compute]
      dsimp only
      rw [hlast, apply_of_isArithmetic harith]
    refine ⟨front ++ back ++
      [.binary (temporary last.2.temporaries) (code.compute left).1 op last.1], ?_, ?_, ?_⟩
    · rw [hresult, join, Array.toList_push, hback, hfront, List.append_assoc, List.append_assoc,
        List.append_assoc]
    · intro instruction hmem
      rw [List.mem_append, List.mem_append, List.mem_singleton] at hmem
      rcases hmem with (hmem | hmem) | rfl
      · exact hfrontBinary instruction hmem
      · exact hbackBinary instruction hmem
      · rfl
    · rw [List.length_append, List.length_append, hfrontLength, hbackLength]
      rfl

end Code

namespace Lowering

/-- The step succeeds, and what it adds to the code is the code of the assignments in the tokens. -/
def Step.Emits (step : Step) (tokens : List Token) : Prop :=
  ∀ code, ∃ later added, step code = (.ok (), later) ∧
    later.instructions.toList = code.instructions.toList ++ added ∧ Accounts tokens added

theorem done_emits {tokens : List Token} (h : equals ∉ tokens) : Step.Emits done tokens :=
  fun code => ⟨code, [], rfl, (List.append_nil _).symm, accounts_nil h⟩

theorem Step.Emits.andThen {first second : Step} {front back : List Token}
    (hfirst : first.Emits front) (hsecond : second.Emits back) :
    Step.Emits (andThen first second) (front ++ back) := by
  intro code
  obtain ⟨middle, left, hmiddle, hleft, hfront⟩ := hfirst code
  obtain ⟨later, right, hlater, hright, hback⟩ := hsecond middle
  refine ⟨later, left ++ right, ?_, ?_, hfront.append hback⟩
  · rw [Lowering.andThen, hmiddle]
    exact hlater
  · rw [hright, hleft, List.append_assoc]

theorem Step.Emits.cons {step : Step} {tokens : List Token} (h : step.Emits tokens) {token : Token}
    (htoken : token ≠ equals) : step.Emits (token :: tokens) := by
  intro code
  obtain ⟨later, added, hlater, hadded, haccounts⟩ := h code
  have hfront : Accounts [token] [] := accounts_nil (by simpa using htoken.symm)
  exact ⟨later, added, hlater, hadded, hfront.append haccounts⟩

/-- A stored expression gives a block of its own, in front of what the separator after it
begins. -/
theorem emits_store {name : Token} (hname : name ≠ equals) {part back : List Token}
    {value : ParseTree} (hvalue : Derives (.rule .expression) part [value]) {stop : Token}
    (hstop : separator.accepts stop = true) {rest : Step} (hrest : rest.Emits (stop :: back)) :
    Step.Emits (andThen (store (ParseTree.terminal name.text) value) rest)
      (name :: equals :: (part ++ stop :: back)) := by
  intro code
  obtain ⟨expr, hexpr, hcount⟩ := Derives.exists_expr?_joins List.mem_cons_self hvalue
  obtain ⟨operators, hoperators, hbinary, hlength⟩ :=
    Code.exists_added_of_compute (ParseTree.isArithmetic_of_expr? hexpr) code
  have hstore : store (ParseTree.terminal name.text) value code =
      (.ok (), (code.compute expr).2.copy name.text (code.compute expr).1) := by
    rw [store, ParseTree.lower_of_expr? hexpr]
    rfl
  obtain ⟨later, added, hlater, hadded, haccounts⟩ :=
    hrest ((code.compute expr).2.copy name.text (code.compute expr).1)
  refine ⟨later, operators ++ [.copy name.text (code.compute expr).1] ++ added, ?_, ?_, ?_⟩
  · rw [andThen, hstore]
    exact hlater
  · rw [hadded, Code.copy, Array.toList_push, hoperators, List.append_assoc, List.append_assoc,
      List.append_assoc]
  · exact haccounts.assignment _ hname (equals_not_mem (by decide) hvalue) hstop
      (not_separator_of_mem hvalue) hbinary (hlength.trans hcount)

theorem andThen_done (step : Step) : andThen step done = step := by
  funext code
  unfold andThen
  cases step code with
  | mk outcome later => cases outcome <;> rfl

theorem andThen_assoc (first second third : Step) :
    andThen (andThen first second) third = andThen first (andThen second third) := by
  funext code
  unfold andThen
  cases first code with
  | mk outcome later => cases outcome <;> rfl

theorem statements_singleton (tree : ParseTree) : statements [tree] = statement tree := by
  rw [statements, statements, andThen_done]

theorem statements_append (left right : List ParseTree) :
    statements (left ++ right) = andThen (statements left) (statements right) := by
  induction left with
  | nil =>
    rw [List.nil_append, statements]
    rfl
  | cons tree left ih => rw [List.cons_append, statements, statements, ih, andThen_assoc]

end Lowering

/-! ## Assignments and declarations -/

namespace Grammar.Derives

open Lowering

theorem identifier_ne_equals (name : String) : (⟨.identifier, name⟩ : Token) ≠ equals :=
  ne_of_apply_ne Token.kind nofun

theorem reservedWord_ne_equals (text : String) : (⟨.reservedWord, text⟩ : Token) ≠ equals :=
  ne_of_apply_ne Token.kind nofun

theorem emits_assignment {tokens : List Token} {trees : List ParseTree}
    (h : Derives (production .assignment) tokens trees) :
    (Lowering.statement (ParseTree.ofRule .assignment trees)).Emits tokens := by
  obtain ⟨name, part, value, hvalue, rfl, rfl⟩ := h.of_assignment
  show Step.Emits (store (ParseTree.terminal name) value) _
  rw [← andThen_done (store _ _)]
  have hend : Step.Emits done [⟨.symbol, ";"⟩] := done_emits (by decide)
  exact emits_store (identifier_ne_equals name) hvalue rfl hend

section Declarations

variable (declaration : ParseTree)

/-- Whatever stands before these children of a declaration, they give the code of the assignments in
the tokens; no equals sign comes first. -/
structure Initializes (tokens : List Token) (trees : List ParseTree) : Prop where
  first : ∀ next ∈ trees.head?, Tree.value next ≠ .terminal "="
  emits : ∀ before, (initializers declaration before trees).Emits tokens

variable {declaration} {tokens back : List Token} {trees rest : List ParseTree}

theorem Initializes.cons (h : Initializes declaration tokens trees) {tree : ParseTree}
    (htree : tree.value ≠ .terminal "=") {token : Token} (htoken : token ≠ equals) :
    Initializes declaration (token :: tokens) (tree :: trees) where
  first next hnext := by
    cases hnext
    exact htree
  emits before := by
    rw [initializers_of_ne htree]
    exact (h.emits (some tree)).cons htoken

-- A declarator in front of the separator that ends it.
theorem Initializes.declarator {stop : Token}
    (hrest : Initializes declaration (stop :: back) rest) (hstop : separator.accepts stop = true)
    (h : Derives declaratorForm tokens trees)
    (hnames : ∀ token ∈ tokens, token.kind = .identifier → token.text ≠ "=") :
    Initializes declaration (tokens ++ stop :: back) (trees ++ rest) := by
  obtain ⟨name, hdeclarator⟩ := h.of_declarator
  rcases hdeclarator with ⟨rfl, rfl⟩ | ⟨part, children, hvalue, rfl, rfl⟩
  · exact hrest.cons (value_terminal_ne (hnames _ List.mem_cons_self rfl))
      (identifier_ne_equals name)
  · have hne := value_terminal_ne (hnames ⟨.identifier, name⟩ List.mem_cons_self rfl)
    have hinner : Tree.value (ParseTree.ofRule .expression children) ≠ .terminal "=" := nofun
    refine ⟨fun next hnext => ?_, fun before => ?_⟩
    · cases hnext
      exact hne
    · show (initializers declaration before (ParseTree.terminal name :: ParseTree.terminal "=" ::
        ParseTree.ofRule .expression children :: rest)).Emits
          (⟨.identifier, name⟩ :: equals :: (part ++ stop :: back))
      rw [initializers_of_ne hne, initializers_of_eq rfl, initializers_of_ne hinner]
      exact emits_store (identifier_ne_equals name) hvalue hstop (hrest.emits _)

-- Further declarators, each behind a comma, in front of the semicolon.
theorem initializes_declarators (h : Derives (.many (.all [mark ",", declaratorForm])) tokens trees)
    (hnames : ∀ token ∈ tokens, token.kind = .identifier → token.text ≠ "=") :
    ∃ stop back, separator.accepts stop = true ∧ tokens ++ [⟨.symbol, ";"⟩] = stop :: back ∧
      ∀ declaration,
        Initializes declaration (stop :: back) (trees ++ [ParseTree.terminal ";"]) := by
  induction h using many_induction with
  | nil =>
    have hend (declaration : ParseTree) : Initializes declaration [] [] :=
      ⟨fun _ hnext => (nomatch hnext), fun _ => done_emits List.not_mem_nil⟩
    exact ⟨_, [], rfl, rfl, fun declaration => (hend declaration).cons (by decide) (by decide)⟩
  | cons front back left right hitem _ ih =>
    obtain ⟨_, front, _, left, rfl, rfl, hcomma, hdeclarator⟩ := hitem.of_seq
    obtain ⟨rfl, rfl⟩ := hcomma.of_word
    obtain ⟨stop, others, hstop, hback, hright⟩ :=
      ih fun token hmem => hnames token (by simp [hmem])
    refine ⟨⟨.symbol, ","⟩, front ++ stop :: others, rfl, ?_, fun declaration => ?_⟩
    · rw [← hback, List.append_assoc, List.append_assoc]
      rfl
    · have hfront := (hright declaration).declarator hstop hdeclarator fun token hmem =>
        hnames token (by simp [hmem])
      rw [List.append_assoc, List.append_assoc]
      exact hfront.cons (by decide) (by decide)

theorem emits_declaration (h : Derives (production .variableDeclaration) tokens trees)
    (hnames : ∀ token ∈ tokens, token.kind = .identifier → token.text ≠ "=") :
    (Lowering.statement (ParseTree.ofRule .variableDeclaration trees)).Emits tokens := by
  obtain ⟨type, front, back, left, right, htype, hfirst, hmore, rfl, rfl⟩ := h.of_declaration
  obtain ⟨stop, others, hstop, hback, hothers⟩ := initializes_declarators hmore fun token hmem =>
    hnames token (by simp [hmem])
  rw [hback]
  have hdeclarators (declaration : ParseTree) :=
    (hothers declaration).declarator hstop hfirst fun token hmem => hnames token (by simp [hmem])
  have hword := value_terminal_ne (type_ne_equals htype)
  exact ((hdeclarators _).cons hword (reservedWord_ne_equals type)).emits none

end Declarations

/-! ## Statements -/

/-- The trees of a derivation give the code of the assignments in its tokens. -/
theorem emits_statements {form : Ebnf} {tokens : List Token} {trees : List ParseTree}
    (h : Derives form tokens trees) (hform : form.admits equals = false)
    (hnames : ∀ token ∈ tokens, token.kind = .identifier → token.text ≠ "=") :
    (Lowering.statements trees).Emits tokens := by
  induction h with
  | empty | nil => exact done_emits List.not_mem_nil
  | word kind text | ofKind kind text =>
    rw [statements_singleton, ParseTree.terminal, Tree.leaf, Lowering.statement]
    refine done_emits fun hmem => ?_
    rw [Ebnf.admits, List.mem_singleton.1 hmem] at hform
    simp at hform
  | @rule rule _ children hbody ih =>
    rw [statements_singleton]
    by_cases hassign : rule = .assignment
    · subst hassign
      exact hbody.emits_assignment
    by_cases hdeclare : rule = .variableDeclaration
    · subst hdeclare
      exact hbody.emits_declaration hnames
    rw [ParseTree.ofRule, statement_of_ne hassign hdeclare]
    by_cases hcontainer : rule ∈ Rule.containers
    · have hadmits : (production rule).admits equals = false := by
        revert hassign hdeclare
        cases rule <;> decide
      rw [if_pos hcontainer]
      exact ih hadmits hnames
    · rw [if_neg hcontainer]
      exact done_emits (equals_not_mem (mem_plainRules hassign hdeclare hcontainer) (.rule hbody))
  | left _ ih => exact ih (Bool.or_eq_false_iff.1 hform).1 hnames
  | right _ ih => exact ih (Bool.or_eq_false_iff.1 hform).2 hnames
  | seq _ _ ihfront ihback =>
    rw [Ebnf.admits, Bool.or_eq_false_iff] at hform
    rw [statements_append]
    exact (ihfront hform.1 fun token hmem => hnames token (List.mem_append_left _ hmem)).andThen
      (ihback hform.2 fun token hmem => hnames token (List.mem_append_right _ hmem))
  | cons _ _ ihfront ihback =>
    rw [statements_append]
    exact (ihfront hform fun token hmem => hnames token (List.mem_append_left _ hmem)).andThen
      (ihback hform fun token hmem => hnames token (List.mem_append_right _ hmem))

end Grammar.Derives

namespace Listing

/-- The code of a program is one block for each of its equals signs, in order. -/
theorem ofSource?_blocks {source : String} {listing : Listing}
    (h : ofSource? source none = .ok listing) :
    ∃ blocks, listing.code.instructions.toList = blocks.flatten ∧
      List.Forall₂ (AssignsAt listing.tokens) (equalsSigns listing.tokens) blocks := by
  obtain ⟨htokens, htree, hcode⟩ := parts_of_ofSource? h
  have hnames : ∀ token ∈ listing.tokens, token.kind = .identifier → token.text ≠ "=" := by
    intro token hmem
    rw [htokens] at hmem
    exact Token.text_ne_equals (Token.isScanned_of_mem_scan hmem)
  have hderives : Derives (.rule .root) listing.tokens [listing.tree] :=
    (ofTokens?_eq_ok_iff.1 htree).1
  obtain ⟨later, added, hlater, hadded, blocks, rfl, hblocks⟩ :=
    hderives.emits_statements rfl hnames Code.empty
  rw [Lowering.statements_singleton] at hlater
  rw [Code.ofProgram?, hlater] at hcode
  obtain rfl := Except.ok.inj hcode
  exact ⟨blocks, hadded, hblocks⟩

-- An initial value, an assignment inside a loop and an expression that is only shown.
theorem ofSource?_blocks_loop :
    ∃ listing blocks,
      ofSource? "int a = 2, b; while (a) b = (a - 1) * 3; cout << a + b;" none = .ok listing ∧
      listing.code.lines = ["a = 2", "t0 = a - 1", "t1 = t0 * 3", "b = t1"] ∧
      equalsSigns listing.tokens = [2, 12] ∧
      listing.code.instructions.toList = blocks.flatten ∧
      List.Forall₂ (AssignsAt listing.tokens) (equalsSigns listing.tokens) blocks := by
  have hcode : (ofSource? "int a = 2, b; while (a) b = (a - 1) * 3; cout << a + b;"
      none).toOption.map (fun listing => (listing.code.lines, equalsSigns listing.tokens)) =
        some (["a = 2", "t0 = a - 1", "t1 = t0 * 3", "b = t1"], [2, 12]) := by
    decide +kernel
  match hlisting : ofSource? "int a = 2, b; while (a) b = (a - 1) * 3; cout << a + b;" none with
  | .error error =>
    rw [hlisting] at hcode
    cases hcode
  | .ok listing =>
    rw [hlisting] at hcode
    obtain ⟨hlines, hsigns⟩ := Prod.mk.inj (Option.some.inj hcode)
    obtain ⟨blocks, hblocks⟩ := ofSource?_blocks hlisting
    exact ⟨listing, blocks, rfl, hlines, hsigns, hblocks⟩

end Listing

end ThreeAddress
