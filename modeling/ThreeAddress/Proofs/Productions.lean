import ThreeAddress.Proofs.Language

/-!
# The grammar in EBNF

The productions of the grammar, one for each rule, as a plain grammar without any look ahead, and
the derivations they allow. A derivation gives one node for each use of a production, with its
children in order, and one terminal for each token. The nesting of a tree counts statements and
parenthesized expressions on the way down from the root.
-/

namespace ThreeAddress

/-- The right-hand side of a production. -/
inductive Ebnf where
  | never
  | empty
  /-- A token with exactly this kind and text. -/
  | word (kind : Token.Kind) (text : String)
  /-- A token of this kind, whatever its text. -/
  | ofKind (kind : Token.Kind)
  | rule (rule : Rule)
  | seq (first second : Ebnf)
  | either (first second : Ebnf)
  | many (body : Ebnf)
  deriving DecidableEq, Repr

namespace Ebnf

@[simp]
def all : List Ebnf → Ebnf
  | [] => .empty
  | [part] => part
  | part :: parts => .seq part (all parts)

@[simp]
def oneOf : List Ebnf → Ebnf
  | [] => .never
  | [part] => part
  | part :: parts => .either part (oneOf parts)

def maybe (body : Ebnf) : Ebnf :=
  .either body .empty

end Ebnf

namespace Grammar

open Ebnf

def reserved (text : String) : Ebnf :=
  .word .reservedWord text

def mark (text : String) : Ebnf :=
  .word .symbol text

/-- `IDENTIFIER ("=" expression)?` -/
def declaratorForm : Ebnf :=
  all [.ofKind .identifier, maybe (all [mark "=", .rule .expression])]

/-- `"{" statement* "}"` -/
def braced : Ebnf :=
  all [mark "\x7b", .many (.rule .statement), mark "\x7d"]

/-- `keyword "(" expression ")" statement` -/
def guarded (text : String) : Ebnf :=
  all [reserved text, mark "(", .rule .expression, mark ")", .rule .statement]

/-- What the node of a rule is made of. -/
@[simp]
def production : Rule → Ebnf
  | .root => .many (.rule .statement)
  | .statement => oneOf
      [.rule .variableDeclaration, .rule .mainStatement, .rule .returnStatement,
       .rule .ifStatement, .rule .whileStatement, .rule .forStatement, .rule .inputStatement,
       .rule .outputStatement, .rule .continueStatement, .rule .breakStatement,
       .rule .includeStatement, .rule .usingNamespaceStatement, reserved "namespace",
       reserved "std", .rule .block, .rule .assignment, .rule .callStatement]
  | .variableDeclaration =>
      all [oneOf [reserved "int", reserved "float", reserved "void"], declaratorForm,
        .many (all [mark ",", declaratorForm]), mark ";"]
  | .mainStatement =>
      all [maybe (reserved "int"), reserved "main", mark "(", mark ")", braced]
  | .returnStatement => all [reserved "return", .rule .expression, mark ";"]
  | .ifStatement => guarded "if"
  | .whileStatement => guarded "while"
  -- the statement in the head may have a semicolon of its own in front of the one that follows it
  | .forStatement =>
      all [reserved "for", mark "(", .rule .statement, mark ";", .rule .expression, mark ";",
        .rule .expression, mark ")", .rule .statement]
  | .inputStatement =>
      all [reserved "cin", .many (all [reserved ">>", .ofKind .identifier]), mark ";"]
  | .outputStatement =>
      all [reserved "cout", .many (all [reserved "<<", .rule .expression]), mark ";"]
  | .continueStatement => all [reserved "continue", mark ";"]
  | .breakStatement => all [reserved "break", mark ";"]
  | .includeStatement => all [reserved "#include", mark "<", .ofKind .identifier, mark ">"]
  | .usingNamespaceStatement =>
      all [reserved "using", reserved "namespace", reserved "std", mark ";"]
  | .block => braced
  | .assignment => all [.ofKind .identifier, mark "=", .rule .expression, mark ";"]
  | .callStatement => all [.ofKind .identifier, .rule .functionCall, mark ";"]
  | .functionCall =>
      all [mark "(",
        maybe (all [.rule .expression, .many (all [mark ",", .rule .expression])]), mark ")"]
  | .expression =>
      all [.rule .term, .many (all [oneOf [mark "+", mark "-"], .rule .term])]
  | .term => all [.rule .factor, .many (all [oneOf [mark "*", mark "/"], .rule .factor])]
  | .factor =>
      oneOf [.ofKind .number, .ofKind .identifier, .ofKind .string,
        all [mark "(", .rule .expression, mark ")"]]

/-- The token list has a derivation with these trees. -/
inductive Derives : Ebnf → List Token → List ParseTree → Prop where
  | empty : Derives .empty [] []
  | word (kind : Token.Kind) (text : String) :
      Derives (.word kind text) [⟨kind, text⟩] [ParseTree.terminal text]
  | ofKind (kind : Token.Kind) (text : String) :
      Derives (.ofKind kind) [⟨kind, text⟩] [ParseTree.terminal text]
  | rule {rule tokens trees} : Derives (production rule) tokens trees →
      Derives (.rule rule) tokens [ParseTree.ofRule rule trees]
  | seq {first second front back left right} : Derives first front left →
      Derives second back right → Derives (.seq first second) (front ++ back) (left ++ right)
  | left {first second tokens trees} : Derives first tokens trees →
      Derives (.either first second) tokens trees
  | right {first second tokens trees} : Derives second tokens trees →
      Derives (.either first second) tokens trees
  | nil {body} : Derives (.many body) [] []
  | cons {body front back left right} : Derives body front left →
      Derives (.many body) back right → Derives (.many body) (front ++ back) (left ++ right)

namespace Derives

variable {form body first second : Ebnf} {tokens : List Token} {trees : List ParseTree}

theorem of_word {kind : Token.Kind} {text : String} (h : Derives (.word kind text) tokens trees) :
    tokens = [⟨kind, text⟩] ∧ trees = [ParseTree.terminal text] := by
  cases h
  exact ⟨rfl, rfl⟩

theorem of_ofKind {kind : Token.Kind} (h : Derives (.ofKind kind) tokens trees) :
    ∃ text, tokens = [⟨kind, text⟩] ∧ trees = [ParseTree.terminal text] := by
  cases h with
  | ofKind _ text => exact ⟨text, rfl, rfl⟩

theorem of_rule {rule : Rule} (h : Derives (.rule rule) tokens trees) :
    ∃ children, Derives (production rule) tokens children ∧
      trees = [ParseTree.ofRule rule children] := by
  cases h with
  | rule hbody => exact ⟨_, hbody, rfl⟩

theorem of_seq (h : Derives (.seq first second) tokens trees) :
    ∃ front back left right, tokens = front ++ back ∧ trees = left ++ right ∧
      Derives first front left ∧ Derives second back right := by
  cases h with
  | seq hfirst hsecond => exact ⟨_, _, _, _, rfl, rfl, hfirst, hsecond⟩

theorem of_either (h : Derives (.either first second) tokens trees) :
    Derives first tokens trees ∨ Derives second tokens trees := by
  cases h with
  | left h => exact .inl h
  | right h => exact .inr h

theorem oneOf {forms : List Ebnf} (hmem : form ∈ forms) (h : Derives form tokens trees) :
    Derives (Ebnf.oneOf forms) tokens trees := by
  match forms with
  | [] => cases hmem
  | [other] =>
    rw [List.mem_singleton] at hmem
    subst hmem
    exact h
  | first :: next :: forms =>
    rcases List.mem_cons.1 hmem with rfl | hmem
    · exact .left h
    · exact .right (h.oneOf hmem)

theorem of_oneOf_words {kind : Token.Kind} (texts : List String)
    (h : Derives (Ebnf.oneOf (texts.map (Ebnf.word kind))) tokens trees) :
    ∃ text ∈ texts, tokens = [⟨kind, text⟩] ∧ trees = [ParseTree.terminal text] := by
  match texts with
  | [] => cases h
  | [text] => exact ⟨text, List.mem_singleton_self _, h.of_word⟩
  | text :: next :: texts =>
    rcases h.of_either with h | h
    · exact ⟨text, List.mem_cons_self, h.of_word⟩
    · obtain ⟨found, hmem, hfound⟩ := of_oneOf_words (next :: texts) h
      exact ⟨found, List.mem_cons_of_mem _ hmem, hfound⟩

/-- A repetition is derived item by item. -/
@[elab_as_elim]
theorem many_induction
    {motive : ∀ tokens trees, Derives (.many body) tokens trees → Prop}
    (nil : motive [] [] .nil)
    (cons : ∀ front back left right (hitem : Derives body front left)
      (hmany : Derives (.many body) back right), motive back right hmany →
      motive (front ++ back) (left ++ right) (.cons hitem hmany))
    (h : Derives (.many body) tokens trees) : motive tokens trees h := by
  -- induction needs a variable in place of the repetition
  have general {form : Ebnf} (h : Derives form tokens trees) (hform : form = .many body) :
      motive tokens trees (hform ▸ h) := by
    induction h with
    | nil =>
      cases hform
      exact nil
    | cons hitem hmany _ ih =>
      cases hform
      exact cons _ _ _ _ hitem hmany (ih hmany rfl)
    | _ => cases hform
  exact general h rfl

/-- A factor is a token of its own or an expression in parentheses. -/
theorem of_factor (h : Derives (production .factor) tokens trees) :
    (∃ token : Token, token.kind ∈ [Token.Kind.number, .identifier, .string] ∧
      tokens = [token] ∧ trees = [ParseTree.terminal token.text]) ∨
    ∃ part inner, Derives (.rule .expression) part [inner] ∧
      tokens = ⟨.symbol, "("⟩ :: (part ++ [⟨.symbol, ")"⟩]) ∧
      trees = [ParseTree.terminal "(", inner, ParseTree.terminal ")"] := by
  -- the first three forms are tokens of a kind
  have single {kind : Token.Kind} (hkind : kind ∈ [Token.Kind.number, .identifier, .string])
      (h : Derives (.ofKind kind) tokens trees) :
      ∃ token : Token, token.kind ∈ [Token.Kind.number, .identifier, .string] ∧
        tokens = [token] ∧ trees = [ParseTree.terminal token.text] := by
    obtain ⟨text, htokens, htrees⟩ := h.of_ofKind
    exact ⟨⟨kind, text⟩, hkind, htokens, htrees⟩
  rcases h.of_either with h | h
  · exact .inl (single (by decide) h)
  rcases h.of_either with h | h
  · exact .inl (single (by decide) h)
  rcases h.of_either with h | h
  · exact .inl (single (by decide) h)
  obtain ⟨_, _, _, _, rfl, rfl, hopening, h⟩ := h.of_seq
  obtain ⟨part, _, _, _, rfl, rfl, hinner, hclosing⟩ := h.of_seq
  obtain ⟨rfl, rfl⟩ := hopening.of_word
  obtain ⟨rfl, rfl⟩ := hclosing.of_word
  obtain ⟨children, -, rfl⟩ := hinner.of_rule
  exact .inr ⟨part, _, hinner, rfl, rfl⟩

/-- An assignment has the expression it assigns between an equals sign and a semicolon. -/
theorem of_assignment (h : Derives (production .assignment) tokens trees) :
    ∃ name part value, Derives (.rule .expression) part [value] ∧
      tokens = ⟨.identifier, name⟩ :: ⟨.symbol, "="⟩ :: (part ++ [⟨.symbol, ";"⟩]) ∧
      trees = [ParseTree.terminal name, ParseTree.terminal "=", value,
        ParseTree.terminal ";"] := by
  obtain ⟨_, _, _, _, rfl, rfl, hname, htail⟩ := h.of_seq
  obtain ⟨_, _, _, _, rfl, rfl, hequals, hbody⟩ := htail.of_seq
  obtain ⟨part, _, _, _, rfl, rfl, hvalue, hend⟩ := hbody.of_seq
  obtain ⟨name, rfl, rfl⟩ := hname.of_ofKind
  obtain ⟨rfl, rfl⟩ := hequals.of_word
  obtain ⟨children, -, rfl⟩ := hvalue.of_rule
  obtain ⟨rfl, rfl⟩ := hend.of_word
  exact ⟨name, part, _, hvalue, rfl, rfl⟩

/-- A declarator is a name alone or has an expression behind an equals sign. -/
theorem of_declarator (h : Derives declaratorForm tokens trees) :
    ∃ name, tokens = [⟨.identifier, name⟩] ∧ trees = [ParseTree.terminal name] ∨
      ∃ part children, Derives (.rule .expression) part [ParseTree.ofRule .expression children] ∧
        tokens = ⟨.identifier, name⟩ :: ⟨.symbol, "="⟩ :: part ∧
        trees = [ParseTree.terminal name, ParseTree.terminal "=",
          ParseTree.ofRule .expression children] := by
  obtain ⟨_, _, _, _, rfl, rfl, hname, hmaybe⟩ := h.of_seq
  obtain ⟨name, rfl, rfl⟩ := hname.of_ofKind
  refine ⟨name, ?_⟩
  rcases hmaybe.of_either with hstored | hnone
  · obtain ⟨_, part, _, _, rfl, rfl, hequals, hvalue⟩ := hstored.of_seq
    obtain ⟨rfl, rfl⟩ := hequals.of_word
    obtain ⟨children, -, rfl⟩ := hvalue.of_rule
    exact .inr ⟨part, children, hvalue, rfl, rfl⟩
  · cases hnone
    exact .inl ⟨rfl, rfl⟩

/-- A declaration has its declarators between a type and a semicolon. -/
theorem of_declaration (h : Derives (production .variableDeclaration) tokens trees) :
    ∃ type front back left right, type ∈ ["int", "float", "void"] ∧
      Derives declaratorForm front left ∧
      Derives (.many (.all [mark ",", declaratorForm])) back right ∧
      tokens = ⟨.reservedWord, type⟩ :: (front ++ (back ++ [⟨.symbol, ";"⟩])) ∧
      trees = ParseTree.terminal type :: (left ++ (right ++ [ParseTree.terminal ";"])) := by
  obtain ⟨_, _, _, _, rfl, rfl, htype, hbody⟩ := h.of_seq
  obtain ⟨front, _, left, _, rfl, rfl, hfirst, hothers⟩ := hbody.of_seq
  obtain ⟨back, _, right, _, rfl, rfl, hmore, hend⟩ := hothers.of_seq
  obtain ⟨type, hmem, rfl, rfl⟩ := of_oneOf_words ["int", "float", "void"] htype
  obtain ⟨rfl, rfl⟩ := hend.of_word
  exact ⟨type, front, back, left, right, hmem, hfirst, hmore, rfl, rfl⟩

/-- Every tree of a derivation is the terminal of a token or derives from a rule by itself. -/
theorem parts (h : Derives form tokens trees) {tree : ParseTree} (hmem : tree ∈ trees) :
    (∃ token ∈ tokens, tree = ParseTree.terminal token.text) ∨
      ∃ rule part, part ⊆ tokens ∧ Derives (.rule rule) part [tree] := by
  -- what holds of a part of the tokens holds of all of them
  have widen {part tokens : List Token} (hsub : part ⊆ tokens)
      (h : (∃ token ∈ part, tree = ParseTree.terminal token.text) ∨
        ∃ rule inner, inner ⊆ part ∧ Derives (.rule rule) inner [tree]) :
      (∃ token ∈ tokens, tree = ParseTree.terminal token.text) ∨
        ∃ rule part, part ⊆ tokens ∧ Derives (.rule rule) part [tree] := by
    rcases h with ⟨token, hmem, htree⟩ | ⟨rule, inner, hinner, hderives⟩
    · exact .inl ⟨token, hsub hmem, htree⟩
    · exact .inr ⟨rule, inner, List.Subset.trans hinner hsub, hderives⟩
  -- a use of a rule is a part by itself, whatever is inside it
  induction h with
  | empty | nil => cases hmem
  | word kind text | ofKind kind text =>
    exact .inl ⟨_, List.mem_singleton_self _, List.mem_singleton.1 hmem⟩
  | rule hbody _ =>
    rw [List.mem_singleton.1 hmem]
    exact .inr ⟨_, _, List.Subset.refl _, .rule hbody⟩
  | left _ ih | right _ ih => exact ih hmem
  | seq _ _ ihfront ihback | cons _ _ ihfront ihback =>
    rcases List.mem_append.1 hmem with hmem | hmem
    · exact widen (List.subset_append_left _ _) (ihfront hmem)
    · exact widen (List.subset_append_right _ _) (ihback hmem)

end Derives

/-- The tree is a derivation tree of the tokens as a program. -/
def IsProgram (tokens : List Token) (tree : ParseTree) : Prop :=
  Derives (.rule .root) tokens [tree]

end Grammar

/-! ## Nesting -/

namespace ParseTree

/-- Whether a node opens a level of nesting: a statement does, and so does a factor in
parentheses. -/
def opensLevel (label : Label) (children : Nat) : Bool :=
  label == .rule .statement || label == .rule .factor && children == 3

/-- The greatest number of nodes that open a level on a way from the root to a leaf. -/
def nesting : ParseTree → Nat :=
  Tree.fold fun label below => (if opensLevel label below.length then 1 else 0) + below.foldr max 0

/-- The greatest nesting of the trees in a list. -/
def nestings (trees : List ParseTree) : Nat :=
  (trees.map nesting).foldr max 0

@[simp]
theorem nestings_nil : nestings [] = 0 :=
  rfl

@[simp]
theorem nestings_cons (tree : ParseTree) (trees : List ParseTree) :
    nestings (tree :: trees) = max (nesting tree) (nestings trees) :=
  rfl

@[simp]
theorem nestings_append (left right : List ParseTree) :
    nestings (left ++ right) = max (nestings left) (nestings right) := by
  induction left with
  | nil => simp
  | cons tree left ih => rw [List.cons_append, nestings_cons, nestings_cons, ih, Nat.max_assoc]

theorem nesting_ofRule (rule : Rule) (trees : List ParseTree) :
    nesting (ofRule rule trees) =
      (if opensLevel (.rule rule) trees.length then 1 else 0) + nestings trees := by
  rw [nesting, ofRule, Tree.fold_node, List.length_map]
  rfl

@[simp]
theorem nesting_terminal (text : String) : nesting (terminal text) = 0 :=
  rfl

end ParseTree

end ThreeAddress
