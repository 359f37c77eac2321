import Mathlib.Control.Monad.Basic
import ThreeAddress.Proofs.Acceptance
import ThreeAddress.Proofs.Locality
import ThreeAddress.Token.Scan

/-!
# Programs one behind the other

The last token of a statement tells that it is the last one, so a statement is read in the same way
whatever stands behind it. This too can be computed from the grammar. A program with more tokens
behind it is therefore read as the program and then the rest, and each error in the rest has the
tokens of the program in front of it.
-/

namespace ThreeAddress

namespace Phrase

/-- If every item takes a token, a run goes on as long as the next token fits. -/
theorem not_accepts_rest_of_readWhile {pattern : Pattern} {readItem : List Token → Outcome}
    (htakes : ∀ tokens trees rest, readItem tokens = .ok (trees, rest) →
      rest.length < tokens.length)
    {tokens rest : List Token} {trees : List ParseTree}
    (h : readWhile pattern readItem tokens = .ok (trees, rest)) :
    Pattern.acceptAll [pattern] rest = false := by
  fun_induction readWhile pattern readItem tokens generalizing trees rest with
  | case1 => cases h
  | case2 => cases h
  | case3 tokens haccept left middle hread hlt more final hmore ih =>
    obtain ⟨rfl, rfl⟩ := Prod.mk.inj (Except.ok.inj h)
    exact ih hmore
  | case4 tokens haccept left middle hread hlt => exact absurd (htakes _ _ _ hread) hlt
  | case5 tokens haccept =>
    obtain ⟨rfl, rfl⟩ := Prod.mk.inj (Except.ok.inj h)
    exact Bool.eq_false_iff.2 haccept

end Phrase

namespace SyntaxError

/-- The same error with more tokens in front of all. -/
def shift (offset : Nat) : SyntaxError → SyntaxError
  | .unexpected position expected found => .unexpected (position + offset) expected found
  | .unexpectedEnd expected => .unexpectedEnd expected
  | .trailing position found => .trailing (position + offset) found
  | .tooDeep position => .tooDeep (position + offset)

theorem ofFailure_add (position offset : Nat) (failure : Failure) :
    ofFailure (position + offset) failure = (ofFailure position failure).shift offset := by
  match failure with
  | ⟨.tooDeep, _⟩ | ⟨.expected _, []⟩ | ⟨.expected _, _ :: _⟩ => rfl

end SyntaxError

namespace Grammar

open ThreeAddress.Language ParseTree

/-! ## What may follow a statement -/

/-- The tokens that may follow what lies one level deeper, if any token may follow a statement. -/
def nestedAfterAny : Nesting → Lookahead
  | .statement => ⟨.any :: (nestedAfter .statement).patterns, true⟩
  | .group => nestedAfter .group

theorem admits_nestedAfterAny (tokens : List Token) :
    (nestedAfterAny .statement).admits tokens = true := by
  cases tokens <;> rfl

theorem predictive_nestedAfterAny (level : Nesting) :
    (nestedPhrase level).predictive nestedStarts nestedAfterAny (nestedAfterAny level) = true := by
  cases level <;> decide

theorem predictive_statement :
    statement.predictive nestedStarts nestedAfterAny (nestedAfterAny .statement) = true := by
  decide

variable {levels : Nat}

-- No token behind a statement has a say in how it is read.
theorem read_statement_append {tokens : List Token} {trees : List ParseTree}
    (h : statement.language (nestedLanguage levels) tokens trees) (rest : List Token) :
    statement.read (readNested levels) (tokens ++ rest) = .ok (trees, rest) :=
  Phrase.read_complete (nestedLanguage_starts levels)
    (readNested_of_predictive predictive_nestedAfterAny levels) predictive_statement h
    (admits_nestedAfterAny rest)

/-- If the tokens of a phrase are never none, reading it takes a token. -/
theorem length_rest_of_read {phrase : Phrase} (hphrase : phrase.takesToken nestedStarts = true)
    {tokens rest : List Token} {trees : List ParseTree}
    (h : phrase.read (readNested levels) tokens = .ok (trees, rest)) :
    rest.length < tokens.length := by
  obtain ⟨front, rfl, hfront⟩ := Phrase.read_sound (readNested_sound levels) phrase _ _ _ h
  have := List.length_pos_iff.2
    (Phrase.ne_nil_of_takesToken (nestedLanguage_starts levels) hphrase hfront)
  rw [List.length_append]
  omega

theorem takesToken_statement : statement.takesToken nestedStarts = true := by
  decide

theorem statement_ne_nil {tokens : List Token} {trees : List ParseTree}
    (h : statement.language (nestedLanguage levels) tokens trees) : tokens ≠ [] :=
  Phrase.ne_nil_of_takesToken (nestedLanguage_starts levels) takesToken_statement h

/-! ## Reading a program -/

theorem readProgram_eq (tokens : List Token) :
    readProgram tokens =
      Phrase.readWhile .any (statement.read (readNested nestingLimit)) tokens := by
  rw [readProgram, program, Phrase.read]

/-- A program is read to its end or not at all. -/
theorem rest_of_readProgram {tokens rest : List Token} {trees : List ParseTree}
    (h : readProgram tokens = .ok (trees, rest)) : rest = [] := by
  rw [readProgram_eq] at h
  have hrest := Phrase.not_accepts_rest_of_readWhile
    (fun _ _ _ hread => length_rest_of_read takesToken_statement hread) h
  cases rest with
  | nil => rfl
  | cons next rest => cases hrest

theorem readProgram_append {front : List Token} {trees : List ParseTree}
    (h : readProgram front = .ok (trees, [])) (back : List Token) :
    readProgram (front ++ back) =
      (readProgram back).andThen fun more rest => .ok (trees ++ more, rest) := by
  obtain ⟨tokens, hfront, hmany⟩ :=
    Phrase.read_sound (readNested_sound nestingLimit) program _ _ _ h
  obtain rfl : front = tokens := by rw [hfront, List.append_nil]
  rw [readProgram_eq, readProgram_eq]
  refine Phrase.readWhile_append (fun front left back hitem => ?_)
    (fun front left hitem => statement_ne_nil hitem)
    (fun front left back right hitem _ => read_statement_append hitem _) hmany
  -- an item has a first token, whatever it is
  cases front with
  | nil => exact absurd rfl (statement_ne_nil hitem)
  | cons next front => rfl

/-- What is read of a token list is its program, or the error at the place where reading failed. -/
theorem ofTokens?_eq (tokens : List Token) :
    ParseTree.ofTokens? tokens =
      match readProgram tokens with
      | .error failure => .error (.ofFailure (tokens.length - failure.rest.length) failure)
      | .ok (trees, _) => .ok (ofRule .root trees) := by
  cases hread : readProgram tokens with
  | error failure => exact ofTokens?_of_error hread
  | ok result =>
    obtain ⟨trees, rest⟩ := result
    obtain rfl := rest_of_readProgram hread
    exact ofTokens?_of_ok hread

theorem suffix_of_readProgram {tokens : List Token} {failure : Failure}
    (h : readProgram tokens = .error failure) : failure.rest <:+ tokens := by
  have hsuffix := Phrase.read_suffix (readNested_suffix nestingLimit) program tokens
  rwa [show program.read (readNested nestingLimit) tokens = .error failure from h] at hsuffix

/-- A program with more tokens behind it has the statements of both, or the error of the tokens
behind it, with the program in front. -/
theorem ofTokens?_append {front : List Token} {tree : ParseTree}
    (h : ParseTree.ofTokens? front = .ok tree) (back : List Token) :
    ParseTree.ofTokens? (front ++ back) =
      match ParseTree.ofTokens? back with
      | .ok other => .ok (ofRule .root (tree.children ++ other.children))
      | .error error => .error (error.shift front.length) := by
  obtain ⟨trees, hfront, rfl⟩ := readProgram_of_ok h
  rw [ofTokens?_eq (front ++ back), readProgram_append hfront, ofTokens?_eq back]
  cases hback : readProgram back with
  | ok result => rfl
  | error failure =>
    have hle := (suffix_of_readProgram hback).length_le
    show Except.error (SyntaxError.ofFailure _ failure) = Except.error (SyntaxError.shift _ _)
    rw [← SyntaxError.ofFailure_add, List.length_append, Nat.add_comm front.length,
      Nat.sub_add_comm hle]

-- An assignment with another one behind it, and with a declaration that has no name.
theorem ofTokens?_append_assignment :
    ∃ tree other : ParseTree, ParseTree.ofTokens? (Token.scan "x = 1;") = .ok tree ∧
      ParseTree.ofTokens? (Token.scan "x = 1;" ++ Token.scan "y = x;") =
        .ok (ofRule .root (tree.children ++ other.children)) ∧
      ParseTree.ofTokens? (Token.scan "x = 1;" ++ Token.scan "int = 5;") =
        .error (.unexpected 5 "identifier after type" ⟨.symbol, "="⟩) := by
  have hfront : (ParseTree.ofTokens? (Token.scan "x = 1;")).isOk = true := by
    decide +kernel
  have hback : (ParseTree.ofTokens? (Token.scan "y = x;")).isOk = true := by
    decide +kernel
  have herror : ParseTree.ofTokens? (Token.scan "int = 5;") =
      .error (.unexpected 1 "identifier after type" ⟨.symbol, "="⟩) := by
    -- trees cannot be compared by evaluation, but errors can
    have heval : (ParseTree.ofTokens? (Token.scan "int = 5;")).map (fun _ => ()) =
        .error (.unexpected 1 "identifier after type" ⟨.symbol, "="⟩) := by
      decide +kernel
    cases hread : ParseTree.ofTokens? (Token.scan "int = 5;") with
    | error found =>
      rw [hread] at heval
      exact congrArg Except.error (Except.error.inj heval)
    | ok tree =>
      rw [hread] at heval
      cases heval
  match htree : ParseTree.ofTokens? (Token.scan "x = 1;"), hfront with
  | .ok tree, _ =>
    match hother : ParseTree.ofTokens? (Token.scan "y = x;"), hback with
    | .ok other, _ =>
      refine ⟨tree, other, rfl, ?_, ?_⟩
      · rw [ofTokens?_append htree, hother]
      · have hlength : (Token.scan "x = 1;").length = 4 := by
          decide +kernel
        rw [ofTokens?_append htree, herror, hlength]
        rfl

end Grammar

end ThreeAddress
