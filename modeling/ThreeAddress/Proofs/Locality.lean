import ThreeAddress.Proofs.Prediction

/-!
# How far a reader looks

A reader stops at some token, because its phrase is complete or because the token does not fit. It
has looked at that token and at none behind it: with other tokens there, it stops in the same way.
Most choices look at the next token only. A choice that looks at two takes the first of them
whichever way it goes, so it never stops in front of both. Whether a phrase has only such choices
can be computed.
-/

namespace ThreeAddress

namespace Outcome

/-- The tokens from the place on where reading stopped. -/
def rest : Outcome → List Token
  | .error failure => failure.rest
  | .ok (_, rest) => rest

/-- The same outcome in front of other tokens. -/
def inFrontOf (tokens : List Token) : Outcome → Outcome
  | .error failure => .error ⟨failure.fault, tokens⟩
  | .ok (trees, _) => .ok (trees, tokens)

theorem rest_andThen_suffix {outcome : Outcome} {next : List ParseTree → List Token → Outcome}
    {tokens : List Token} (h : outcome.rest <:+ tokens)
    (hnext : ∀ trees rest, (next trees rest).rest <:+ rest) :
    (outcome.andThen next).rest <:+ tokens := by
  cases outcome with
  | error failure => exact h
  | ok result => exact (hnext result.1 result.2).trans h

-- Whatever is done with the trees of an outcome, reading stops in the same place.
theorem rest_andThen_ok (outcome : Outcome) (change : List ParseTree → List ParseTree) :
    (outcome.andThen fun trees rest => .ok (change trees, rest)).rest = outcome.rest := by
  cases outcome <;> rfl

theorem inFrontOf_andThen_ok (outcome : Outcome) (change : List ParseTree → List ParseTree)
    (tokens : List Token) :
    ((outcome.inFrontOf tokens).andThen fun trees rest => .ok (change trees, rest)) =
      (outcome.andThen fun trees rest => .ok (change trees, rest)).inFrontOf tokens := by
  cases outcome <;> rfl

end Outcome

/-- The reader looks at no token behind the one at which it stops. -/
def Local (read : List Token → Outcome) : Prop :=
  ∀ front next back other, (read (front ++ next :: back)).rest = next :: back →
    read (front ++ next :: other) = (read (front ++ next :: back)).inFrontOf (next :: other)

-- Whatever lies between the stop and the tokens replaced stays as it is.
theorem Local.append {read : List Token → Outcome} (h : Local read)
    {front middle back : List Token} {next : Token}
    (hrest : (read (front ++ (middle ++ next :: back))).rest = middle ++ next :: back)
    (other : List Token) :
    read (front ++ (middle ++ next :: other)) =
      (read (front ++ (middle ++ next :: back))).inFrontOf (middle ++ next :: other) := by
  cases middle with
  | nil => exact h front next back other hrest
  | cons first middle =>
    exact h front first (middle ++ next :: back) (middle ++ next :: other) hrest

theorem exists_append_of_suffix {front tail rest : List Token} (hrest : rest <:+ front ++ tail)
    (htail : tail <:+ rest) : ∃ head middle, front = head ++ middle ∧ rest = middle ++ tail := by
  obtain ⟨middle, rfl⟩ := htail
  obtain ⟨head, hhead⟩ := hrest
  rw [← List.append_assoc] at hhead
  exact ⟨head, middle, (List.append_cancel_right hhead).symm, rfl⟩

-- With other tokens behind the one in front of which it stops, a reader gives the same trees.
theorem Local.read_of_ok {read : List Token → Outcome} (h : Local read)
    (hsuffix : ∀ tokens, (read tokens).rest <:+ tokens) {front back rest : List Token}
    {next : Token} {trees : List ParseTree}
    (hread : read (front ++ next :: back) = .ok (trees, rest)) (hstop : next :: back <:+ rest) :
    ∃ head middle, front = head ++ middle ∧ rest = middle ++ next :: back ∧
      ∀ other, read (front ++ next :: other) = .ok (trees, middle ++ next :: other) := by
  have hrest := hsuffix (front ++ next :: back)
  rw [hread] at hrest
  obtain ⟨head, middle, rfl, rfl⟩ := exists_append_of_suffix hrest hstop
  refine ⟨head, middle, rfl, rfl, fun other => ?_⟩
  rw [List.append_assoc] at hread ⊢
  rw [h.append (by rw [hread]; rfl) other, hread]
  rfl

/-- Readers in sequence look no further than each of them. -/
theorem Local.andThen {first : List Token → Outcome}
    {next : List ParseTree → List Token → Outcome} (hfirst : Local first)
    (hsuffix : ∀ tokens, (first tokens).rest <:+ tokens) (hnext : ∀ trees, Local (next trees))
    (hnextSuffix : ∀ trees rest, (next trees rest).rest <:+ rest) :
    Local fun tokens => (first tokens).andThen next := by
  intro front stop back other hrest
  dsimp only at hrest ⊢
  cases hread : first (front ++ stop :: back) with
  | error failure =>
    rw [hread] at hrest
    rw [hfirst front stop back other (by rw [hread]; exact hrest), hread]
    rfl
  | ok result =>
    obtain ⟨trees, rest⟩ := result
    rw [hread] at hrest
    -- the first reader stops at that token or before it
    have hstop : stop :: back <:+ rest := by
      have hlast := hnextSuffix trees rest
      change (next trees rest).rest = _ at hrest
      rwa [hrest] at hlast
    obtain ⟨head, middle, rfl, rfl, hother⟩ := hfirst.read_of_ok hsuffix hread hstop
    rw [hother]
    exact hnext trees middle stop back other hrest

theorem local_ok (trees : List ParseTree) : Local fun rest => .ok (trees, rest) := by
  intro front next back other hrest
  change front ++ next :: back = next :: back at hrest
  rw [List.append_left_eq_self.1 hrest]
  rfl

theorem local_error (fault : Fault) : Local fun tokens => .error ⟨fault, tokens⟩ := by
  intro front next back other hrest
  change front ++ next :: back = next :: back at hrest
  rw [List.append_left_eq_self.1 hrest]
  rfl

-- A list of patterns looks at as many tokens as there are patterns.
theorem Pattern.acceptAll_append {patterns : List Pattern} {front : List Token}
    (h : patterns.length ≤ front.length + 1) (next : Token) (back other : List Token) :
    acceptAll patterns (front ++ next :: back) = acceptAll patterns (front ++ next :: other) := by
  induction front generalizing patterns with
  | nil =>
    match patterns with
    | [] => rfl
    | [pattern] => rfl
    | _ :: _ :: _ => simp at h
  | cons first front ih =>
    cases patterns with
    | nil => rfl
    | cons pattern patterns =>
      rw [List.cons_append, List.cons_append, acceptAll, acceptAll, ih (Nat.le_of_succ_le_succ h)]

namespace Phrase

open Outcome

/-- Whether the phrase is sure to take the next token if that fits the pattern. -/
def takes (pattern : Pattern) : Phrase → Bool
  | .token other _ => pattern.within other
  | .seq first _ => first.takes pattern
  | .node _ body => body.takes pattern
  | .ifNext [guard] yes no => pattern.within guard && yes.takes pattern ||
      yes.takes pattern && no.takes pattern
  | .ifNext _ yes no => yes.takes pattern && no.takes pattern
  | _ => false

/-- Whether both ways are sure to take all tokens that the choice looks at but the last. -/
def choosesOneAhead (yes no : Phrase) : List Pattern → Bool
  | [] | [_] => true
  | [pattern, _] => yes.takes pattern && no.takes pattern
  | _ => false

/-- Whether no choice of the phrase leaves a token after looking at another one behind it. -/
def looksOneAhead : Phrase → Bool
  | .seq first second => first.looksOneAhead && second.looksOneAhead
  | .node _ body => body.looksOneAhead
  | .ifNext patterns yes no =>
      yes.looksOneAhead && no.looksOneAhead && choosesOneAhead yes no patterns
  | .whileNext _ body => body.looksOneAhead
  | _ => true

variable {readNested : Nesting → List Token → Outcome}

section Suffixes

theorem readWhile_suffix {pattern : Pattern} {readItem : List Token → Outcome}
    (hitem : ∀ tokens, (readItem tokens).rest <:+ tokens) (tokens : List Token) :
    (readWhile pattern readItem tokens).rest <:+ tokens := by
  have hrest {tokens rest : List Token} {trees : List ParseTree}
      (h : readItem tokens = .ok (trees, rest)) : rest <:+ tokens := by
    have hsuffix := hitem tokens
    rwa [h] at hsuffix
  fun_induction readWhile pattern readItem tokens with
  | case1 tokens haccept failure hread =>
    have hsuffix := hitem tokens
    rwa [hread] at hsuffix
  | case2 tokens haccept trees rest hread hlt failure hmore ih
  | case3 tokens haccept trees rest hread hlt more final hmore ih =>
    rw [hmore] at ih
    exact ih.trans (hrest hread)
  | case4 tokens haccept trees rest hread => exact hrest hread
  | case5 => exact List.suffix_rfl

variable (hnested : ∀ level tokens, (readNested level tokens).rest <:+ tokens)
include hnested

/-- What a reader leaves is the end of what it was given. -/
theorem read_suffix (phrase : Phrase) (tokens : List Token) :
    (phrase.read readNested tokens).rest <:+ tokens := by
  induction phrase generalizing tokens with
  | empty | fail => exact List.suffix_rfl
  | token pattern expected =>
    cases tokens with
    | nil => exact List.suffix_rfl
    | cons next tokens =>
      rw [read]
      split
      · exact List.suffix_cons next tokens
      · exact List.suffix_rfl
  | seq first second ihfirst ihsecond =>
    rw [read_seq]
    exact rest_andThen_suffix (ihfirst tokens) fun _ rest =>
      rest_andThen_suffix (ihsecond rest) fun _ _ => List.suffix_rfl
  | node rule body ih =>
    rw [read_node]
    exact rest_andThen_suffix (ih tokens) fun _ _ => List.suffix_rfl
  | ifNext patterns yes no ihyes ihno =>
    rw [read]
    split
    · exact ihyes tokens
    · exact ihno tokens
  | whileNext pattern body ih =>
    rw [read]
    exact readWhile_suffix ih tokens
  | nested level => exact hnested level tokens

/-- A phrase that takes a token leaves at most what is behind it. -/
theorem read_suffix_of_takes {phrase : Phrase} {pattern : Pattern}
    (hphrase : phrase.takes pattern = true) {next : Token} (hnext : pattern.accepts next = true)
    (back : List Token) : (phrase.read readNested (next :: back)).rest <:+ back := by
  fun_induction takes pattern phrase with
  | case1 other expected =>
    rw [read, if_pos (Pattern.accepts_of_within hphrase hnext)]
    exact List.suffix_rfl
  | case2 first second ih =>
    rw [read_seq]
    exact rest_andThen_suffix (ih hphrase) fun _ rest =>
      rest_andThen_suffix (read_suffix hnested second rest) fun _ _ => List.suffix_rfl
  | case3 rule body ih =>
    rw [read_node]
    exact rest_andThen_suffix (ih hphrase) fun _ _ => List.suffix_rfl
  | case4 guard yes no ihyes ihno =>
    rw [Bool.or_eq_true, Bool.and_eq_true, Bool.and_eq_true] at hphrase
    rw [read]
    -- if the guard fails, the other way takes the token too
    split
    · exact ihyes (hphrase.elim And.right And.left)
    · rename_i hguard
      rcases hphrase with hphrase | hphrase
      · rw [Pattern.acceptAll, Pattern.accepts_of_within hphrase.1 hnext] at hguard
        exact absurd rfl hguard
      · exact ihno hphrase.2
  | case5 guards yes no _ ihyes ihno =>
    rw [Bool.and_eq_true] at hphrase
    rw [read]
    split
    · exact ihyes hphrase.1
    · exact ihno hphrase.2
  | case6 => cases hphrase

end Suffixes

/-! ## Readers are local -/

theorem readWhile_local {pattern : Pattern} {readItem : List Token → Outcome}
    (hitem : Local readItem) (hsuffix : ∀ tokens, (readItem tokens).rest <:+ tokens) :
    Local (readWhile pattern readItem) := by
  intro front
  -- the items behind the first one start closer to the stop
  induction hlength : front.length using Nat.strongRecOn generalizing front with
  | ind length ih =>
    intro next back other hrest
    have hguard : Pattern.acceptAll [pattern] (front ++ next :: back) =
        Pattern.acceptAll [pattern] (front ++ next :: other) :=
      Pattern.acceptAll_append (Nat.le_add_left _ _) next back other
    rw [readWhile_eq] at hrest
    rw [readWhile_eq, readWhile_eq pattern readItem (front ++ next :: back), ← hguard]
    by_cases haccept : Pattern.acceptAll [pattern] (front ++ next :: back) = true
    · rw [if_pos haccept] at hrest
      rw [if_pos haccept, if_pos haccept]
      cases hread : readItem (front ++ next :: back) with
      | error failure =>
        rw [hread] at hrest
        rw [hitem front next back other (by rw [hread]; exact hrest), hread]
        rfl
      | ok result =>
        obtain ⟨trees, rest⟩ := result
        rw [hread] at hrest
        have hrest : Outcome.rest (if _ then _ else _) = next :: back := hrest
        -- the stop is behind the item, whether more items follow or not
        have hstop : next :: back <:+ rest := by
          rw [← hrest]
          split
          · exact rest_andThen_suffix (readWhile_suffix hsuffix rest) fun _ _ => List.suffix_rfl
          · exact List.suffix_rfl
        obtain ⟨head, middle, rfl, rfl, hother⟩ := hitem.read_of_ok hsuffix hread hstop
        rw [hother]
        show (if _ then _ else _) = Outcome.inFrontOf _ (if _ then _ else _)
        by_cases hlt : middle.length < (head ++ middle).length
        · rw [if_pos (by simpa using hlt)] at hrest
          rw [if_pos (by simpa using hlt), if_pos (by simpa using hlt)]
          rw [rest_andThen_ok] at hrest
          rw [ih _ (hlength ▸ hlt) middle rfl next back other hrest, inFrontOf_andThen_ok]
        · -- an item that takes no token stops where it began
          rw [if_neg (by simpa using hlt)] at hrest
          rw [if_neg (by simpa using hlt), if_neg (by simpa using hlt)]
          exact local_ok trees middle next back other hrest
    · rw [if_neg haccept] at hrest
      rw [if_neg haccept, if_neg haccept]
      exact local_ok [] front next back other hrest

-- A choice by two tokens is not made in front of the token at which reading stops, since either way
-- would take that token.
theorem acceptAll_of_choosesOneAhead
    (hsuffix : ∀ level tokens, (readNested level tokens).rest <:+ tokens)
    {patterns : List Pattern} {yes no : Phrase} (hchoice : choosesOneAhead yes no patterns = true)
    {front back : List Token} {next : Token}
    (hrest : (if Pattern.acceptAll patterns (front ++ next :: back) then
      yes.read readNested (front ++ next :: back)
      else no.read readNested (front ++ next :: back)).rest = next :: back) (other : List Token) :
    Pattern.acceptAll patterns (front ++ next :: other) =
      Pattern.acceptAll patterns (front ++ next :: back) := by
  by_cases hlength : patterns.length ≤ front.length + 1
  · exact Pattern.acceptAll_append hlength next other back
  fun_cases choosesOneAhead yes no patterns with
  | case1 | case2 => simp at hlength
  | case3 pattern second =>
    obtain rfl : front = [] := by
      cases front with
      | nil => rfl
      | cons => simp at hlength
    rw [choosesOneAhead, Bool.and_eq_true] at hchoice
    rw [List.nil_append] at hrest
    rw [List.nil_append, List.nil_append, Pattern.acceptAll, Pattern.acceptAll]
    by_cases hnext : pattern.accepts next = true
    · have hshort {phrase : Phrase} (htakes : phrase.takes pattern = true) :
          (phrase.read readNested (next :: back)).rest ≠ next :: back := by
        intro hstop
        have hlength := (read_suffix_of_takes hsuffix htakes hnext back).length_le
        rw [hstop, List.length_cons] at hlength
        omega
      split at hrest
      · exact absurd hrest (hshort hchoice.1)
      · exact absurd hrest (hshort hchoice.2)
    · rw [Bool.not_eq_true] at hnext
      rw [hnext, Bool.false_and, Bool.false_and]
  | case4 => simp [choosesOneAhead] at hchoice

/-- A phrase whose choices look one token ahead is read by a reader that does. -/
theorem read_local (hnested : ∀ level, Local (readNested level))
    (hsuffix : ∀ level tokens, (readNested level tokens).rest <:+ tokens) {phrase : Phrase}
    (hphrase : phrase.looksOneAhead = true) : Local (phrase.read readNested) := by
  induction phrase with
  | empty => exact local_ok []
  | fail expected => exact local_error (.expected expected)
  | token pattern expected =>
    intro front next back other hrest
    cases front with
    | nil =>
      rw [List.nil_append, read] at hrest
      rw [List.nil_append, List.nil_append, read, read]
      split at hrest
      · -- a token that is taken is not where reading stops
        exact absurd hrest.symm (List.cons_ne_self next back)
      · rename_i hnext
        rw [if_neg hnext, if_neg hnext]
        rfl
    | cons first front =>
      rw [List.cons_append, read] at hrest
      rw [List.cons_append, List.cons_append, read, read]
      split at hrest
      · rename_i hfirst
        rw [if_pos hfirst, if_pos hfirst]
        exact local_ok _ front next back other hrest
      · rename_i hfirst
        rw [if_neg hfirst, if_neg hfirst]
        exact local_error _ (first :: front) next back other hrest
  | seq first second ihfirst ihsecond =>
    rw [looksOneAhead, Bool.and_eq_true] at hphrase
    have hread : (first.seq second).read readNested = fun tokens =>
        (first.read readNested tokens).andThen fun trees rest =>
          (second.read readNested rest).andThen fun more final => .ok (trees ++ more, final) :=
      funext (read_seq first second)
    rw [hread]
    exact (ihfirst hphrase.1).andThen (read_suffix hsuffix first)
      (fun trees => (ihsecond hphrase.2).andThen (read_suffix hsuffix second)
        (fun more => local_ok (trees ++ more)) fun _ _ => List.suffix_rfl)
      fun _ rest => rest_andThen_suffix (read_suffix hsuffix second rest) fun _ _ => List.suffix_rfl
  | node rule body ih =>
    rw [looksOneAhead] at hphrase
    intro front next back other hrest
    rw [read_node, rest_andThen_ok _ fun trees => [ParseTree.ofRule rule trees]] at hrest
    rw [read_node, read_node, ih hphrase front next back other hrest,
      inFrontOf_andThen_ok _ fun trees => [ParseTree.ofRule rule trees]]
  | ifNext patterns yes no ihyes ihno =>
    rw [looksOneAhead, Bool.and_eq_true, Bool.and_eq_true] at hphrase
    obtain ⟨⟨hyes, hno⟩, hchoice⟩ := hphrase
    intro front next back other hrest
    rw [read] at hrest
    rw [read, read, acceptAll_of_choosesOneAhead hsuffix hchoice hrest other]
    split at hrest
    · rename_i haccept
      rw [if_pos haccept, if_pos haccept]
      exact ihyes hyes front next back other hrest
    · rename_i haccept
      rw [if_neg haccept, if_neg haccept]
      exact ihno hno front next back other hrest
  | whileNext pattern body ih =>
    have hread : (Phrase.whileNext pattern body).read readNested =
        readWhile pattern (body.read readNested) :=
      funext fun tokens => by rw [read]
    rw [hread]
    exact readWhile_local (ih hphrase) (read_suffix hsuffix body)
  | nested level => exact hnested level

end Phrase

/-! ## The grammar of programs -/

namespace Grammar

theorem looksOneAhead_nestedPhrase (level : Nesting) :
    (nestedPhrase level).looksOneAhead = true := by
  cases level <;> decide

theorem looksOneAhead_program : program.looksOneAhead = true := by
  decide

theorem readNested_suffix (levels : Nat) (level : Nesting) (tokens : List Token) :
    (readNested levels level tokens).rest <:+ tokens := by
  induction levels generalizing level tokens with
  | zero => exact List.suffix_rfl
  | succ levels ih => exact Phrase.read_suffix ih (nestedPhrase level) tokens

theorem readNested_local (levels : Nat) (level : Nesting) : Local (readNested levels level) := by
  induction levels generalizing level with
  | zero => exact local_error .tooDeep
  | succ levels ih =>
    exact Phrase.read_local ih (readNested_suffix levels) (looksOneAhead_nestedPhrase level)

/-- The tokens behind the one at which a program ends or goes wrong make no difference. -/
theorem readProgram_local : Local readProgram :=
  Phrase.read_local (readNested_local nestingLimit) (readNested_suffix nestingLimit)
    looksOneAhead_program

end Grammar

end ThreeAddress
