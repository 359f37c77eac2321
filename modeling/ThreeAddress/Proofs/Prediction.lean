import ThreeAddress.Proofs.Language

/-!
# Predictive phrases

A reader decides by the next tokens alone. Whether that is enough can be computed from a phrase:
which tokens may come first, which may follow, and whether the patterns of each choice and each
repetition tell the two ways apart. If they do, a reader finds every token list of the phrase's
language, whatever follows it in the input. The grammar of programs passes this check.
-/

namespace ThreeAddress

namespace Pattern

/-- Whether the first pattern accepts no token that the second does not; may say no too often. -/
def within : Pattern → Pattern → Bool
  | _, .any => true
  | .word kind texts, .word other allowed => kind == other && texts.all allowed.contains
  | .word kind _, .ofKind kinds => kinds.contains kind
  | .word kind texts, .anyBut other text => kind != other || !texts.contains text
  | .ofKind kinds, .ofKind allowed => kinds.all allowed.contains
  | .ofKind kinds, .anyBut other _ => !kinds.contains other
  | _, _ => false

/-- Whether no token fits both patterns; may say no too often. -/
def apart : Pattern → Pattern → Bool
  | .word kind texts, .word other others =>
      kind != other || texts.all fun text => !others.contains text
  | .word kind _, .ofKind kinds => !kinds.contains kind
  | .ofKind kinds, .word kind _ => !kinds.contains kind
  | .word kind texts, .anyBut other text => kind == other && texts.all (· == text)
  | .ofKind kinds, .ofKind others => kinds.all fun kind => !others.contains kind
  | _, _ => false

theorem accepts_of_within {pattern other : Pattern} (h : pattern.within other = true)
    {token : Token} (haccepts : pattern.accepts token = true) : other.accepts token = true := by
  unfold within at h
  split at h <;> grind [accepts]

theorem not_accepts_of_apart {pattern other : Pattern} (h : pattern.apart other = true)
    {token : Token} (haccepts : pattern.accepts token = true) : other.accepts token = false := by
  unfold apart at h
  split at h <;> grind [accepts]

/-- Each pattern of the second list has one within it at the same place of the first list. -/
def allWithin : List Pattern → List Pattern → Bool
  | _, [] => true
  | [], _ :: _ => false
  | pattern :: patterns, other :: others => pattern.within other && allWithin patterns others

/-- At some place the two lists have patterns that are apart. -/
def someApart : List Pattern → List Pattern → Bool
  | pattern :: patterns, other :: others => pattern.apart other || someApart patterns others
  | _, _ => false

theorem acceptAll_of_allWithin {patterns others : List Pattern}
    (h : allWithin patterns others = true) {tokens : List Token}
    (haccept : acceptAll patterns tokens = true) : acceptAll others tokens = true := by
  fun_induction allWithin patterns others generalizing tokens with
  | case1 => rfl
  | case2 => simp at h
  | case3 pattern patterns other others ih =>
    rw [Bool.and_eq_true] at h
    cases tokens with
    | nil => simp [acceptAll] at haccept
    | cons next tokens =>
      rw [acceptAll, Bool.and_eq_true] at haccept ⊢
      exact ⟨accepts_of_within h.1 haccept.1, ih h.2 haccept.2⟩

theorem not_acceptAll_of_someApart {patterns others : List Pattern}
    (h : someApart patterns others = true) {tokens : List Token}
    (haccept : acceptAll patterns tokens = true) : acceptAll others tokens = false := by
  fun_induction someApart patterns others generalizing tokens with
  | case1 pattern patterns other others ih =>
    cases tokens with
    | nil => rfl
    | cons next tokens =>
      rw [acceptAll, Bool.and_eq_true] at haccept
      rw [acceptAll, Bool.and_eq_false_iff]
      rcases Bool.or_eq_true_iff.1 h with hapart | hsome
      · exact .inl (not_accepts_of_apart hapart haccept.1)
      · exact .inr (ih hsome haccept.2)
  | case2 => simp at h

end Pattern

/-! ## What may come next -/

/-- Patterns for the next token, and whether there may be none. -/
structure Lookahead where
  patterns : List Pattern
  mayEnd : Bool
  deriving Repr

namespace Lookahead

def nothing : Lookahead :=
  ⟨[], false⟩

def endOnly : Lookahead :=
  ⟨[], true⟩

def admits (ahead : Lookahead) : List Token → Bool
  | [] => ahead.mayEnd
  | next :: _ => ahead.patterns.any fun pattern => pattern.accepts next

def union (ahead other : Lookahead) : Lookahead :=
  ⟨ahead.patterns ++ other.patterns, ahead.mayEnd || other.mayEnd⟩

/-- Every next token fits the pattern; there has to be one. -/
def within (ahead : Lookahead) (pattern : Pattern) : Bool :=
  !ahead.mayEnd && ahead.patterns.all fun first => first.within pattern

/-- No next token fits the pattern. -/
def apart (ahead : Lookahead) (pattern : Pattern) : Bool :=
  ahead.patterns.all fun first => first.apart pattern

def subset (ahead other : Lookahead) : Bool :=
  (!ahead.mayEnd || other.mayEnd) && ahead.patterns.all other.patterns.contains

theorem admits_union {ahead other : Lookahead} {tokens : List Token} :
    (ahead.union other).admits tokens = (ahead.admits tokens || other.admits tokens) := by
  cases tokens with
  | nil => rfl
  | cons next tokens => exact List.any_append

theorem accepts_of_admits {ahead : Lookahead} {pattern : Pattern} (h : ahead.within pattern = true)
    {tokens : List Token} (hadmits : ahead.admits tokens = true) :
    Pattern.acceptAll [pattern] tokens = true := by
  unfold within at h
  rw [Bool.and_eq_true, List.all_eq_true] at h
  cases tokens with
  | nil => simp [admits] at hadmits; simp [hadmits] at h
  | cons next tokens =>
    obtain ⟨first, hmem, haccepts⟩ := List.any_eq_true.1 hadmits
    rw [Pattern.acceptAll, Pattern.accepts_of_within (h.2 first hmem) haccepts]
    rfl

theorem not_accepts_of_admits {ahead : Lookahead} {pattern : Pattern}
    (h : ahead.apart pattern = true) {tokens : List Token} (hadmits : ahead.admits tokens = true)
    (patterns : List Pattern) : Pattern.acceptAll (pattern :: patterns) tokens = false := by
  cases tokens with
  | nil => rfl
  | cons next tokens =>
    obtain ⟨first, hmem, haccepts⟩ := List.any_eq_true.1 hadmits
    rw [Pattern.acceptAll, Pattern.not_accepts_of_apart (List.all_eq_true.1 h first hmem) haccepts]
    rfl

theorem admits_of_subset {ahead other : Lookahead} (h : ahead.subset other = true)
    {tokens : List Token} (hadmits : ahead.admits tokens = true) : other.admits tokens = true := by
  unfold subset at h
  rw [Bool.and_eq_true, List.all_eq_true] at h
  cases tokens with
  | nil =>
    change ahead.mayEnd = true at hadmits
    rw [hadmits] at h
    exact h.1
  | cons next tokens =>
    obtain ⟨first, hmem, haccepts⟩ := List.any_eq_true.1 hadmits
    exact List.any_eq_true.2 ⟨first, List.contains_iff_mem.1 (h.2 first hmem), haccepts⟩

end Lookahead

namespace Phrase

open ThreeAddress.Language

/-! ## First tokens -/

/-- What may come next where the phrase stands in front of what comes after it. -/
def starts (nestedStarts : Nesting → Lookahead) (after : Lookahead) : Phrase → Lookahead
  | .empty => after
  | .token pattern _ => ⟨[pattern], false⟩
  | .fail _ => .nothing
  | .seq first second => first.starts nestedStarts (second.starts nestedStarts after)
  | .node _ body => body.starts nestedStarts after
  | .ifNext _ yes no => (yes.starts nestedStarts after).union (no.starts nestedStarts after)
  | .whileNext _ body => (body.starts nestedStarts after).union after
  | .nested level => nestedStarts level

/-- Whether every token list of the phrase has at least one token. -/
def takesToken (nestedStarts : Nesting → Lookahead) (phrase : Phrase) : Bool :=
  !(phrase.starts nestedStarts .endOnly).mayEnd

/-- Patterns that the tokens of the phrase are sure to begin with. -/
def opening : Phrase → List Pattern
  | .token pattern _ => [pattern]
  | .seq (.token pattern _) second => pattern :: second.opening
  | .seq first _ => first.opening
  | .node _ body => body.opening
  | _ => []

/-- Whether the phrase plainly has no token list at all. -/
def hopeless : Phrase → Bool
  | .fail _ => true
  | .seq first second => first.hopeless || second.hopeless
  | .node _ body => body.hopeless
  | _ => false

section Starts

variable {nested : Nesting → Language} {nestedStarts : Nesting → Lookahead}

theorem acceptAll_opening {phrase : Phrase} {tokens : List Token} {trees : List ParseTree}
    (h : phrase.language nested tokens trees) (rest : List Token) :
    Pattern.acceptAll phrase.opening (tokens ++ rest) = true := by
  fun_induction opening phrase generalizing tokens trees rest with
  | case1 pattern expected =>
    obtain ⟨next, haccepts, rfl, rfl⟩ := h
    rw [List.singleton_append, Pattern.acceptAll, haccepts]
    rfl
  | case2 pattern expected second ih =>
    obtain ⟨front, back, left, right, rfl, rfl, ⟨next, haccepts, rfl, rfl⟩, hsecond⟩ := h
    rw [List.append_assoc, List.singleton_append, Pattern.acceptAll, haccepts]
    exact ih hsecond rest
  | case3 first second _ ih =>
    obtain ⟨front, back, left, right, rfl, rfl, hfirst, hsecond⟩ := h
    rw [List.append_assoc]
    exact ih hfirst (back ++ rest)
  | case4 rule body ih =>
    obtain ⟨children, hbody, rfl⟩ := h
    exact ih hbody rest
  | case5 => rfl

theorem not_language_of_hopeless {phrase : Phrase} (hphrase : phrase.hopeless = true)
    {tokens : List Token} {trees : List ParseTree} : ¬ phrase.language nested tokens trees := by
  fun_induction hopeless phrase generalizing tokens trees with
  | case1 => exact id
  | case2 first second ihfirst ihsecond =>
    rintro ⟨front, back, left, right, rfl, rfl, hfirst, hsecond⟩
    rcases Bool.or_eq_true_iff.1 hphrase with h | h
    · exact ihfirst h hfirst
    · exact ihsecond h hsecond
  | case3 rule body ih =>
    rintro ⟨children, hbody, rfl⟩
    exact ih hphrase hbody
  | case4 => simp at hphrase

variable (hstarts : ∀ level tokens trees rest, nested level tokens trees →
  (nestedStarts level).admits (tokens ++ rest) = true)
include hstarts

-- The first of the tokens of a phrase and of those after it is one that was computed. What comes
-- after matters only if the phrase has no token.
theorem admits_starts {phrase : Phrase} {after : Lookahead} {tokens rest : List Token}
    {trees : List ParseTree} (h : phrase.language nested tokens trees)
    (hafter : tokens = [] → after.admits rest = true) :
    (phrase.starts nestedStarts after).admits (tokens ++ rest) = true := by
  induction phrase generalizing after tokens rest trees with
  | empty =>
    obtain ⟨rfl, rfl⟩ := h
    exact hafter rfl
  | token pattern expected =>
    obtain ⟨next, haccepts, rfl, rfl⟩ := h
    exact List.any_eq_true.2 ⟨pattern, List.mem_singleton_self _, haccepts⟩
  | fail expected => exact h.elim
  | seq first second ihfirst ihsecond =>
    obtain ⟨front, back, left, right, rfl, rfl, hfirst, hsecond⟩ := h
    rw [List.append_assoc]
    refine ihfirst hfirst fun hfront => ihsecond hsecond fun hback => hafter ?_
    rw [hfront, hback, List.append_nil]
  | node rule body ih =>
    obtain ⟨children, hbody, rfl⟩ := h
    exact ih hbody hafter
  | ifNext patterns yes no ihyes ihno =>
    -- the union of the two ways, since the language forgets the patterns
    rw [starts, Lookahead.admits_union, Bool.or_eq_true]
    rcases h with hyes | hno
    · exact .inl (ihyes hyes hafter)
    · exact .inr (ihno hno hafter)
  | whileNext pattern body ih =>
    change Many (body.language nested) tokens trees at h
    rw [starts, Lookahead.admits_union, Bool.or_eq_true]
    induction h with
    | nil => exact .inr (hafter rfl)
    | @cons front back left right hitem _ ihmany =>
      rw [List.append_assoc]
      -- an item without tokens leaves the first token to the items behind it
      by_cases hfront : front = []
      · subst hfront
        exact ihmany hafter
      · exact .inl (ih hitem fun h => absurd h hfront)
  | nested level => exact hstarts level tokens trees rest h

theorem ne_nil_of_takesToken {phrase : Phrase} (hphrase : phrase.takesToken nestedStarts = true)
    {tokens : List Token} {trees : List ParseTree} (h : phrase.language nested tokens trees) :
    tokens ≠ [] := by
  rintro rfl
  have hend : (phrase.starts nestedStarts .endOnly).admits ([] ++ []) = true :=
    admits_starts hstarts h fun _ => rfl
  change (phrase.starts nestedStarts .endOnly).mayEnd = true at hend
  rw [takesToken, hend] at hphrase
  simp at hphrase

end Starts

/-! ## Choices that the next tokens decide -/

/-- Whether the tokens of the phrase, or those after it, are sure to fit the patterns. -/
def fits (nestedStarts : Nesting → Lookahead) (after : Lookahead) (patterns : List Pattern)
    (phrase : Phrase) : Bool :=
  Pattern.allWithin phrase.opening patterns ||
    match patterns with
    | [pattern] => (phrase.starts nestedStarts after).within pattern
    | _ => false

/-- Whether the tokens of the phrase, with those after it, never fit the patterns. -/
def avoids (nestedStarts : Nesting → Lookahead) (after : Lookahead) (patterns : List Pattern) :
    Phrase → Bool
  | .ifNext _ yes no =>
      yes.avoids nestedStarts after patterns && no.avoids nestedStarts after patterns
  | phrase =>
      phrase.hopeless || Pattern.someApart phrase.opening patterns ||
        match patterns with
        | pattern :: _ => (phrase.starts nestedStarts after).apart pattern
        | [] => false

/-- Whether the patterns of the phrase always lead the right way, if the phrase stands in front of
what comes after it. What is nested may be followed by certain tokens only. -/
def predictive (nestedStarts nestedAfter : Nesting → Lookahead) (after : Lookahead) :
    Phrase → Bool
  | .empty | .token .. | .fail _ => true
  | .seq first second =>
      first.predictive nestedStarts nestedAfter (second.starts nestedStarts after) &&
        second.predictive nestedStarts nestedAfter after
  | .node _ body => body.predictive nestedStarts nestedAfter after
  | .ifNext patterns yes no =>
      yes.predictive nestedStarts nestedAfter after &&
        no.predictive nestedStarts nestedAfter after &&
        yes.fits nestedStarts after patterns && no.avoids nestedStarts after patterns
  | .whileNext pattern body =>
      body.predictive nestedStarts nestedAfter ((body.starts nestedStarts after).union after) &&
        body.takesToken nestedStarts && (body.starts nestedStarts .nothing).within pattern &&
        after.apart pattern
  | .nested level => after.subset (nestedAfter level)

section Predictive

variable {nested : Nesting → Language} {nestedStarts nestedAfter : Nesting → Lookahead}
  {readNested : Nesting → List Token → Outcome}

/-- A run of items that each begin with a token that fits the pattern goes on behind them. -/
theorem readWhile_append {pattern : Pattern} {readItem : List Token → Outcome} {item : Language}
    {tokens rest : List Token} {trees : List ParseTree}
    (haccept : ∀ front left back, item front left → Pattern.acceptAll [pattern] (front ++ back))
    (hne : ∀ front left, item front left → front ≠ [])
    (hread : ∀ front left back right, item front left → Many item back right →
      readItem (front ++ (back ++ rest)) = .ok (left, back ++ rest))
    (h : Many item tokens trees) :
    readWhile pattern readItem (tokens ++ rest) =
      (readWhile pattern readItem rest).andThen fun more final => .ok (trees ++ more, final) := by
  induction h with
  | nil =>
    rw [List.nil_append]
    cases readWhile pattern readItem rest <;> rfl
  | @cons front back left right hitem hmany ih =>
    have hlt : (back ++ rest).length < (front ++ (back ++ rest)).length := by
      have := List.length_pos_iff.2 (hne front left hitem)
      simp only [List.length_append]
      omega
    rw [List.append_assoc, readWhile_eq, if_pos (haccept front left _ hitem),
      hread front left back right hitem hmany]
    show (if _ then _ else _) = _
    rw [if_pos hlt, ih]
    cases readWhile pattern readItem rest with
    | error failure => rfl
    | ok result =>
      show Except.ok (left ++ (right ++ result.1), result.2) = _
      rw [← List.append_assoc]
      rfl

/-- A run ends exactly where its items end if what follows it does not fit the pattern. -/
theorem readWhile_complete {pattern : Pattern} {readItem : List Token → Outcome} {item : Language}
    {after : Lookahead} {tokens rest : List Token} {trees : List ParseTree}
    (haccept : ∀ front left back, item front left → Pattern.acceptAll [pattern] (front ++ back))
    (hne : ∀ front left, item front left → front ≠ [])
    (hread : ∀ front left back right, item front left → Many item back right →
      readItem (front ++ (back ++ rest)) = .ok (left, back ++ rest))
    (hafter : after.admits rest = true) (hapart : after.apart pattern = true)
    (h : Many item tokens trees) :
    readWhile pattern readItem (tokens ++ rest) = .ok (trees, rest) := by
  rw [readWhile_append haccept hne hread h, readWhile_eq,
    Lookahead.not_accepts_of_admits hapart hafter]
  show Except.ok (trees ++ [], rest) = _
  rw [List.append_nil]

variable (hstarts : ∀ level tokens trees rest, nested level tokens trees →
  (nestedStarts level).admits (tokens ++ rest) = true)
include hstarts

theorem acceptAll_of_fits {phrase : Phrase} {after : Lookahead} {patterns : List Pattern}
    (hphrase : phrase.fits nestedStarts after patterns = true) {tokens rest : List Token}
    {trees : List ParseTree} (h : phrase.language nested tokens trees)
    (hafter : after.admits rest = true) : Pattern.acceptAll patterns (tokens ++ rest) = true := by
  unfold fits at hphrase
  rw [Bool.or_eq_true] at hphrase
  rcases hphrase with hopening | hhead
  · exact Pattern.acceptAll_of_allWithin hopening (acceptAll_opening h rest)
  · split at hhead
    · exact Lookahead.accepts_of_admits hhead (admits_starts hstarts h fun _ => hafter)
    · simp at hhead

theorem not_acceptAll_of_avoids {phrase : Phrase} {after : Lookahead} {patterns : List Pattern}
    (hphrase : phrase.avoids nestedStarts after patterns = true) {tokens rest : List Token}
    {trees : List ParseTree} (h : phrase.language nested tokens trees)
    (hafter : after.admits rest = true) :
    Pattern.acceptAll patterns (tokens ++ rest) = false := by
  fun_induction avoids nestedStarts after patterns phrase with
  | case1 guards yes no ihyes ihno =>
    rw [Bool.and_eq_true] at hphrase
    rcases h with hyes | hno
    · exact ihyes hphrase.1 hyes
    · exact ihno hphrase.2 hno
  | case2 phrase _ =>
    rw [Bool.or_eq_true, Bool.or_eq_true] at hphrase
    rcases hphrase with (hhopeless | hopening) | hhead
    · exact absurd h (not_language_of_hopeless hhopeless)
    · exact Pattern.not_acceptAll_of_someApart hopening (acceptAll_opening h rest)
    · split at hhead
      · exact Lookahead.not_accepts_of_admits hhead (admits_starts hstarts h fun _ => hafter) _
      · simp at hhead

/-- A reader finds whatever a predictive phrase stands for. -/
theorem read_complete
    (hnested : ∀ level tokens trees rest, nested level tokens trees →
      (nestedAfter level).admits rest = true →
      readNested level (tokens ++ rest) = .ok (trees, rest))
    {phrase : Phrase} {after : Lookahead}
    (hphrase : phrase.predictive nestedStarts nestedAfter after = true)
    {tokens rest : List Token} {trees : List ParseTree}
    (h : phrase.language nested tokens trees) (hafter : after.admits rest = true) :
    phrase.read readNested (tokens ++ rest) = .ok (trees, rest) := by
  induction phrase generalizing after tokens rest trees with
  | empty =>
    obtain ⟨rfl, rfl⟩ := h
    rfl
  | token pattern expected =>
    obtain ⟨next, haccepts, rfl, rfl⟩ := h
    rw [List.singleton_append, read, if_pos haccepts]
  | fail expected => exact h.elim
  | seq first second ihfirst ihsecond =>
    rw [predictive, Bool.and_eq_true] at hphrase
    obtain ⟨front, back, left, right, rfl, rfl, hfirst, hsecond⟩ := h
    -- after the first phrase come the tokens of the second, or what follows both
    have hback := admits_starts hstarts hsecond fun _ => hafter
    rw [read_seq, List.append_assoc, ihfirst hphrase.1 hfirst hback]
    show Outcome.andThen (second.read readNested (back ++ rest)) _ = _
    rw [ihsecond hphrase.2 hsecond hafter]
    rfl
  | node rule body ih =>
    obtain ⟨children, hbody, rfl⟩ := h
    rw [read_node, ih hphrase hbody hafter]
    rfl
  | ifNext patterns yes no ihyes ihno =>
    rw [predictive, Bool.and_eq_true, Bool.and_eq_true, Bool.and_eq_true] at hphrase
    obtain ⟨⟨⟨hyes, hno⟩, hfits⟩, havoids⟩ := hphrase
    rw [read]
    rcases h with h | h
    · rw [acceptAll_of_fits hstarts hfits h hafter]
      exact ihyes hyes h hafter
    · rw [not_acceptAll_of_avoids hstarts havoids h hafter]
      exact ihno hno h hafter
  | whileNext pattern body ih =>
    rw [predictive, Bool.and_eq_true, Bool.and_eq_true, Bool.and_eq_true] at hphrase
    obtain ⟨⟨⟨hbody, htakes⟩, hwithin⟩, hapart⟩ := hphrase
    have hne : ∀ front left, body.language nested front left → front ≠ [] :=
      fun front left hitem => ne_nil_of_takesToken hstarts htakes hitem
    rw [read]
    refine readWhile_complete (fun front left back hitem => ?_) hne
      (fun front left back right hitem hmany => ?_) hafter hapart h
    · exact Lookahead.accepts_of_admits hwithin
        (admits_starts hstarts hitem fun hnil => absurd hnil (hne front left hitem))
    · -- an item is followed by another item or by what follows the run
      have hmany : (Phrase.whileNext pattern body).language nested back right := hmany
      exact ih hbody hitem (admits_starts hstarts hmany fun _ => hafter)
  | nested level =>
    exact hnested level tokens trees rest h (Lookahead.admits_of_subset hphrase hafter)

end Predictive

end Phrase

/-! ## The grammar of programs -/

namespace Grammar

open Phrase

/-- The first tokens of what lies one level deeper. -/
def nestedStarts (level : Nesting) : Lookahead :=
  (nestedPhrase level).starts (fun _ => .nothing) .nothing

/-- The tokens that may follow what lies one level deeper: after a statement another one, a closing
brace or a semicolon, or nothing at all; after a group its closing parenthesis. -/
def nestedAfter : Nesting → Lookahead
  | .statement => ⟨(nestedStarts .statement).patterns ++ [sign "\x7d", sign ";"], true⟩
  | .group => ⟨[sign ")"], false⟩

theorem starts_nestedPhrase (starts : Nesting → Lookahead) (after : Lookahead) (level : Nesting) :
    (nestedPhrase level).starts starts after = nestedStarts level := by
  cases level <;> rfl

theorem predictive_nestedPhrase (level : Nesting) :
    (nestedPhrase level).predictive nestedStarts nestedAfter (nestedAfter level) = true := by
  cases level <;> decide

theorem predictive_program : program.predictive nestedStarts nestedAfter .endOnly = true := by
  decide

theorem nestedLanguage_starts (levels : Nat) (level : Nesting) (tokens : List Token)
    (trees : List ParseTree) (rest : List Token) (h : nestedLanguage levels level tokens trees) :
    (nestedStarts level).admits (tokens ++ rest) = true := by
  induction levels generalizing level tokens trees rest with
  | zero => exact h.elim
  | succ levels ih =>
    -- neither nested phrase can be empty, so what follows it does not matter
    have htakes : (nestedPhrase level).takesToken nestedStarts = true := by
      rw [takesToken, starts_nestedPhrase]
      cases level <;> rfl
    have hne := ne_nil_of_takesToken ih htakes h
    rw [← starts_nestedPhrase nestedStarts .endOnly level]
    exact admits_starts ih h fun hnil => absurd hnil hne

/-- If the grammar predicts what is nested in front of certain tokens, it is read in front of
them. -/
theorem readNested_of_predictive {after : Nesting → Lookahead}
    (hpredictive : ∀ level, (nestedPhrase level).predictive nestedStarts after (after level) = true)
    (levels : Nat) (level : Nesting) (tokens : List Token) (trees : List ParseTree)
    (rest : List Token) (h : nestedLanguage levels level tokens trees)
    (hafter : (after level).admits rest = true) :
    readNested levels level (tokens ++ rest) = .ok (trees, rest) := by
  induction levels generalizing level tokens trees rest with
  | zero => exact h.elim
  | succ levels ih =>
    exact read_complete (nestedLanguage_starts levels) ih (hpredictive level) h hafter

theorem readNested_complete (levels : Nat) (level : Nesting) (tokens : List Token)
    (trees : List ParseTree) (rest : List Token) (h : nestedLanguage levels level tokens trees)
    (hafter : (nestedAfter level).admits rest = true) :
    readNested levels level (tokens ++ rest) = .ok (trees, rest) :=
  readNested_of_predictive predictive_nestedPhrase levels level tokens trees rest h hafter

end Grammar

end ThreeAddress
