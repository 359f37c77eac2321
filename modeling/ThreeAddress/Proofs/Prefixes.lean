import Mathlib.Control.Monad.Basic
import ThreeAddress.Proofs.Acceptance
import ThreeAddress.Proofs.Locality

/-!
# What stands in front of an error

The tokens read before a failure can be completed to the end of the phrase, so a reader never goes
past a token that no program has in that place. Two things are computed from a phrase for that:
that every part of it stands for some tokens at all, and that where nothing fits, some other choice
could have gone on. A token that is refused cannot be completed, whatever stands behind it, because
the reader looks no further than that token.
-/

namespace ThreeAddress

namespace Language

/-- Some token list of the language begins with these tokens. -/
def Begins (language : Language) (front : List Token) : Prop :=
  ∃ back trees, language (front ++ back) trees

/-- Wherever the reader fails, the tokens in front begin a token list of the language. -/
def StopsInside (language : Language) (read : List Token → Outcome) : Prop :=
  ∀ tokens failure, read tokens = .error failure →
    ∃ front, tokens = front ++ failure.rest ∧ language.Begins front

open Outcome

variable {first second : Language} {front back : List Token} {left : List ParseTree}

theorem Begins.mono (hsub : ∀ tokens trees, first tokens trees → second tokens trees)
    (h : first.Begins front) : second.Begins front := by
  obtain ⟨back, trees, h⟩ := h
  exact ⟨back, trees, hsub _ _ h⟩

theorem StopsInside.mono {read : List Token → Outcome}
    (hsub : ∀ tokens trees, first tokens trees → second tokens trees)
    (h : first.StopsInside read) : second.StopsInside read := by
  intro tokens failure hread
  obtain ⟨front, hfront, hbegins⟩ := h tokens failure hread
  exact ⟨front, hfront, hbegins.mono hsub⟩

theorem Begins.of_append (h : first.Begins (front ++ back)) : first.Begins front := by
  obtain ⟨more, trees, h⟩ := h
  rw [List.append_assoc] at h
  exact ⟨back ++ more, trees, h⟩

theorem Begins.seq (h : first.Begins front) (hsecond : second.Begins []) :
    (Language.seq first second).Begins front := by
  obtain ⟨back, left, h⟩ := h
  obtain ⟨more, right, hmore⟩ := hsecond
  refine ⟨back ++ more, left ++ right, ?_⟩
  rw [← List.append_assoc]
  exact seq_intro h hmore

theorem Begins.after (hfirst : first front left) (h : second.Begins back) :
    (Language.seq first second).Begins (front ++ back) := by
  obtain ⟨more, right, h⟩ := h
  refine ⟨more, left ++ right, ?_⟩
  rw [List.append_assoc]
  exact seq_intro hfirst h

theorem Begins.node (rule : Rule) (h : first.Begins front) :
    (Language.node rule first).Begins front := by
  obtain ⟨back, children, h⟩ := h
  exact ⟨back, _, children, h, rfl⟩

theorem Begins.many (h : first.Begins front) : Begins (Many first) front :=
  h.mono fun _ _ => Many.single

theorem Begins.many_cons (hfirst : first front left) (h : Begins (Many first) back) :
    Begins (Many first) (front ++ back) := by
  obtain ⟨more, right, h⟩ := h
  refine ⟨more, left ++ right, ?_⟩
  rw [List.append_assoc]
  exact .cons hfirst h

-- Where a reader fails without taking a token, it is enough that there are any token lists.
theorem StopsInside.of_rest {read : List Token → Outcome} (h : first.Begins [])
    (hrest : ∀ tokens failure, read tokens = .error failure → failure.rest = tokens) :
    first.StopsInside read := by
  intro tokens failure hread
  rw [hrest tokens failure hread]
  exact ⟨[], rfl, h⟩

theorem StopsInside.seq {readFirst readSecond : List Token → Outcome}
    (hsound : first.Sound readFirst) (hfirst : first.StopsInside readFirst)
    (hsecond : second.StopsInside readSecond) (hbegins : second.Begins []) :
    (Language.seq first second).StopsInside fun tokens =>
      (readFirst tokens).andThen fun left rest =>
        (readSecond rest).andThen fun right final => .ok (left ++ right, final) := by
  intro tokens failure h
  rcases andThen_eq_error.1 h with herror | ⟨left, middle, hleft, hrest⟩
  · obtain ⟨front, hfront, hstop⟩ := hfirst tokens failure herror
    exact ⟨front, hfront, hstop.seq hbegins⟩
  · obtain ⟨front, rfl, hfront⟩ := hsound _ _ _ hleft
    rcases andThen_eq_error.1 hrest with herror | ⟨_, _, _, hok⟩
    · obtain ⟨back, rfl, hstop⟩ := hsecond middle failure herror
      exact ⟨front ++ back, (List.append_assoc ..).symm, hstop.after hfront⟩
    · cases hok

theorem StopsInside.node {read : List Token → Outcome} (rule : Rule) (h : first.StopsInside read) :
    (Language.node rule first).StopsInside fun tokens =>
      (read tokens).andThen fun trees rest => .ok ([ParseTree.ofRule rule trees], rest) := by
  intro tokens failure hread
  rcases andThen_eq_error.1 hread with herror | ⟨_, _, _, hok⟩
  · obtain ⟨front, hfront, hstop⟩ := h tokens failure herror
    exact ⟨front, hfront, hstop.node rule⟩
  · cases hok

end Language

/-- Whether some token is accepted. -/
def Pattern.satisfiable : Pattern → Bool
  | .word _ texts => !texts.isEmpty
  | .ofKind kinds => !kinds.isEmpty
  | .anyBut .. | .any => true

theorem Pattern.exists_accepts {pattern : Pattern} (h : pattern.satisfiable = true) :
    ∃ token, pattern.accepts token = true := by
  match pattern with
  | .word kind (text :: texts) => exact ⟨⟨kind, text⟩, by simp [accepts]⟩
  | .ofKind (kind :: kinds) => exact ⟨⟨kind, ""⟩, by simp [accepts]⟩
  | .anyBut kind text =>
    -- a token of another kind will do
    refine ⟨⟨if kind = .symbol then .number else .symbol, ""⟩, ?_⟩
    cases kind <;> rfl
  | .any => exact ⟨⟨.symbol, ""⟩, rfl⟩

namespace Phrase

open ThreeAddress.Language Outcome

/-- Whether the phrase is sure to have some token list, if what is nested in it has one. -/
def productive (ofNested : Bool) : Phrase → Bool
  | .empty | .whileNext .. => true
  | .token pattern _ => pattern.satisfiable
  | .fail _ => false
  | .seq first second => first.productive ofNested && second.productive ofNested
  | .node _ body => body.productive ofNested
  | .ifNext _ yes no => yes.productive ofNested || no.productive ofNested
  | .nested _ => ofNested

/-- Whether the phrase has a token list that begins with any given token that fits. -/
def mayOpenWith (pattern : Pattern) : Phrase → Bool
  | .token other _ => pattern.within other
  | .seq first second => first.mayOpenWith pattern && second.productive true
  | .node _ body => body.mayOpenWith pattern
  | .ifNext _ yes no => yes.mayOpenWith pattern || no.mayOpenWith pattern
  | _ => false

/-- Whether all that is read of the phrase before a failure can be completed, to the end of the
phrase or of one of the others it was chosen from. A choice may also end in a stub, which takes a
token with which one of the others begins. -/
def extendable (others : List Phrase) : Phrase → Bool
  | .empty | .nested _ => true
  | .token pattern _ => pattern.satisfiable
  | .fail _ => others.any (productive true)
  | .seq (.token pattern _) (.fail _) => pattern.satisfiable && others.any (mayOpenWith pattern)
  | .seq first second =>
      first.extendable [] && second.extendable [] && second.productive true
  | .node _ body => body.extendable []
  | .ifNext _ yes no => yes.extendable (no :: others) && no.extendable (yes :: others)
  | .whileNext _ body => body.extendable []

/-- The union of the languages of some phrases. -/
def unionLanguage (nested : Nesting → Language) (phrases : List Phrase) : Language :=
  fun tokens trees => ∃ phrase ∈ phrases, phrase.language nested tokens trees

variable {nested : Nesting → Language} {readNested : Nesting → List Token → Outcome}

theorem unionLanguage_self {phrase : Phrase} {others : List Phrase} (tokens : List Token)
    (trees : List ParseTree) (h : phrase.language nested tokens trees) :
    unionLanguage nested (phrase :: others) tokens trees :=
  ⟨phrase, List.mem_cons_self, h⟩

theorem unionLanguage_of_mem {phrase other : Phrase} {others : List Phrase}
    (hmem : other ∈ others) (tokens : List Token) (trees : List ParseTree)
    (h : other.language nested tokens trees) :
    unionLanguage nested (phrase :: others) tokens trees :=
  ⟨other, List.mem_cons_of_mem _ hmem, h⟩

-- Two of the phrases may be parts of one.
theorem unionLanguage_of_two {phrase first second : Phrase} {others : List Phrase}
    (hfirst : ∀ tokens trees, first.language nested tokens trees →
      phrase.language nested tokens trees)
    (hsecond : ∀ tokens trees, second.language nested tokens trees →
      phrase.language nested tokens trees) (tokens : List Token) (trees : List ParseTree)
    (h : unionLanguage nested (first :: second :: others) tokens trees) :
    unionLanguage nested (phrase :: others) tokens trees := by
  obtain ⟨other, hmem, hother⟩ := h
  rcases List.mem_cons.1 hmem with rfl | hmem
  · exact unionLanguage_self tokens trees (hfirst tokens trees hother)
  rcases List.mem_cons.1 hmem with rfl | hmem
  · exact unionLanguage_self tokens trees (hsecond tokens trees hother)
  · exact unionLanguage_of_mem hmem tokens trees hother

-- A phrase with no other choice beside it.
theorem stopsInside_of_single {phrase : Phrase} {read : List Token → Outcome}
    (h : (unionLanguage nested [phrase]).StopsInside read) :
    (phrase.language nested).StopsInside read := by
  refine h.mono ?_
  rintro tokens trees ⟨other, hmem, hother⟩
  rwa [List.mem_singleton.1 hmem] at hother

theorem begins_of_productive {ofNested : Bool}
    (hnested : ofNested = true → ∀ level, (nested level).Begins []) {phrase : Phrase}
    (hphrase : phrase.productive ofNested = true) : (phrase.language nested).Begins [] := by
  induction phrase with
  | empty => exact ⟨[], [], rfl, rfl⟩
  | token pattern expected =>
    obtain ⟨next, hnext⟩ := Pattern.exists_accepts hphrase
    exact ⟨[next], _, next, hnext, rfl, rfl⟩
  | fail => cases hphrase
  | seq first second ihfirst ihsecond =>
    rw [productive, Bool.and_eq_true] at hphrase
    exact (ihfirst hphrase.1).seq (ihsecond hphrase.2)
  | node rule body ih => exact (ih hphrase).node rule
  | ifNext patterns yes no ihyes ihno =>
    rw [productive, Bool.or_eq_true] at hphrase
    rcases hphrase with hyes | hno
    · exact (ihyes hyes).mono fun _ _ => .inl
    · exact (ihno hno).mono fun _ _ => .inr
  | whileNext => exact ⟨[], [], .nil⟩
  | nested level => exact hnested hphrase level

theorem rest_of_read_token {pattern : Pattern} {expected : String} (tokens : List Token)
    (failure : Failure)
    (h : (Phrase.token pattern expected).read readNested tokens = .error failure) :
    failure.rest = tokens := by
  cases tokens with
  | nil =>
    cases h
    rfl
  | cons next tokens =>
    rw [read] at h
    split at h
    · cases h
    · cases h
      rfl

-- Behind the token of a stub nothing fits, so only what some other choice begins with counts.
theorem stub_stopsInside {language : Language} {pattern : Pattern}
    (hpattern : pattern.satisfiable = true)
    (hopens : ∀ next, pattern.accepts next = true → language.Begins [next])
    (expected wanted : String) :
    language.StopsInside
      ((Phrase.seq (.token pattern expected) (.fail wanted)).read readNested) := by
  have hbegins : language.Begins [] := by
    obtain ⟨next, hnext⟩ := Pattern.exists_accepts hpattern
    exact @Begins.of_append language [] [next] (hopens next hnext)
  intro tokens failure h
  rw [read_seq] at h
  rcases andThen_eq_error.1 h with htoken | ⟨left, middle, htoken, hfail⟩
  · rw [rest_of_read_token tokens failure htoken]
    exact ⟨[], rfl, hbegins⟩
  · cases tokens with
    | nil => cases htoken
    | cons next tokens =>
      rw [read] at htoken
      split at htoken
      · rename_i hnext
        cases htoken
        cases hfail
        exact ⟨[next], rfl, hopens next hnext⟩
      · cases htoken

theorem readWhile_stopsInside {pattern : Pattern} {readItem : List Token → Outcome}
    {item : Language} (hsound : item.Sound readItem) (hitem : item.StopsInside readItem) :
    StopsInside (Many item) (readWhile pattern readItem) := by
  intro tokens
  fun_induction readWhile pattern readItem tokens with
  | case1 tokens haccept failure hread =>
    intro found h
    obtain rfl : failure = found := Except.error.inj h
    obtain ⟨front, hfront, hbegins⟩ := hitem tokens failure hread
    exact ⟨front, hfront, hbegins.many⟩
  | case2 tokens haccept trees rest hread hlt failure hmore ih =>
    intro found h
    obtain rfl : failure = found := Except.error.inj h
    obtain ⟨front, rfl, hfront⟩ := hsound _ _ _ hread
    obtain ⟨back, rfl, hbegins⟩ := ih failure hmore
    exact ⟨front ++ back, (List.append_assoc ..).symm, hbegins.many_cons hfront⟩
  | case3 | case4 | case5 =>
    intro found h
    cases h

section Extendable

variable (hnested : ∀ level, (nested level).Begins [])
include hnested

theorem begins_of_mayOpenWith {pattern : Pattern} {phrase : Phrase}
    (hphrase : phrase.mayOpenWith pattern = true) {next : Token}
    (hnext : pattern.accepts next = true) : (phrase.language nested).Begins [next] := by
  fun_induction mayOpenWith pattern phrase with
  | case1 other expected =>
    exact ⟨[], _, next, Pattern.accepts_of_within hphrase hnext, rfl, rfl⟩
  | case2 first second ih =>
    rw [Bool.and_eq_true] at hphrase
    exact (ih hphrase.1).seq (begins_of_productive (fun _ => hnested) hphrase.2)
  | case3 rule body ih => exact (ih hphrase).node rule
  | case4 patterns yes no ihyes ihno =>
    rw [Bool.or_eq_true] at hphrase
    rcases hphrase with hyes | hno
    · exact (ihyes hyes).mono fun _ _ => .inl
    · exact (ihno hno).mono fun _ _ => .inr
  | case5 => cases hphrase

variable (hsound : ∀ level, (nested level).Sound (readNested level))
  (hstops : ∀ level, (nested level).StopsInside (readNested level))
include hsound hstops

/-- If all that is read of a phrase can be completed, a failure stands behind the beginning of the
phrase or of one of the other choices. -/
theorem read_stopsInside_union {others : List Phrase} {phrase : Phrase}
    (hphrase : phrase.extendable others = true) :
    (unionLanguage nested (phrase :: others)).StopsInside (phrase.read readNested) := by
  have hbegins {phrase : Phrase} (h : phrase.productive true = true) :
      (phrase.language nested).Begins [] :=
    begins_of_productive (fun _ => hnested) h
  fun_induction extendable others phrase with
  | case1 others =>
    intro tokens failure h
    cases h
  | case2 others level => exact (hstops level).mono unionLanguage_self
  | case3 others pattern expected =>
    have hproductive : (Phrase.token pattern expected).productive true = true := hphrase
    exact .of_rest ((hbegins hproductive).mono unionLanguage_self) rest_of_read_token
  | case4 others expected =>
    obtain ⟨other, hmem, hother⟩ := List.any_eq_true.1 hphrase
    refine .of_rest ((hbegins hother).mono (unionLanguage_of_mem hmem)) fun tokens failure h => ?_
    cases h
    rfl
  | case5 others pattern expected wanted =>
    rw [Bool.and_eq_true] at hphrase
    obtain ⟨other, hmem, hother⟩ := List.any_eq_true.1 hphrase.2
    refine stub_stopsInside hphrase.1 (fun next hnext => ?_) expected wanted
    exact (begins_of_mayOpenWith hnested hother hnext).mono (unionLanguage_of_mem hmem)
  | case6 others first second _ ihfirst ihsecond =>
    rw [Bool.and_eq_true, Bool.and_eq_true] at hphrase
    have hread := StopsInside.seq (read_sound hsound first)
      (stopsInside_of_single (ihfirst hphrase.1.1)) (stopsInside_of_single (ihsecond hphrase.1.2))
      (hbegins hphrase.2)
    rw [← funext (read_seq first second)] at hread
    exact hread.mono unionLanguage_self
  | case7 others rule body ih =>
    have hread := (stopsInside_of_single (ih hphrase)).node rule
    rw [← funext (read_node rule body)] at hread
    exact hread.mono unionLanguage_self
  | case8 others patterns yes no ihyes ihno =>
    rw [Bool.and_eq_true] at hphrase
    have hyes (tokens : List Token) (trees : List ParseTree)
        (h : yes.language nested tokens trees) :
        (Phrase.ifNext patterns yes no).language nested tokens trees := .inl h
    have hno (tokens : List Token) (trees : List ParseTree)
        (h : no.language nested tokens trees) :
        (Phrase.ifNext patterns yes no).language nested tokens trees := .inr h
    -- the way not taken is one of the other choices
    intro tokens failure h
    rw [read] at h
    split at h
    · exact (ihyes hphrase.1).mono (unionLanguage_of_two hyes hno) tokens failure h
    · exact (ihno hphrase.2).mono (unionLanguage_of_two hno hyes) tokens failure h
  | case9 others pattern body ih =>
    have hread : StopsInside (Many (body.language nested))
        (readWhile pattern (body.read readNested)) :=
      readWhile_stopsInside (read_sound hsound body) (stopsInside_of_single (ih hphrase))
    refine StopsInside.mono unionLanguage_self fun tokens failure h => ?_
    rw [read] at h
    exact hread tokens failure h

theorem read_stopsInside {phrase : Phrase} (hphrase : phrase.extendable [] = true) :
    (phrase.language nested).StopsInside (phrase.read readNested) :=
  stopsInside_of_single (read_stopsInside_union hnested hsound hstops hphrase)

end Extendable

end Phrase

/-! ## The grammar of programs -/

namespace Grammar

open ThreeAddress.Language ParseTree

theorem productive_nestedPhrase (level : Nesting) :
    (nestedPhrase level).productive false = true := by
  cases level <;> decide

theorem extendable_nestedPhrase (level : Nesting) :
    (nestedPhrase level).extendable [] = true := by
  cases level <;> decide

theorem extendable_program : program.extendable [] = true := by
  decide

-- Both nested phrases have token lists without any deeper nesting.
theorem nestedLanguage_begins (levels : Nat) (level : Nesting) :
    (nestedLanguage (levels + 1) level).Begins [] :=
  Phrase.begins_of_productive (fun h => absurd h Bool.false_ne_true) (productive_nestedPhrase level)

-- One level more leaves room to complete what was too deep for the reader.
theorem readNested_sound_succ (levels : Nat) (level : Nesting) :
    (nestedLanguage (levels + 1) level).Sound (readNested levels level) := by
  induction levels generalizing level with
  | zero =>
    intro tokens trees rest h
    simp [readNested] at h
  | succ levels ih => exact Phrase.read_sound ih (nestedPhrase level)

theorem readNested_stopsInside (levels : Nat) (level : Nesting) :
    (nestedLanguage (levels + 1) level).StopsInside (readNested levels level) := by
  induction levels generalizing level with
  | zero =>
    refine .of_rest (nestedLanguage_begins 0 level) fun tokens failure h => ?_
    cases h
    rfl
  | succ levels ih =>
    exact Phrase.read_stopsInside (nestedLanguage_begins levels) (readNested_sound_succ levels) ih
      (extendable_nestedPhrase level)

/-- Some program begins with these tokens, however deep it nests. -/
def BeginsProgram (front : List Token) : Prop :=
  ∃ back tree, IsProgram (front ++ back) tree

theorem readProgram_begins {tokens : List Token} {failure : Failure}
    (h : readProgram tokens = .error failure) :
    ∃ front, tokens = front ++ failure.rest ∧ BeginsProgram front := by
  have hstops : (program.language (nestedLanguage (nestingLimit + 1))).StopsInside readProgram :=
    Phrase.read_stopsInside (nestedLanguage_begins nestingLimit)
      (readNested_sound_succ nestingLimit) (readNested_stopsInside nestingLimit) extendable_program
  obtain ⟨front, hfront, back, trees, hlanguage⟩ := hstops tokens failure h
  rw [program_language] at hlanguage
  exact ⟨front, hfront, back, ofRule .root trees, .rule hlanguage.1⟩

-- What is read of a program never fails for want of a fitting token.
theorem not_isProgram_of_expected {tokens rest : List Token} {what : String}
    (h : readProgram tokens = .error ⟨.expected what, rest⟩) (tree : ParseTree) :
    ¬ IsProgram tokens tree := by
  intro htree
  have herror := ofTokens?_of_error h
  rcases Nat.lt_or_ge nestingLimit (nesting tree) with hlt | hle
  · obtain ⟨position, htooDeep⟩ := ofTokens?_tooDeep htree hlt
    rw [herror] at htooDeep
    cases rest <;> simp [SyntaxError.ofFailure] at htooDeep
  · rw [ofTokens?_eq_ok_iff.2 ⟨htree, hle⟩] at herror
    cases herror

/-- A token that is refused cannot stand there, whatever comes after it. -/
theorem not_beginsProgram_of_expected {front back : List Token} {what : String} {next : Token}
    (h : readProgram (front ++ next :: back) = .error ⟨.expected what, next :: back⟩) :
    ¬ BeginsProgram (front ++ [next]) := by
  rintro ⟨more, tree, htree⟩
  rw [List.append_assoc, List.singleton_append] at htree
  have hother := readProgram_local front next back more (by rw [h]; rfl)
  rw [h] at hother
  exact not_isProgram_of_expected hother tree htree

/-- A syntax error, other than tokens left at the end, stands where reading failed. -/
theorem readProgram_of_error {tokens : List Token} {error : SyntaxError}
    (h : ParseTree.ofTokens? tokens = .error error)
    (hne : ∀ position found, error ≠ .trailing position found) :
    ∃ front failure, tokens = front ++ failure.rest ∧ BeginsProgram front ∧
      readProgram tokens = .error failure ∧ error = .ofFailure front.length failure := by
  cases hread : readProgram tokens with
  | error failure =>
    obtain ⟨front, hfront, hbegins⟩ := readProgram_begins hread
    rw [ofTokens?_of_error hread] at h
    have hlength : tokens.length - failure.rest.length = front.length := by
      rw [hfront, List.length_append, Nat.add_sub_cancel]
    rw [hlength] at h
    exact ⟨front, failure, hfront, hbegins, rfl, (Except.error.inj h).symm⟩
  | ok result =>
    obtain ⟨trees, rest⟩ := result
    unfold ParseTree.ofTokens? Reading.next at h
    rw [show (Reading.start tokens).tokens.drop (Reading.start tokens).position = tokens from rfl,
      hread] at h
    cases rest with
    | nil => cases h
    | cons found rest => exact absurd (Except.error.inj h).symm (hne _ _)

/-- A syntax error points at the first token that no program has in that place, and gives it. At the
end of the tokens more of them would have made a program, and what is too deep for the reader still
begins one. -/
theorem ofTokens?_error_position (tokens : List Token) :
    (∀ position expected found,
        ParseTree.ofTokens? tokens = .error (.unexpected position expected found) →
          BeginsProgram (tokens.take position) ∧ ¬ BeginsProgram (tokens.take (position + 1)) ∧
            tokens[position]? = some found) ∧
      (∀ expected, ParseTree.ofTokens? tokens = .error (.unexpectedEnd expected) →
        (∃ next more tree, IsProgram (tokens ++ next :: more) tree) ∧
          ¬ ∃ tree, IsProgram tokens tree) ∧
      (∀ position, ParseTree.ofTokens? tokens = .error (.tooDeep position) →
        BeginsProgram (tokens.take position)) := by
  refine ⟨fun position expected found h => ?_, fun expected h => ?_, fun position h => ?_⟩
  · obtain ⟨front, ⟨fault, rest⟩, rfl, hbegins, hread, herror⟩ := readProgram_of_error h nofun
    match fault, rest with
    | .expected what, [] => cases herror
    | .tooDeep, _ => cases herror
    | .expected what, next :: rest =>
      cases herror
      refine ⟨?_, ?_, ?_⟩
      · rwa [List.take_left]
      · rw [List.take_length_add_append, List.take_succ_cons, List.take_zero]
        exact not_beginsProgram_of_expected hread
      · simp
  · obtain ⟨front, ⟨fault, rest⟩, rfl, ⟨back, tree, htree⟩, hread, herror⟩ :=
      readProgram_of_error h nofun
    match fault, rest with
    | .expected what, next :: rest => cases herror
    | .tooDeep, _ => cases herror
    | .expected what, [] =>
      have hnot := not_isProgram_of_expected hread
      refine ⟨?_, fun ⟨tree, h⟩ => hnot tree h⟩
      cases back with
      | nil => exact absurd htree (hnot tree)
      | cons next more => exact ⟨next, more, tree, by simpa using htree⟩
  · obtain ⟨front, ⟨fault, rest⟩, rfl, hbegins, hread, herror⟩ := readProgram_of_error h nofun
    match fault, rest with
    | .expected what, [] => cases herror
    | .expected what, next :: rest => cases herror
    | .tooDeep, _ =>
      cases herror
      rwa [List.take_left]

-- A declaration without a name goes wrong at its second token, and a lone type at its end.
theorem ofTokens?_error_position_int :
    (BeginsProgram [⟨.reservedWord, "int"⟩] ∧
        ¬ BeginsProgram [⟨.reservedWord, "int"⟩, ⟨.symbol, "="⟩]) ∧
      ∃ next more tree, IsProgram (⟨.reservedWord, "int"⟩ :: next :: more) tree := by
  -- trees cannot be compared by evaluation, but errors can
  have heval {tokens : List Token} {error : SyntaxError}
      (h : (ofTokens? tokens).map (fun _ => ()) = .error error) :
      ofTokens? tokens = .error error := by
    cases hread : ofTokens? tokens with
    | error found =>
      rw [hread] at h
      exact congrArg Except.error (Except.error.inj h)
    | ok tree =>
      rw [hread] at h
      cases h
  have hname := (ofTokens?_error_position
    [⟨.reservedWord, "int"⟩, ⟨.symbol, "="⟩, ⟨.number, "5"⟩]).1 1 "identifier after type"
      ⟨.symbol, "="⟩ (heval (by decide +kernel))
  have hend := (ofTokens?_error_position [⟨.reservedWord, "int"⟩]).2.1 "identifier after type"
    (heval (by decide +kernel))
  exact ⟨⟨hname.1, hname.2.1⟩, hend.1⟩

end Grammar

end ThreeAddress
