import ThreeAddress.Grammar.Reading

/-!
# Languages of phrases

A language says which token lists stand for which parse trees. The language of a phrase leaves out
the patterns that guide a reader: a choice is just a union and a repetition is any number of items.
Whatever is read from the front of a token list belongs to the language of the phrase. With fewer
levels of nesting to spare, a reader gives the same outcome or stops because it is too deep.
-/

namespace ThreeAddress

/-! ## Readers in sequence -/

namespace Outcome

/-- Goes on with the trees and the tokens left, unless reading has failed. -/
def andThen (outcome : Outcome) (next : List ParseTree → List Token → Outcome) : Outcome :=
  match outcome with
  | .error failure => .error failure
  | .ok (trees, rest) => next trees rest

theorem andThen_eq_ok {outcome : Outcome} {next : List ParseTree → List Token → Outcome}
    {result : List ParseTree × List Token} :
    outcome.andThen next = .ok result ↔
      ∃ trees rest, outcome = .ok (trees, rest) ∧ next trees rest = .ok result := by
  unfold andThen
  split
  · simp
  · rename_i trees rest
    constructor
    · exact fun h => ⟨trees, rest, rfl, h⟩
    · rintro ⟨_, _, heq, h⟩
      obtain ⟨rfl, rfl⟩ := Prod.mk.inj (Except.ok.inj heq)
      exact h

theorem andThen_eq_error {outcome : Outcome} {next : List ParseTree → List Token → Outcome}
    {failure : Failure} :
    outcome.andThen next = .error failure ↔ outcome = .error failure ∨
      ∃ trees rest, outcome = .ok (trees, rest) ∧ next trees rest = .error failure := by
  unfold andThen
  split
  · simp
  · rename_i trees rest
    constructor
    · exact fun h => .inr ⟨trees, rest, rfl, h⟩
    · rintro (h | ⟨_, _, heq, h⟩)
      · cases h
      · obtain ⟨rfl, rfl⟩ := Prod.mk.inj (Except.ok.inj heq)
        exact h

/-- Equal to the other outcome, or stopped for want of levels. -/
def UpToDepth (outcome other : Outcome) : Prop :=
  outcome = other ∨ ∃ rest, outcome = .error ⟨.tooDeep, rest⟩

theorem UpToDepth.refl (outcome : Outcome) : UpToDepth outcome outcome :=
  .inl rfl

theorem UpToDepth.andThen {outcome other : Outcome}
    {next further : List ParseTree → List Token → Outcome} (h : UpToDepth outcome other)
    (hnext : ∀ trees rest, UpToDepth (next trees rest) (further trees rest)) :
    UpToDepth (outcome.andThen next) (other.andThen further) := by
  rcases h with rfl | ⟨rest, rfl⟩
  · cases outcome with
    | error failure => exact .refl _
    | ok result => exact hnext result.1 result.2
  · exact .inr ⟨rest, rfl⟩

end Outcome

namespace Phrase

variable {readNested : Nesting → List Token → Outcome}

-- An item is read in sequence with the items behind it, as long as it takes some token.
theorem readWhile_eq (pattern : Pattern) (readItem : List Token → Outcome) (tokens : List Token) :
    readWhile pattern readItem tokens =
      if Pattern.acceptAll [pattern] tokens then
        (readItem tokens).andThen fun trees rest =>
          if rest.length < tokens.length then
            (readWhile pattern readItem rest).andThen fun more final => .ok (trees ++ more, final)
          else .ok (trees, rest)
      else .ok ([], tokens) := by
  rw [readWhile]
  rfl

theorem read_seq (first second : Phrase) (tokens : List Token) :
    (first.seq second).read readNested tokens =
      (first.read readNested tokens).andThen fun trees rest =>
        (second.read readNested rest).andThen fun more final => .ok (trees ++ more, final) := by
  rw [read]
  rfl

theorem read_node (rule : Rule) (body : Phrase) (tokens : List Token) :
    (body.node rule).read readNested tokens =
      (body.read readNested tokens).andThen fun trees rest =>
        .ok ([ParseTree.ofRule rule trees], rest) := by
  rw [read]
  rfl

end Phrase

/-! ## Languages -/

/-- Which token lists stand for which parse trees. -/
abbrev Language := List Token → List ParseTree → Prop

namespace Language

/-- Only the empty token list, for no tree. -/
def empty : Language :=
  fun tokens trees => tokens = [] ∧ trees = []

/-- One token that is accepted, for its terminal. -/
def token (accepts : Token → Bool) : Language :=
  fun tokens trees =>
    ∃ next : Token, accepts next = true ∧ tokens = [next] ∧ trees = [ParseTree.terminal next.text]

/-- The trees of the first language, then those of the second. -/
def seq (first second : Language) : Language :=
  fun tokens trees => ∃ front back left right,
    tokens = front ++ back ∧ trees = left ++ right ∧ first front left ∧ second back right

def either (first second : Language) : Language :=
  fun tokens trees => first tokens trees ∨ second tokens trees

/-- The trees of the body as the children of one node. -/
def node (rule : Rule) (body : Language) : Language :=
  fun tokens trees => ∃ children, body tokens children ∧ trees = [ParseTree.ofRule rule children]

/-- Any number of items, one after the other. -/
inductive Many (item : Language) : List Token → List ParseTree → Prop where
  | nil : Many item [] []
  | cons {front back left right} : item front left → Many item back right →
      Many item (front ++ back) (left ++ right)

theorem ext {language other : Language}
    (h : ∀ tokens trees, language tokens trees ↔ other tokens trees) : language = other :=
  funext fun tokens => funext fun trees => propext (h tokens trees)

theorem seq_intro {first second : Language} {front back : List Token} {left right : List ParseTree}
    (hfirst : first front left) (hsecond : second back right) :
    seq first second (front ++ back) (left ++ right) :=
  ⟨front, back, left, right, rfl, rfl, hfirst, hsecond⟩

theorem Many.single {item : Language} {tokens : List Token} {trees : List ParseTree}
    (h : item tokens trees) : Many item tokens trees := by
  have hone := Many.cons h .nil
  rwa [List.append_nil, List.append_nil] at hone

theorem either_comm (first second : Language) : either first second = either second first :=
  ext fun _ _ => Or.comm

theorem either_never (language : Language) : either language (fun _ _ => False) = language :=
  ext fun _ _ => or_iff_left id

theorem seq_never (language : Language) : seq language (fun _ _ => False) = fun _ _ => False := by
  apply ext
  intro tokens trees
  refine ⟨?_, False.elim⟩
  rintro ⟨_, _, _, _, -, -, -, h⟩
  exact h

theorem seq_either (first second language : Language) :
    seq (either first second) language = either (seq first language) (seq second language) := by
  apply ext
  intro tokens trees
  constructor
  · rintro ⟨front, back, left, right, rfl, rfl, h | h, hback⟩
    · exact .inl (seq_intro h hback)
    · exact .inr (seq_intro h hback)
  · rintro (⟨front, back, left, right, rfl, rfl, h, hback⟩ |
      ⟨front, back, left, right, rfl, rfl, h, hback⟩)
    · exact seq_intro (.inl h) hback
    · exact seq_intro (.inr h) hback

theorem empty_seq (language : Language) : seq empty language = language := by
  apply ext
  intro tokens trees
  refine ⟨?_, fun h => ⟨[], tokens, [], trees, rfl, rfl, ⟨rfl, rfl⟩, h⟩⟩
  rintro ⟨front, back, left, right, rfl, rfl, ⟨rfl, rfl⟩, h⟩
  exact h

theorem node_either (rule : Rule) (first second : Language) :
    node rule (either first second) = either (node rule first) (node rule second) := by
  apply ext
  intro tokens trees
  simp [node, either, or_and_right, exists_or]

/-- Whatever the reader takes from the front of a token list belongs to the language. -/
def Sound (language : Language) (read : List Token → Outcome) : Prop :=
  ∀ tokens trees rest, read tokens = .ok (trees, rest) →
    ∃ front, tokens = front ++ rest ∧ language front trees

end Language

namespace Phrase

open ThreeAddress.Language Outcome

/-- The language of a phrase, given those of the phrases nested in it. -/
@[simp]
def language (nested : Nesting → Language) : Phrase → Language
  | .empty => Language.empty
  | .token pattern _ => Language.token pattern.accepts
  | .fail _ => fun _ _ => False
  | .seq first second => Language.seq (first.language nested) (second.language nested)
  | .node rule body => Language.node rule (body.language nested)
  | .ifNext _ yes no => Language.either (yes.language nested) (no.language nested)
  | .whileNext _ body => Language.Many (body.language nested)
  | .nested level => nested level

/-! ## Reading is sound -/

theorem readWhile_sound {pattern : Pattern} {readItem : List Token → Outcome} {item : Language}
    (hitem : item.Sound readItem) : Sound (Many item) (readWhile pattern readItem) := by
  intro tokens
  -- each further item leaves fewer tokens
  induction hlength : tokens.length using Nat.strongRecOn generalizing tokens with
  | ind length ih =>
    intro trees rest h
    rw [readWhile_eq] at h
    split at h
    · obtain ⟨left, middle, hread, h⟩ := andThen_eq_ok.1 h
      obtain ⟨front, rfl, hfront⟩ := hitem _ _ _ hread
      split at h
      · rename_i hlt
        obtain ⟨right, final, hmore, h⟩ := andThen_eq_ok.1 h
        obtain ⟨rfl, rfl⟩ := Prod.mk.inj (Except.ok.inj h)
        obtain ⟨back, rfl, hback⟩ := ih _ (hlength ▸ hlt) _ rfl _ _ hmore
        exact ⟨front ++ back, (List.append_assoc ..).symm, .cons hfront hback⟩
      · -- an item that takes no token is the last one
        obtain ⟨rfl, rfl⟩ := Prod.mk.inj (Except.ok.inj h)
        exact ⟨front, rfl, .single hfront⟩
    · obtain ⟨rfl, rfl⟩ := Prod.mk.inj (Except.ok.inj h)
      exact ⟨[], rfl, .nil⟩

/-- If the readers of nested phrases are sound, so is the reader of a phrase. -/
theorem read_sound {nested : Nesting → Language} {readNested : Nesting → List Token → Outcome}
    (hnested : ∀ level, (nested level).Sound (readNested level)) (phrase : Phrase) :
    (phrase.language nested).Sound (phrase.read readNested) := by
  induction phrase with
  | empty =>
    intro tokens trees rest h
    obtain ⟨rfl, rfl⟩ := Prod.mk.inj (Except.ok.inj h)
    exact ⟨[], rfl, rfl, rfl⟩
  | token pattern expected =>
    intro tokens trees rest h
    cases tokens with
    | nil =>
      simp [read] at h
    | cons next tokens =>
      rw [read] at h
      split at h
      · rename_i haccepts
        obtain ⟨rfl, rfl⟩ := Prod.mk.inj (Except.ok.inj h)
        exact ⟨[next], rfl, next, haccepts, rfl, rfl⟩
      · -- a token that does not fit is a failure
        simp at h
  | fail expected =>
    intro tokens trees rest h
    simp [read] at h
  | seq first second ihfirst ihsecond =>
    intro tokens trees rest h
    rw [read_seq] at h
    obtain ⟨left, middle, hfirst, h⟩ := andThen_eq_ok.1 h
    obtain ⟨right, final, hsecond, h⟩ := andThen_eq_ok.1 h
    obtain ⟨rfl, rfl⟩ := Prod.mk.inj (Except.ok.inj h)
    obtain ⟨front, rfl, hfront⟩ := ihfirst _ _ _ hfirst
    obtain ⟨back, rfl, hback⟩ := ihsecond _ _ _ hsecond
    exact ⟨front ++ back, (List.append_assoc ..).symm, seq_intro hfront hback⟩
  | node rule body ih =>
    intro tokens trees rest h
    rw [read_node] at h
    obtain ⟨children, final, hbody, h⟩ := andThen_eq_ok.1 h
    obtain ⟨rfl, rfl⟩ := Prod.mk.inj (Except.ok.inj h)
    obtain ⟨front, rfl, hfront⟩ := ih _ _ _ hbody
    exact ⟨front, rfl, children, hfront, rfl⟩
  | ifNext patterns yes no ihyes ihno =>
    intro tokens trees rest h
    rw [read] at h
    -- either way taken belongs to the union
    split at h
    · obtain ⟨front, hfront, hyes⟩ := ihyes _ _ _ h
      exact ⟨front, hfront, .inl hyes⟩
    · obtain ⟨front, hfront, hno⟩ := ihno _ _ _ h
      exact ⟨front, hfront, .inr hno⟩
  | whileNext pattern body ih =>
    intro tokens trees rest h
    rw [read] at h
    exact readWhile_sound ih _ _ _ h
  | nested level =>
    intro tokens trees rest h
    rw [read] at h
    exact hnested level _ _ _ h

/-! ## Fewer levels to spare -/

-- Items that differ at most for want of levels make runs that do.
theorem readWhile_upToDepth {pattern : Pattern} {short long : List Token → Outcome}
    (h : ∀ tokens, UpToDepth (short tokens) (long tokens)) (tokens : List Token) :
    UpToDepth (readWhile pattern short tokens) (readWhile pattern long tokens) := by
  induction hlength : tokens.length using Nat.strongRecOn generalizing tokens with
  | ind length ih =>
    rw [readWhile_eq, readWhile_eq]
    split
    · apply (h tokens).andThen
      intro trees rest
      split
      · rename_i hlt
        exact (ih _ (hlength ▸ hlt) _ rfl).andThen fun _ _ => .refl _
      · exact .refl _
    · exact .refl _

theorem read_upToDepth {short long : Nesting → List Token → Outcome}
    (h : ∀ level tokens, UpToDepth (short level tokens) (long level tokens)) (phrase : Phrase)
    (tokens : List Token) : UpToDepth (phrase.read short tokens) (phrase.read long tokens) := by
  induction phrase generalizing tokens with
  | empty | fail => exact .refl _
  | token =>
    cases tokens with
    | nil => exact .refl _
    | cons next tokens => exact .refl _
  | seq first second ihfirst ihsecond =>
    rw [read_seq, read_seq]
    exact (ihfirst tokens).andThen fun _ rest => (ihsecond rest).andThen fun _ _ => .refl _
  | node rule body ih =>
    rw [read_node, read_node]
    exact (ih tokens).andThen fun _ _ => .refl _
  | ifNext patterns yes no ihyes ihno =>
    rw [read, read]
    split
    · exact ihyes tokens
    · exact ihno tokens
  | whileNext pattern body ih =>
    rw [read, read]
    exact readWhile_upToDepth ih tokens
  | nested level => exact h level tokens

end Phrase

namespace Grammar

open Outcome

/-- The phrases that lie one level deeper, with the given number of levels to spare. -/
def nestedLanguage : Nat → Nesting → Language
  | 0, _ => fun _ _ => False
  | levels + 1, level => (nestedPhrase level).language (nestedLanguage levels)

theorem readNested_sound (levels : Nat) (level : Nesting) :
    (nestedLanguage levels level).Sound (readNested levels level) := by
  induction levels generalizing level with
  | zero =>
    intro tokens trees rest h
    simp [readNested] at h
  | succ levels ih => exact Phrase.read_sound ih (nestedPhrase level)

theorem readNested_upToDepth {short long : Nat} (hle : short ≤ long) (level : Nesting)
    (tokens : List Token) : UpToDepth (readNested short level tokens)
      (readNested long level tokens) := by
  induction short generalizing long level tokens with
  | zero => exact .inr ⟨tokens, rfl⟩
  | succ short ih =>
    -- the longer reader has a level left too, so both read the same phrase
    obtain ⟨long, rfl⟩ := Nat.exists_eq_succ_of_ne_zero (by omega : long ≠ 0)
    exact Phrase.read_upToDepth (fun level tokens => ih (by omega) level tokens) _ tokens

end Grammar

end ThreeAddress
