import Mathlib.Logic.Function.Iterate
import ThreeAddress.Proofs.Concatenation

/-!
# Reading with a cursor

The same reader as a machine: it walks over one fixed token list with a cursor that counts the
tokens done and the levels of nesting that are open. A look ahead steps over the tokens that fit and
back again. A level is counted when it is entered and given back when it is left, after a failure
too. Nothing stops the machine but a bound on the turns of each of its loops and on the calls inside
each other. It always stops before: every item of a loop takes a token, and the levels are counted.
It finds the same trees and the same faults as the reader, it leaves the levels as it found them,
and it can be started again where it stopped.
-/

namespace ThreeAddress

/-- How many tokens are done and how many levels are open. -/
structure Cursor where
  position : Nat
  depth : Nat
  deriving DecidableEq, Repr

namespace Cursor

def start : Cursor :=
  ⟨0, 0⟩

def advance (cursor : Cursor) : Cursor :=
  ⟨cursor.position + 1, cursor.depth⟩

def retreat (cursor : Cursor) : Cursor :=
  ⟨cursor.position - 1, cursor.depth⟩

def enter (cursor : Cursor) : Cursor :=
  ⟨cursor.position, cursor.depth + 1⟩

def leave (cursor : Cursor) : Cursor :=
  ⟨cursor.position, cursor.depth - 1⟩

end Cursor

/-- The trees read or the cause of a failure, and the cursor where the machine stops; nothing if it
has not stopped within its bounds. -/
abbrev Stop := Option (Except Fault (List ParseTree) × Cursor)

/-- Goes on with the trees and the cursor, unless the machine has failed. -/
def Stop.andThen (stop : Stop) (next : List ParseTree → Cursor → Stop) : Stop :=
  match stop with
  | none => none
  | some (.error fault, cursor) => some (.error fault, cursor)
  | some (.ok trees, cursor) => next trees cursor

namespace Phrase

variable (tokens : List Token)

/-- Whether the next tokens fit the patterns, and the cursor after the look ahead. Every token that
fits is stepped over and stepped back again. -/
def look : List Pattern → Cursor → Bool × Cursor
  | [], cursor => (true, cursor)
  | pattern :: patterns, cursor =>
      match tokens[cursor.position]? with
      | none => (false, cursor)
      | some next =>
          if pattern.accepts next then
            let (fits, ahead) := look patterns cursor.advance
            (fits, ahead.retreat)
          else (false, cursor)

/-- Looking ahead moves nothing in the end. -/
theorem look_eq (patterns : List Pattern) (cursor : Cursor) :
    look tokens patterns cursor =
      (Pattern.acceptAll patterns (tokens.drop cursor.position), cursor) := by
  induction patterns generalizing cursor with
  | nil => rfl
  | cons pattern patterns ih =>
    rw [look]
    cases hnext : tokens[cursor.position]? with
    | none =>
      rw [List.drop_eq_nil_of_le (List.getElem?_eq_none_iff.1 hnext)]
      rfl
    | some next =>
      obtain ⟨hlt, rfl⟩ := List.getElem?_eq_some_iff.1 hnext
      rw [List.drop_eq_getElem_cons hlt, Pattern.acceptAll]
      dsimp only
      split
      · rename_i hfits
        rw [ih, hfits]
        rfl
      · rename_i hfits
        rw [Bool.eq_false_iff.2 hfits]
        rfl

/-- Runs one item after the other as long as the next token fits the pattern. Nothing else ends the
loop but the number of turns. -/
def runWhile (pattern : Pattern) (runItem : Cursor → Stop) : Nat → Cursor → Stop
  | 0, _ => none
  | turns + 1, cursor =>
      match look tokens [pattern] cursor with
      | (true, cursor) =>
          (runItem cursor).andThen fun trees later =>
            (runWhile pattern runItem turns later).andThen fun more final =>
              some (.ok (trees ++ more), final)
      | (false, cursor) => some (.ok [], cursor)

/-- Runs a phrase, given how to run what is nested in it. A loop has a turn for every token and one
more to end it. -/
def run (runNested : Nesting → Cursor → Stop) : Phrase → Cursor → Stop
  | .empty, cursor => some (.ok [], cursor)
  | .token pattern expected, cursor =>
      match tokens[cursor.position]? with
      | none => some (.error (.expected expected), cursor)
      | some next =>
          if pattern.accepts next then some (.ok [ParseTree.terminal next.text], cursor.advance)
          else some (.error (.expected expected), cursor)
  | .fail expected, cursor => some (.error (.expected expected), cursor)
  | .seq first second, cursor =>
      (first.run runNested cursor).andThen fun trees later =>
        (second.run runNested later).andThen fun more final => some (.ok (trees ++ more), final)
  | .node rule body, cursor =>
      (body.run runNested cursor).andThen fun trees later =>
        some (.ok [ParseTree.ofRule rule trees], later)
  | .ifNext patterns yes no, cursor =>
      match look tokens patterns cursor with
      | (true, cursor) => yes.run runNested cursor
      | (false, cursor) => no.run runNested cursor
  | .whileNext pattern body, cursor =>
      runWhile tokens pattern (body.run runNested) (tokens.length + 1) cursor
  | .nested level, cursor => runNested level cursor

end Phrase

namespace Grammar

/-- Runs what is nested one level deeper, unless no level is left. The number bounds the calls
inside each other. -/
def runNested (tokens : List Token) : Nat → Nesting → Cursor → Stop
  | 0, _, _ => none
  | calls + 1, level, cursor =>
      if nestingLimit ≤ cursor.depth then some (.error .tooDeep, cursor)
      else
        match (nestedPhrase level).run tokens (runNested tokens calls) cursor.enter with
        | none => none
        | some (result, later) => some (result, later.leave)

end Grammar

namespace Cursor

open Grammar

/-- Reads a program from the place of the cursor on. There is a call for every level, and one more
that finds no level left. -/
def next (tokens : List Token) (cursor : Cursor) :
    Option (Except SyntaxError ParseTree × Cursor) :=
  match program.run tokens (runNested tokens (nestingLimit + 1)) cursor with
  | none => none
  | some (.error fault, stopped) =>
      some (.error (.ofFailure stopped.position ⟨fault, tokens.drop stopped.position⟩), stopped)
  | some (.ok statements, stopped) =>
      match tokens[stopped.position]? with
      | none => some (.ok (ParseTree.ofRule .root statements), stopped)
      | some found => some (.error (.trailing stopped.position found), stopped)

/-- The cursor after some calls, each from where the one before stopped. -/
def after (tokens : List Token) : Nat → Option Cursor
  | 0 => some start
  | calls + 1 => (after tokens calls).bind fun cursor => (cursor.next tokens).map Prod.snd

end Cursor

/-! ## The machine and the reader -/

section Follows

variable {tokens : List Token} {depth : Nat}

/-- Where the machine stops if the reader has this outcome. -/
def Outcome.stop (tokens : List Token) (depth : Nat) : Outcome → Stop
  | .error failure => some (.error failure.fault, ⟨tokens.length - failure.rest.length, depth⟩)
  | .ok (trees, rest) => some (.ok trees, ⟨tokens.length - rest.length, depth⟩)

/-- From every place on, the machine does what the reader does with the tokens from there on, and
the levels open afterwards are those open before. -/
def Follows (tokens : List Token) (depth : Nat) (run : Cursor → Stop)
    (read : List Token → Outcome) : Prop :=
  ∀ position, position ≤ tokens.length →
    run ⟨position, depth⟩ = (read (tokens.drop position)).stop tokens depth

theorem length_sub_length_drop {position : Nat} (h : position ≤ tokens.length) :
    tokens.length - (tokens.drop position).length = position := by
  rw [List.length_drop]
  omega

theorem drop_length_sub_length {rest : List Token} (h : rest <:+ tokens) :
    tokens.drop (tokens.length - rest.length) = rest :=
  (List.suffix_iff_eq_drop.1 h).symm

/-- A machine that goes on where the first part stops does what a reader does that goes on. -/
theorem stop_andThen {outcome : Outcome} {next : List ParseTree → List Token → Outcome}
    {go : List ParseTree → Cursor → Stop}
    (hnext : ∀ trees rest, outcome = .ok (trees, rest) →
      go trees ⟨tokens.length - rest.length, depth⟩ = (next trees rest).stop tokens depth) :
    (outcome.stop tokens depth).andThen go = (outcome.andThen next).stop tokens depth := by
  cases outcome with
  | error failure => rfl
  | ok result => exact hnext result.1 result.2 rfl

/-- Two machines in sequence follow two readers in sequence. -/
theorem Follows.andThen {outcome : Outcome} {run : Cursor → Stop} {read : List Token → Outcome}
    (hrest : outcome.rest <:+ tokens) (hnext : Follows tokens depth run read)
    (change : List ParseTree → List ParseTree → List ParseTree) :
    ((outcome.stop tokens depth).andThen fun trees later =>
        (run later).andThen fun more final => some (.ok (change trees more), final)) =
      (outcome.andThen fun trees rest => (read rest).andThen fun more final =>
        .ok (change trees more, final)).stop tokens depth := by
  refine stop_andThen fun trees rest houtcome => ?_
  rw [houtcome, Outcome.rest] at hrest
  rw [hnext _ (Nat.sub_le _ _), drop_length_sub_length hrest]
  exact stop_andThen fun more final _ => rfl

theorem follows_ok (trees : List ParseTree) :
    Follows tokens depth (fun cursor => some (.ok trees, cursor))
      fun rest => .ok (trees, rest) := by
  intro position hle
  rw [Outcome.stop, length_sub_length_drop hle]

theorem follows_error (fault : Fault) :
    Follows tokens depth (fun cursor => some (.error fault, cursor))
      fun rest => .error ⟨fault, rest⟩ := by
  intro position hle
  rw [Outcome.stop, length_sub_length_drop hle]

namespace Phrase

open Grammar

theorem follows_token (pattern : Pattern) (expected : String)
    {runNested : Nesting → Cursor → Stop} {readNested : Nesting → List Token → Outcome} :
    Follows tokens depth ((Phrase.token pattern expected).run tokens runNested)
      ((Phrase.token pattern expected).read readNested) := by
  intro position hle
  rw [run]
  dsimp only
  cases hnext : tokens[position]? with
  | none =>
    have hend := List.getElem?_eq_none_iff.1 hnext
    rw [List.drop_eq_nil_of_le hend, read, Outcome.stop, Nat.le_antisymm hle hend]
    rfl
  | some next =>
    obtain ⟨hlt, rfl⟩ := List.getElem?_eq_some_iff.1 hnext
    rw [List.drop_eq_getElem_cons hlt, read]
    dsimp only
    split
    · rw [Outcome.stop, length_sub_length_drop hlt]
      rfl
    · rw [Outcome.stop, ← List.drop_eq_getElem_cons hlt, length_sub_length_drop hle]

/-- If every item takes a token, a loop ends within a turn for every token left and one more. -/
theorem runWhile_eq {pattern : Pattern} {runItem : Cursor → Stop}
    {readItem : List Token → Outcome} (hitem : Follows tokens depth runItem readItem)
    (hsuffix : ∀ tokens, (readItem tokens).rest <:+ tokens)
    (htakes : ∀ tokens trees rest, readItem tokens = .ok (trees, rest) →
      rest.length < tokens.length)
    {turns position : Nat} (hle : position ≤ tokens.length)
    (hturns : tokens.length - position < turns) :
    runWhile tokens pattern runItem turns ⟨position, depth⟩ =
      (readWhile pattern readItem (tokens.drop position)).stop tokens depth := by
  induction turns generalizing position with
  | zero => exact absurd hturns (Nat.not_lt_zero _)
  | succ turns ih =>
    rw [runWhile, readWhile_eq, look_eq]
    dsimp only
    by_cases hfits : Pattern.acceptAll [pattern] (tokens.drop position) = true
    · rw [hfits, if_pos rfl]
      dsimp only
      rw [hitem position hle]
      refine stop_andThen fun trees rest hread => ?_
      have hlt := htakes _ _ _ hread
      have hrest : rest <:+ tokens := by
        have hfirst := hsuffix (tokens.drop position)
        rw [hread] at hfirst
        exact List.IsSuffix.trans hfirst (List.drop_suffix _ _)
      have hlength := hrest.length_le
      rw [List.length_drop] at hlt
      rw [List.length_drop, if_pos hlt, ih (Nat.sub_le _ _) (by omega),
        drop_length_sub_length hrest]
      exact stop_andThen fun more final _ => rfl
    · rw [Bool.not_eq_true] at hfits
      rw [hfits, if_neg Bool.false_ne_true]
      exact follows_ok [] position hle

/-- Whether every item of a loop of the phrase takes a token. -/
def loopsTakeTokens : Phrase → Bool
  | .seq first second => first.loopsTakeTokens && second.loopsTakeTokens
  | .node _ body => body.loopsTakeTokens
  | .ifNext _ yes no => yes.loopsTakeTokens && no.loopsTakeTokens
  | .whileNext _ body => body.takesToken nestedStarts && body.loopsTakeTokens
  | _ => true

/-- If the machine follows the reader in what is nested, it does so in the whole phrase. -/
theorem follows {levels : Nat} {runNested : Nesting → Cursor → Stop}
    (hnested : ∀ level, Follows tokens depth (runNested level) (readNested levels level))
    {phrase : Phrase} (hphrase : phrase.loopsTakeTokens = true) :
    Follows tokens depth (phrase.run tokens runNested) (phrase.read (readNested levels)) := by
  have hrest (phrase : Phrase) (position : Nat) :
      (phrase.read (readNested levels) (tokens.drop position)).rest <:+ tokens :=
    (read_suffix (readNested_suffix levels) phrase _).trans (List.drop_suffix _ _)
  induction phrase with
  | empty => exact follows_ok []
  | token pattern expected => exact follows_token pattern expected
  | fail expected => exact follows_error (.expected expected)
  | seq first second ihfirst ihsecond =>
    rw [loopsTakeTokens, Bool.and_eq_true] at hphrase
    intro position hle
    rw [run, read_seq, ihfirst hphrase.1 position hle]
    exact (ihsecond hphrase.2).andThen (hrest first position) (· ++ ·)
  | node rule body ih =>
    intro position hle
    rw [run, read_node, ih hphrase position hle]
    exact stop_andThen fun trees rest _ => rfl
  | ifNext patterns yes no ihyes ihno =>
    rw [loopsTakeTokens, Bool.and_eq_true] at hphrase
    intro position hle
    rw [run, read, look_eq]
    dsimp only
    by_cases hfits : Pattern.acceptAll patterns (tokens.drop position) = true
    · rw [hfits, if_pos rfl]
      exact ihyes hphrase.1 position hle
    · rw [Bool.not_eq_true] at hfits
      rw [hfits, if_neg Bool.false_ne_true]
      exact ihno hphrase.2 position hle
  | whileNext pattern body ih =>
    rw [loopsTakeTokens, Bool.and_eq_true] at hphrase
    intro position hle
    rw [run, read]
    exact runWhile_eq (ih hphrase.2) (read_suffix (readNested_suffix levels) body)
      (fun _ _ _ hread => length_rest_of_read hphrase.1 hread) hle (by omega)
  | nested level => exact hnested level

end Phrase

namespace Grammar

theorem loopsTakeTokens_nestedPhrase (level : Nesting) :
    (nestedPhrase level).loopsTakeTokens = true := by
  cases level <;> decide

theorem loopsTakeTokens_program : program.loopsTakeTokens = true := by
  decide

/-- With calls to spare for the levels left, the machine does one level deeper what the reader
does. -/
theorem runNested_follows {calls : Nat} (hdepth : depth ≤ nestingLimit)
    (hcalls : nestingLimit - depth < calls) (level : Nesting) :
    Follows tokens depth (runNested tokens calls level)
      (readNested (nestingLimit - depth) level) := by
  induction calls generalizing depth level with
  | zero => exact absurd hcalls (Nat.not_lt_zero _)
  | succ calls ih =>
    intro position hle
    rw [runNested]
    dsimp only
    by_cases hlimit : nestingLimit ≤ depth
    · rw [if_pos hlimit, Nat.sub_eq_zero_of_le hlimit]
      exact follows_error .tooDeep position hle
    · have hdeeper : nestingLimit - depth = nestingLimit - (depth + 1) + 1 := by
        omega
      rw [if_neg hlimit, hdeeper, readNested]
      have hinner : ∀ level, Follows tokens (depth + 1) (runNested tokens calls level)
          (readNested (nestingLimit - (depth + 1)) level) :=
        ih (by omega) (by omega)
      have hphrase := Phrase.follows hinner (loopsTakeTokens_nestedPhrase level) position hle
      rw [show (⟨position, depth⟩ : Cursor).enter = ⟨position, depth + 1⟩ from rfl, hphrase]
      -- the level is given back after a failure too
      cases (nestedPhrase level).read (readNested (nestingLimit - (depth + 1)))
          (tokens.drop position) <;> rfl

theorem run_program {position : Nat} (hle : position ≤ tokens.length) :
    program.run tokens (runNested tokens (nestingLimit + 1)) ⟨position, 0⟩ =
      (readProgram (tokens.drop position)).stop tokens 0 :=
  Phrase.follows (fun level => runNested_follows (Nat.zero_le _) (Nat.lt_succ_self _) level)
    loopsTakeTokens_program position hle

end Grammar

end Follows

/-! ## One call after the other -/

namespace Reading

open Grammar

/-- The reading after some calls, each from where the one before stopped. -/
def after (tokens : List Token) (calls : Nat) : Reading :=
  (fun reading => reading.next.2)^[calls] (start tokens)

variable {tokens : List Token}

theorem nextTimes_eq (times : Nat) (reading : Reading) :
    nextTimes times reading = (List.range times).map fun calls =>
      ((fun reading => reading.next.2)^[calls] reading).next.1 := by
  induction times generalizing reading with
  | zero => rfl
  | succ times ih =>
    rw [List.range_succ_eq_map, List.map_cons, List.map_map, nextTimes]
    exact congrArg _ (ih reading.next.2)

theorem after_succ (calls : Nat) : after tokens (calls + 1) = (after tokens calls).next.2 :=
  Function.iterate_succ_apply' _ _ _

/-- No call finds more tokens behind a program that it has read. -/
theorem next_eq (tokens : List Token) (position : Nat) :
    next ⟨tokens, position⟩ =
      match readProgram (tokens.drop position) with
      | .error failure =>
          (.error (.ofFailure (tokens.length - failure.rest.length) failure),
            ⟨tokens, tokens.length - failure.rest.length⟩)
      | .ok (trees, _) => (.ok (.ofRule .root trees), ⟨tokens, tokens.length⟩) := by
  rw [next]
  dsimp only
  cases hread : readProgram (tokens.drop position) with
  | error failure => rfl
  | ok result =>
    obtain ⟨trees, rest⟩ := result
    obtain rfl := rest_of_readProgram hread
    rfl

/-- After this result, so many of the tokens are done: all, or those before the token that the error
is about. No program has tokens behind it. -/
def StopsAt (tokens : List Token) (stop : Nat) : Except SyntaxError ParseTree → Prop
  | .ok _ | .error (.unexpectedEnd _) => stop = tokens.length
  | .error (.unexpected position _ found) => stop = position ∧ tokens[position]? = some found
  | .error (.tooDeep position) => stop = position
  | .error (.trailing _ _) => False

/-- What a call gives that begins and stops at these places. -/
structure IsCall (tokens : List Token) (begin stop : Nat)
    (result : Except SyntaxError ParseTree) : Prop where
  forward : begin ≤ stop
  inside : stop ≤ tokens.length
  /-- The tokens done before matter to the position of an error only. -/
  fresh : result = (ParseTree.ofTokens? (tokens.drop begin)).mapError (SyntaxError.shift begin)
  stops : StopsAt tokens stop result

theorem stopsAt_ofFailure {failure : Failure} (h : failure.rest <:+ tokens) :
    StopsAt tokens (tokens.length - failure.rest.length)
      (.error (.ofFailure (tokens.length - failure.rest.length) failure)) := by
  match failure, h with
  | ⟨.tooDeep, _⟩, _ | ⟨.expected _, []⟩, _ => rfl
  | ⟨.expected _, found :: rest⟩, h =>
    refine ⟨rfl, ?_⟩
    have hdrop := congrArg (·[0]?) (drop_length_sub_length h)
    simpa using hdrop

theorem isCall_next {position : Nat} (hle : position ≤ tokens.length) :
    IsCall tokens position (next ⟨tokens, position⟩).2.position (next ⟨tokens, position⟩).1 := by
  rw [next_eq]
  cases hread : readProgram (tokens.drop position) with
  | ok result =>
    refine ⟨hle, Nat.le_refl _, ?_, rfl⟩
    rw [ofTokens?_eq, hread]
    rfl
  | error failure =>
    have hsuffix := suffix_of_readProgram hread
    have hlength := hsuffix.length_le
    rw [List.length_drop] at hlength
    refine ⟨?_, Nat.sub_le _ _, ?_, stopsAt_ofFailure (hsuffix.trans (List.drop_suffix _ _))⟩
    · show position ≤ tokens.length - failure.rest.length
      omega
    · have hplace : tokens.length - failure.rest.length =
          (tokens.drop position).length - failure.rest.length + position := by
        rw [List.length_drop]
        omega
      rw [ofTokens?_eq, hread]
      show Except.error (SyntaxError.ofFailure _ failure) = Except.error (SyntaxError.shift _ _)
      rw [hplace, SyntaxError.ofFailure_add]

theorem after_inside (tokens : List Token) (calls : Nat) :
    ∃ position ≤ tokens.length, after tokens calls = ⟨tokens, position⟩ := by
  induction calls with
  | zero => exact ⟨0, Nat.zero_le _, rfl⟩
  | succ calls ih =>
    obtain ⟨position, hle, hafter⟩ := ih
    refine ⟨_, (isCall_next hle).inside, ?_⟩
    rw [after_succ, hafter, next_eq]
    cases readProgram (tokens.drop position) <;> rfl

end Reading

namespace Cursor

open Grammar

variable {tokens : List Token}

/-- The machine reads a program as the reader does, and has no level open before or afterwards. -/
theorem next_eq {position : Nat} (hle : position ≤ tokens.length) :
    next tokens ⟨position, 0⟩ = some ((Reading.next ⟨tokens, position⟩).1,
      ⟨(Reading.next ⟨tokens, position⟩).2.position, 0⟩) := by
  rw [next, run_program hle, Reading.next_eq]
  cases hread : readProgram (tokens.drop position) with
  | error failure =>
    have hrest := (suffix_of_readProgram hread).trans (List.drop_suffix _ _)
    rw [Outcome.stop]
    dsimp only
    rw [drop_length_sub_length hrest]
  | ok result =>
    obtain ⟨trees, rest⟩ := result
    obtain rfl := rest_of_readProgram hread
    rw [Outcome.stop]
    dsimp only
    rw [List.length_nil, Nat.sub_zero, List.getElem?_eq_none (Nat.le_refl _)]

theorem after_eq (tokens : List Token) (calls : Nat) :
    after tokens calls = some ⟨(Reading.after tokens calls).position, 0⟩ := by
  induction calls with
  | zero => rfl
  | succ calls ih =>
    obtain ⟨position, hle, hafter⟩ := Reading.after_inside tokens calls
    rw [hafter] at ih
    rw [after, ih, Reading.after_succ, hafter]
    show (next tokens ⟨position, 0⟩).map Prod.snd = _
    rw [next_eq hle]
    rfl

/-- However many programs have been read from a token list, the machine has stopped with no level
open and reads one more in the same way, from where it stopped. -/
theorem next_after (tokens : List Token) (calls : Nat) :
    ∃ begin stop result,
      after tokens calls = some ⟨begin, 0⟩ ∧
        next tokens ⟨begin, 0⟩ = some (result, ⟨stop, 0⟩) ∧
        after tokens (calls + 1) = some ⟨stop, 0⟩ ∧
        Reading.IsCall tokens begin stop result ∧
        Reading.nextTimes (calls + 1) (Reading.start tokens) =
          Reading.nextTimes calls (Reading.start tokens) ++ [result] := by
  obtain ⟨begin, hle, hafter⟩ := Reading.after_inside tokens calls
  have hbegin := after_eq tokens calls
  have hstop := after_eq tokens (calls + 1)
  rw [hafter] at hbegin
  rw [Reading.after_succ, hafter] at hstop
  refine ⟨begin, _, _, hbegin, next_eq hle, hstop, Reading.isCall_next hle, ?_⟩
  rw [Reading.nextTimes_eq, List.range_succ, List.map_append, ← Reading.nextTimes_eq,
    List.map_singleton]
  exact congrArg (fun reading => _ ++ [(Reading.next reading).1]) hafter

end Cursor

end ThreeAddress
