import ThreeAddress.Proofs.CanonicalTrees
import ThreeAddress.Proofs.Partition
import ThreeAddress.Proofs.Trees

/-!
# How an equation is cut

The lexemes of an equation keep all of its operand and operator characters in their order and drop
everything else. Two characters that touch lie in one lexeme exactly if both belong to operands, and
nothing reaches over a character that is dropped. No other list of lexemes is like this. All of it
follows from one equation: where two characters do not both belong to operands, a text can be cut
in two and each part be read by itself.
-/

namespace ThreeAddress

namespace Equation

open Text

/-- Whether the two characters belong to one operand if they touch. -/
def sameOperand (a b : Char) : Bool :=
  isOperandChar a && isOperandChar b

/-- Whether the character is in an operand or is an operator. -/
def isKept (c : Char) : Bool :=
  isOperandChar c || (Operator.ofChar? c).isSome

def Lexeme.chars (lexeme : Lexeme) : List Char :=
  lexeme.text.toList

theorem symbol_of_ofChar? {c : Char} {op : Operator} (h : Operator.ofChar? c = some op) :
    op.symbol.toList = [c] := by
  unfold Operator.ofChar? at h
  split at h <;> cases h <;> rfl

theorem eq_symbol_of_ofText? {text : String} {op : Operator} (h : Operator.ofText? text = some op) :
    text = op.symbol := by
  unfold Operator.ofText? at h
  split at h
  · rename_i c hchars
    exact String.toList_injective (hchars.trans (symbol_of_ofChar? h).symm)
  · cases h

theorem symbol_inj {op other : Operator} (h : op.symbol = other.symbol) : op = other := by
  have hop := congrArg Operator.ofText? h
  rw [Operator.ofText?_symbol, Operator.ofText?_symbol] at hop
  exact Option.some.inj hop

theorem exists_symbol_char (op : Operator) :
    ∃ c, op.symbol.toList = [c] ∧ isOperandChar c = false := by
  cases op <;> exact ⟨_, rfl, by decide⟩

-- A run is a word, or it is one character that belongs to no word.
theorem run_cases {chars run : List Char} (h : run ∈ chars.splitBy sameOperand) :
    (run ≠ [] ∧ ∀ c ∈ run, isOperandChar c = true) ∨ ∃ c, run = [c] ∧ isOperandChar c = false := by
  have hchain := List.isChain_of_mem_splitBy h
  have hne := List.ne_nil_of_mem_splitBy h
  cases run with
  | nil => exact absurd rfl hne
  | cons c rest =>
    by_cases hc : isOperandChar c = true
    · left
      refine ⟨hne, List.forall_mem_cons.2 ⟨hc, ?_⟩⟩
      refine hchain.cons_induction (fun a => isOperandChar a = true) rest (fun a b hab _ => ?_) hc
      rw [sameOperand, Bool.and_eq_true] at hab
      exact hab.2
    · right
      cases rest with
      | nil => exact ⟨c, rfl, Bool.eq_false_iff.2 hc⟩
      | cons d rest =>
        have hsame := (List.isChain_cons_cons.1 hchain).1
        rw [sameOperand, Bool.and_eq_true] at hsame
        exact absurd hsame.1 hc

theorem ofRun?_word {word : List Char} (hne : word ≠ []) (h : ∀ c ∈ word, isOperandChar c = true) :
    Lexeme.ofRun? word = some (.operand (String.ofList word)) := by
  cases word with
  | nil => exact absurd rfl hne
  | cons c rest => rw [Lexeme.ofRun?, if_pos (h c List.mem_cons_self)]

theorem ofRun?_single {c : Char} (h : isOperandChar c = false) :
    Lexeme.ofRun? [c] = (Operator.ofChar? c).map .operator := by
  rw [Lexeme.ofRun?, h, if_neg Bool.false_ne_true]

-- The lexeme of a run has all of its characters that are kept.
theorem chars_ofRun? {chars run : List Char} (h : run ∈ chars.splitBy sameOperand) :
    (Lexeme.ofRun? run).toList.flatMap Lexeme.chars = run.filter isKept := by
  rcases run_cases h with ⟨hne, hword⟩ | ⟨c, rfl, hc⟩
  · have hkept : run.filter isKept = run :=
      List.filter_eq_self.2 fun c hmem => by rw [isKept, hword c hmem, Bool.true_or]
    rw [ofRun?_word hne hword, hkept, Option.toList_some, List.flatMap_singleton]
    exact String.toList_ofList
  · rw [ofRun?_single hc]
    cases hop : Operator.ofChar? c with
    | none =>
      have hdropped : isKept c = false := by rw [isKept, hc, hop]; rfl
      rw [List.filter_cons_of_neg (by simp [hdropped])]
      rfl
    | some op =>
      have hkept : isKept c = true := by rw [isKept, hop, Option.isSome_some, Bool.or_true]
      rw [List.filter_cons_of_pos hkept, List.filter_nil, ← symbol_of_ofChar? hop]
      exact List.flatMap_singleton ..

theorem lexemesOfChars_eq (chars : List Char) :
    lexemesOfChars chars = (chars.splitBy sameOperand).filterMap Lexeme.ofRun? :=
  rfl

/-- The lexemes have the operand and operator characters of a text, in their order. -/
theorem chars_lexemesOfChars (chars : List Char) :
    (lexemesOfChars chars).flatMap Lexeme.chars = chars.filter isKept := by
  -- run by run, whatever the runs of the text are
  have hruns : ∀ runs ⊆ chars.splitBy sameOperand,
      (runs.filterMap Lexeme.ofRun?).flatMap Lexeme.chars = runs.flatten.filter isKept := by
    intro runs hsub
    induction runs with
    | nil => rfl
    | cons run runs ih =>
      have hrun := chars_ofRun? (hsub List.mem_cons_self)
      have hrest := ih fun other hmem => hsub (List.mem_cons_of_mem _ hmem)
      rw [List.flatten_cons, List.filter_append, ← hrun, ← hrest, ← List.flatMap_append]
      congr 1
      cases hlexeme : Lexeme.ofRun? run with
      | none => exact List.filterMap_cons_none hlexeme
      | some lexeme => exact List.filterMap_cons_some hlexeme
  have hchars := hruns _ (List.Subset.refl _)
  rwa [List.flatten_splitBy] at hchars

theorem isKept_of_mem {chars : List Char} {lexeme : Lexeme} (h : lexeme ∈ lexemesOfChars chars)
    {c : Char} (hmem : c ∈ lexeme.chars) : isKept c = true := by
  have hc : c ∈ (lexemesOfChars chars).flatMap Lexeme.chars := List.mem_flatMap.2 ⟨_, h, hmem⟩
  rw [chars_lexemesOfChars] at hc
  exact (List.mem_filter.1 hc).2

/-- An operand is a word of operand characters. -/
theorem operand_of_mem {chars : List Char} {word : String}
    (h : .operand word ∈ lexemesOfChars chars) :
    word ≠ "" ∧ ∀ c ∈ word.toList, isOperandChar c = true := by
  rw [lexemesOfChars_eq, List.mem_filterMap] at h
  obtain ⟨run, hrun, hlexeme⟩ := h
  rcases run_cases hrun with ⟨hne, hword⟩ | ⟨c, rfl, hc⟩
  · rw [ofRun?_word hne hword] at hlexeme
    cases hlexeme
    rw [String.toList_ofList]
    exact ⟨fun hempty => hne (String.ofList_eq_empty_iff.1 hempty), hword⟩
  · rw [ofRun?_single hc] at hlexeme
    cases hop : Operator.ofChar? c <;> simp [hop] at hlexeme

/-! ## Reading part by part -/

/-- A text can be cut between two characters that do not both belong to operands, and each part is
read by itself. -/
theorem lexemesOfChars_append {front back : List Char}
    (h : ∀ a ∈ front.getLast?, ∀ b ∈ back.head?, sameOperand a b = false) :
    lexemesOfChars (front ++ back) = lexemesOfChars front ++ lexemesOfChars back := by
  have hsplit : (front ++ back).splitBy sameOperand =
      front.splitBy sameOperand ++ back.splitBy sameOperand := by
    apply List.splitBy_append
    exact h
  rw [lexemesOfChars_eq, hsplit, List.filterMap_append]
  rfl

theorem lexemesOfChars_word {word : List Char} (hne : word ≠ [])
    (h : ∀ c ∈ word, isOperandChar c = true) :
    lexemesOfChars word = [.operand (String.ofList word)] := by
  have hsame : ∀ a ∈ word, ∀ b ∈ word, sameOperand a b = true := by
    intro a ha b hb
    rw [sameOperand, h a ha, h b hb]
    rfl
  rw [lexemesOfChars_eq, splitBy_of_forall hne hsame, List.filterMap_cons, ofRun?_word hne h,
    List.filterMap_nil]

-- The word at the end of a text, and the word at the beginning of another, can be cut off.
theorem lexemesOfChars_around (front word back : List Char) :
    lexemesOfChars (front.rdropWhile isOperandChar ++ (word ++ back.dropWhile isOperandChar)) =
      lexemesOfChars (front.rdropWhile isOperandChar) ++
        (lexemesOfChars word ++ lexemesOfChars (back.dropWhile isOperandChar)) := by
  have hfront : ∀ a ∈ (front.rdropWhile isOperandChar).getLast?, isOperandChar a = false := by
    intro a ha
    obtain ⟨hne, rfl⟩ := List.mem_getLast?_eq_getLast ha
    exact Bool.eq_false_iff.2 (List.rdropWhile_last_not _ _ hne)
  have hback : ∀ b ∈ (back.dropWhile isOperandChar).head?, isOperandChar b = false := by
    intro b hb
    have hnot := List.head?_dropWhile_not isOperandChar back
    rw [show _ = some b from hb] at hnot
    exact hnot
  rw [lexemesOfChars_append, lexemesOfChars_append]
  · exact fun a _ b hb => by rw [sameOperand, hback b hb, Bool.and_false]
  · exact fun a ha b _ => by rw [sameOperand, hfront a ha, Bool.false_and]

/-- Two characters that touch and belong to operands lie in one lexeme. -/
theorem joined_of_sameOperand {a b : Char} (h : sameOperand a b = true) (front back : List Char) :
    Joined ((lexemesOfChars (front ++ a :: b :: back)).map Lexeme.chars) (front.filter isKept)
      a b := by
  rw [sameOperand, Bool.and_eq_true] at h
  -- the whole word around them
  have hfront : front.rdropWhile isOperandChar ++ front.rtakeWhile isOperandChar = front :=
    List.rdropWhile_append_rtakeWhile
  have hback : back.takeWhile isOperandChar ++ back.dropWhile isOperandChar = back :=
    List.takeWhile_append_dropWhile
  generalize hhead : front.rtakeWhile isOperandChar = head at hfront
  generalize htail : back.takeWhile isOperandChar = tail at hback
  have hmem : ∀ c ∈ head, isOperandChar c = true := by
    intro c hc
    rw [← hhead] at hc
    exact List.mem_rtakeWhile_imp hc
  have hword : ∀ c ∈ head ++ a :: b :: tail, isOperandChar c = true := by
    intro c hc
    rw [List.mem_append, List.mem_cons, List.mem_cons, ← htail] at hc
    rcases hc with hc | rfl | rfl | hc
    · exact hmem c hc
    · exact h.1
    · exact h.2
    · exact List.mem_takeWhile_imp hc
  have htext : front ++ a :: b :: back = front.rdropWhile isOperandChar ++
      ((head ++ a :: b :: tail) ++ back.dropWhile isOperandChar) := by
    conv_lhs => rw [← hfront, ← hback]
    simp
  have hkept : front.filter isKept = (front.rdropWhile isOperandChar).filter isKept ++ head := by
    have hall : head.filter isKept = head :=
      List.filter_eq_self.2 fun c hc => by rw [isKept, hmem c hc, Bool.true_or]
    conv_lhs => rw [← hfront]
    rw [List.filter_append, hall]
  rw [htext, lexemesOfChars_around, lexemesOfChars_word (by simp) hword, hkept,
    ← chars_lexemesOfChars, List.map_append, List.map_append, List.map_singleton]
  have hlexeme : (Lexeme.operand (String.ofList (head ++ a :: b :: tail))).chars =
      head ++ a :: b :: tail := String.toList_ofList
  rw [hlexeme, List.singleton_append, List.flatMap_def]
  exact ⟨_, head, tail, _, rfl, rfl⟩

/-- Where a text can be cut, the characters on the two sides lie in different lexemes. -/
theorem not_joined_of_cut {a b : Char} {front back : List Char}
    (h : ∀ c ∈ back.head?, sameOperand a c = false) :
    ¬Joined ((lexemesOfChars (front ++ a :: back)).map Lexeme.chars) (front.filter isKept) a b := by
  by_cases ha : isKept a = true
  · have hlast : ∀ c ∈ (front ++ [a]).getLast?, ∀ d ∈ back.head?, sameOperand c d = false := by
      intro c hc d hd
      rw [List.getLast?_concat] at hc
      cases hc
      exact h d hd
    have hflatten : ((lexemesOfChars (front ++ [a])).map Lexeme.chars).flatten =
        front.filter isKept ++ [a] := by
      rw [← List.flatMap_def, chars_lexemesOfChars, List.filter_append,
        List.filter_cons_of_pos ha, List.filter_nil]
    rw [← List.singleton_append, ← List.append_assoc, lexemesOfChars_append hlast, List.map_append]
    exact not_joined_append hflatten _
  · -- what is dropped is in no lexeme
    intro hjoined
    obtain ⟨chars, hchars, hmem, -⟩ := hjoined.exists_mem
    obtain ⟨lexeme, hlexeme, rfl⟩ := List.mem_map.1 hchars
    exact ha (isKept_of_mem hlexeme hmem)

theorem joined_iff {a b : Char} (front back : List Char) :
    Joined ((lexemesOfChars (front ++ a :: b :: back)).map Lexeme.chars) (front.filter isKept) a b ↔
      sameOperand a b = true := by
  constructor
  · intro hjoined
    by_contra h
    refine not_joined_of_cut (fun c hc => ?_) hjoined
    cases hc
    exact Bool.eq_false_iff.2 h
  · exact fun h => joined_of_sameOperand h front back

/-! ## The rules of cutting -/

/-- A list of lexemes that has all operand and operator characters of a text, whose operands are
words of operand characters, and that joins two characters that touch exactly if both belong to
operands, and no others. -/
structure IsPartition (text : List Char) (lexemes : List Lexeme) : Prop where
  operands : ∀ word, .operand word ∈ lexemes →
    word ≠ "" ∧ ∀ c ∈ word.toList, isOperandChar c = true
  lossless : lexemes.flatMap Lexeme.chars = text.filter isKept
  touching : ∀ front a b back, text = front ++ a :: b :: back →
    (Joined (lexemes.map Lexeme.chars) (front.filter isKept) a b ↔
      isOperandChar a = true ∧ isOperandChar b = true)
  parted : ∀ front a gap b back, text = front ++ a :: (gap ++ b :: back) → gap ≠ [] →
    (∀ c ∈ gap, isKept c = false) →
      ¬Joined (lexemes.map Lexeme.chars) (front.filter isKept) a b

theorem isPartition_lexemesOfChars (text : List Char) :
    IsPartition text (lexemesOfChars text) where
  operands _ := operand_of_mem
  lossless := chars_lexemesOfChars text
  touching := by
    rintro front a b back rfl
    rw [joined_iff, sameOperand, Bool.and_eq_true]
  parted := by
    rintro front a gap b back rfl hgap hdropped
    refine not_joined_of_cut fun c hc => ?_
    have hmem : c ∈ gap := by
      cases gap with
      | nil => exact absurd rfl hgap
      | cons d gap =>
        cases hc
        exact List.mem_cons_self
    have hnone := hdropped c hmem
    rw [isKept, Bool.or_eq_false_iff] at hnone
    rw [sameOperand, hnone.1, Bool.and_false]

theorem symbol_ne_operand {word : String}
    (h : word ≠ "" ∧ ∀ c ∈ word.toList, isOperandChar c = true) (op : Operator) :
    word ≠ op.symbol := by
  rintro rfl
  obtain ⟨c, hsymbol, hc⟩ := exists_symbol_char op
  have hoperand := h.2 c (by rw [hsymbol]; exact List.mem_singleton_self c)
  rw [hc] at hoperand
  cases hoperand

namespace IsPartition

variable {text : List Char} {lexemes others : List Lexeme}

theorem chars_ne_nil (h : IsPartition text lexemes) :
    ∀ chars ∈ lexemes.map Lexeme.chars, chars ≠ [] := by
  intro chars hmem hnil
  obtain ⟨lexeme, hlexeme, rfl⟩ := List.mem_map.1 hmem
  cases lexeme with
  | operand word => exact (h.operands word hlexeme).1 (String.toList_eq_nil_iff.1 hnil)
  | operator op => cases op <;> cases hnil

-- The characters of a lexeme tell whether it is an operand.
theorem eq_of_chars_eq (h : IsPartition text lexemes) (hothers : IsPartition text others) :
    ∀ lexeme ∈ lexemes, ∀ other ∈ others, lexeme.chars = other.chars → lexeme = other := by
  intro lexeme hlexeme other hother heq
  have htext : lexeme.text = other.text := String.toList_injective heq
  cases lexeme with
  | operand word =>
    cases other with
    | operand word' => exact congrArg Lexeme.operand htext
    | operator op => exact absurd htext (symbol_ne_operand (h.operands word hlexeme) op)
  | operator op =>
    cases other with
    | operand word => exact absurd htext.symm (symbol_ne_operand (hothers.operands word hother) op)
    | operator op' => exact congrArg Lexeme.operator (symbol_inj htext)

/-- The rules leave no choice. -/
theorem unique (h : IsPartition text lexemes) (hothers : IsPartition text others) :
    lexemes = others := by
  have hflatten : (lexemes.map Lexeme.chars).flatten = (others.map Lexeme.chars).flatten := by
    rw [← List.flatMap_def, ← List.flatMap_def, h.lossless, hothers.lossless]
  have hchars : lexemes.map Lexeme.chars = others.map Lexeme.chars := by
    refine eq_of_joined_iff h.chars_ne_nil hothers.chars_ne_nil hflatten ?_
    intro front a b back hfront
    rw [← List.flatMap_def, h.lossless] at hfront
    obtain ⟨before, gap, behind, htext, rfl, hgap⟩ := exists_of_filter hfront
    by_cases hnil : gap = []
    · subst hnil
      exact (h.touching _ _ _ _ htext).trans (hothers.touching _ _ _ _ htext).symm
    · exact iff_of_false (h.parted _ _ _ _ _ htext hnil hgap)
        (hothers.parted _ _ _ _ _ htext hnil hgap)
  exact eq_of_map_eq (h.eq_of_chars_eq hothers) hchars

end IsPartition

/-- The lexemes of a text are the one list that keeps all operand and operator characters and joins
neighbours exactly if both belong to operands. Written with single blanks between them they are read
again. -/
theorem lexemes_partition (text : String) :
    (∀ list, list = lexemes text ↔ IsPartition text.toList list) ∧
      lexemes (" ".intercalate ((lexemes text).map Lexeme.text)) = lexemes text := by
  have hpartition := isPartition_lexemesOfChars text.toList
  refine ⟨fun list => ⟨?_, fun h => h.unique hpartition⟩, ?_⟩
  · rintro rfl
    exact hpartition
  · exact lexemes_intercalate_text hpartition.operands

-- An operand ends where a character is dropped, and at an operator.
example : lexemes "3.5*é_b  2" =
    [.operand "3.5", .operator .mul, .operand "é", .operand "b", .operand "2"] := by
  decide +kernel

end Equation

end ThreeAddress
