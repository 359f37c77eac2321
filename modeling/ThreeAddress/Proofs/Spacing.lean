import Mathlib.Data.List.SplitBy
import ThreeAddress.Equation.Lexeme
import ThreeAddress.Text.Comment
import ThreeAddress.Token.Scan

/-!
# Texts with single blanks between their words

A blank is in no run with its neighbours, so the pieces of a text written with blanks between its
words are those of its words, one word after the other. This holds for the tokens of a program and
for the lexemes of an equation alike, and no comment opens across a blank.
-/

namespace ThreeAddress

namespace Text

variable {α : Type}

-- What is related to no neighbour stands alone.
theorem splitBy_blank {r : α → α → Bool} {blank : α} (hbefore : ∀ a, r a blank = false)
    (hbehind : ∀ a, r blank a = false) (front back : List α) :
    (front ++ blank :: back).splitBy r = front.splitBy r ++ [blank] :: back.splitBy r := by
  rw [List.splitBy_append_cons back fun a _ => hbefore a]
  have hback : ([blank] ++ back).splitBy r = [blank].splitBy r ++ back.splitBy r := by
    apply List.splitBy_append
    intro a ha b _
    cases ha
    exact hbehind b
  rw [← List.singleton_append, hback]
  rfl

-- A list in which all are related does not split.
theorem splitBy_of_forall {r : α → α → Bool} {list : List α} (hne : list ≠ [])
    (h : ∀ a ∈ list, ∀ b ∈ list, r a b = true) : list.splitBy r = [list] :=
  List.splitBy_of_isChain hne (List.pairwise_of_forall_mem_list h).isChain

-- Blanks that go with everything keep a chain of words a chain.
theorem isChain_intercalate {R : α → α → Prop} {blank : α} (hbefore : ∀ a, R a blank)
    (hbehind : ∀ a, R blank a) {words : List (List α)} (hwords : ∀ word ∈ words, word.IsChain R) :
    ([blank].intercalate words).IsChain R := by
  induction words with
  | nil => exact .nil
  | cons word words ih =>
    have hword := hwords word List.mem_cons_self
    cases words with
    | nil =>
      rw [List.intercalate_singleton]
      exact hword
    | cons next words =>
      have hrest := ih fun other hmem => hwords other (List.mem_cons_of_mem _ hmem)
      rw [List.intercalate_cons_cons, List.append_assoc, List.singleton_append]
      refine List.isChain_append.2 ⟨hword, ?_, ?_⟩
      · exact List.isChain_cons.2 ⟨fun a _ => hbehind a, hrest⟩
      · intro a _ b hb
        cases hb
        exact hbefore a

-- What splits at every blank can be taken word by word.
theorem flatMap_words {f : List Char → List α} (hnil : f [] = [])
    (hblank : ∀ front back, f (front ++ ' ' :: back) = f front ++ f back) (words : List String) :
    f (" ".intercalate words).toList = words.flatMap fun word => f word.toList := by
  induction words with
  | nil =>
    rw [String.intercalate_nil]
    exact hnil
  | cons word words ih =>
    cases words with
    | nil => rw [String.intercalate_singleton, List.flatMap_singleton]
    | cons next words =>
      rw [String.intercalate_cons_cons, String.toList_append, String.toList_append,
        List.append_assoc]
      show f (word.toList ++ ' ' :: (" ".intercalate (next :: words)).toList) = _
      rw [hblank, ih]
      rfl

/-- No comment opens between the two characters. -/
def Apart (a b : Char) : Prop :=
  a = '/' → b ≠ '/' ∧ b ≠ '*'

-- Characters between which no comment opens are kept, if none opens between them and what follows.
theorem outsideComments_append {chars rest : List Char} (h : chars.IsChain Apart)
    (hnext : ∀ a ∈ chars.getLast?, ∀ b ∈ rest.head?, Apart a b) :
    outsideComments .code (chars ++ rest) = chars ++ outsideComments .code rest := by
  induction chars with
  | nil => rfl
  | cons a chars ih =>
    obtain ⟨hapart, hrest⟩ := List.isChain_cons.1 h
    have hhead : ∀ b ∈ (chars ++ rest).head?, Apart a b := by
      cases chars with
      | nil => exact hnext a rfl
      | cons b chars => exact hapart
    have hlast : ∀ b ∈ chars.getLast?, ∀ c ∈ rest.head?, Apart b c := by
      cases chars with
      | nil => exact fun _ hmem => nomatch hmem
      | cons b chars => rwa [List.getLast?_cons_cons] at hnext
    rw [List.cons_append, outsideComments, ih hrest hlast, List.cons_append]
    -- neither opening matches, since the first two characters are apart
    · rintro behind rfl hbehind
      exact (hhead '/' (by rw [hbehind]; rfl) rfl).1 rfl
    · rintro behind rfl hbehind
      exact (hhead '*' (by rw [hbehind]; rfl) rfl).2 rfl

-- A text in which no comment opens is kept as it is.
theorem outsideComments_of_isChain {chars : List Char} (h : chars.IsChain Apart) :
    outsideComments .code chars = chars := by
  have hkept := @outsideComments_append chars [] h fun _ _ _ hmem => nomatch hmem
  rwa [outsideComments, List.append_nil] at hkept

/-- Blanks open no comment, so words in which none opens are kept with the blanks between them. -/
theorem removeComments_intercalate {words : List String}
    (hwords : ∀ word ∈ words, word.toList.IsChain Apart) :
    removeComments (" ".intercalate words) = " ".intercalate words := by
  have hchain : (" ".intercalate words).toList.IsChain Apart := by
    rw [String.toList_intercalate]
    refine isChain_intercalate (fun _ _ => by decide) (fun _ h => absurd h (by decide)) ?_
    intro chars hmem
    obtain ⟨word, hword, rfl⟩ := List.mem_map.1 hmem
    exact hwords word hword
  rw [removeComments, outsideComments_of_isChain hchain, String.ofList_toList]

end Text

namespace Token

-- Every joining mark is punctuation.
theorem mem_punctuation_of_isJoining {c : Char} (h : isJoining c = true) : c ∈ punctuation := by
  have hmarks : joiningMarks.all punctuation.contains = true := by decide
  exact List.contains_iff_mem.1 (List.all_eq_true.1 hmarks c (List.contains_iff_mem.1 h))

theorem not_isBlank_of_mem_punctuation {c : Char} (h : c ∈ punctuation) :
    Text.isBlank c = false := by
  have hmarks : punctuation.all (fun mark => !Text.isBlank mark) = true := by decide
  have hc := List.all_eq_true.1 hmarks c h
  rwa [Bool.not_eq_true'] at hc

theorem not_isWordChar_of_isBlank {c : Char} (h : Text.isBlank c = true) :
    isWordChar c = false := by
  rw [isWordChar, h]
  rfl

theorem not_isJoining_of_isBlank {c : Char} (h : Text.isBlank c = true) : isJoining c = false := by
  apply Bool.eq_false_iff.2
  intro hjoining
  rw [not_isBlank_of_mem_punctuation (mem_punctuation_of_isJoining hjoining)] at h
  cases h

theorem sameRun_blank {blank : Char} (h : Text.isBlank blank = true) (c : Char) :
    sameRun c blank = false ∧ sameRun blank c = false := by
  unfold sameRun
  rw [not_isWordChar_of_isBlank h, not_isJoining_of_isBlank h, Bool.and_false, Bool.and_false,
    Bool.false_and, Bool.false_and]
  exact ⟨rfl, rfl⟩

-- A blank is no piece, and the pieces on its two sides have nothing to do with each other.
theorem piecesOfChars_blank {blank : Char} (h : Text.isBlank blank = true)
    (front back : List Char) :
    piecesOfChars (front ++ blank :: back) = piecesOfChars front ++ piecesOfChars back := by
  have hblank : piecesOfRun [blank] = [] := by rw [piecesOfRun, if_pos h]
  unfold piecesOfChars
  rw [Text.splitBy_blank (fun c => (sameRun_blank h c).1) (fun c => (sameRun_blank h c).2),
    List.flatMap_append, List.flatMap_cons, hblank, List.nil_append]

/-- The tokens of words with blanks between them are those of the words. -/
theorem scan_intercalate (words : List String) :
    scan (" ".intercalate words) = words.flatMap scan := by
  unfold scan pieces
  rw [Text.flatMap_words rfl (piecesOfChars_blank (by decide)), List.map_flatMap, List.map_flatMap]

-- A joining mark is punctuation, so it is in no word.
theorem not_isJoining_of_isWordChar {c : Char} (h : isWordChar c = true) : isJoining c = false := by
  apply Bool.eq_false_iff.2
  intro hjoining
  have hmark := List.contains_iff_mem.2 (mem_punctuation_of_isJoining hjoining)
  rw [isWordChar, hmark, Bool.not_true, Bool.and_false] at h
  cases h

theorem piecesOfRun_word {c : Char} (h : isWordChar c = true) (rest : List Char) :
    piecesOfRun (c :: rest) = [c :: rest] := by
  have hjoining := not_isJoining_of_isWordChar h
  rw [isWordChar, Bool.and_eq_true, Bool.not_eq_true'] at h
  rw [piecesOfRun, h.1, if_neg Bool.false_ne_true, hjoining, if_neg Bool.false_ne_true]

-- An unbroken word is one piece.
theorem piecesOfChars_word {chars : List Char} (hne : chars ≠ [])
    (hchars : ∀ c ∈ chars, isWordChar c = true) : piecesOfChars chars = [chars] := by
  have hsame : ∀ a ∈ chars, ∀ b ∈ chars, sameRun a b = true := by
    intro a ha b hb
    rw [sameRun, hchars a ha, hchars b hb]
    rfl
  rw [piecesOfChars, Text.splitBy_of_forall hne hsame, List.flatMap_singleton]
  obtain ⟨c, rest, rfl⟩ := List.exists_cons_of_ne_nil hne
  exact piecesOfRun_word (hchars c List.mem_cons_self) rest

-- A text that is one piece is one token.
theorem scan_of_piecesOfChars {text : String} (h : piecesOfChars text.toList = [text.toList]) :
    scan text = [ofText text] := by
  rw [scan, pieces, h, List.map_singleton, List.map_singleton, String.ofList_toList]

theorem scan_of_wordChars {word : String} (hne : word ≠ "")
    (hchars : ∀ c ∈ word.toList, isWordChar c = true) : scan word = [ofText word] :=
  scan_of_piecesOfChars (piecesOfChars_word (fun h => hne (String.toList_eq_nil_iff.1 h)) hchars)

theorem scan_symbol (op : Operator) : scan op.symbol = [⟨.symbol, op.symbol⟩] := by
  cases op <;> decide

end Token

namespace Equation

theorem lexemesOfChars_blank (front back : List Char) :
    lexemesOfChars (front ++ ' ' :: back) = lexemesOfChars front ++ lexemesOfChars back := by
  have hblank : isOperandChar ' ' = false := by decide
  have hrun : Lexeme.ofRun? [' '] = none := by decide
  unfold lexemesOfChars
  rw [Text.splitBy_blank (fun c => by rw [hblank, Bool.and_false])
    (fun c => by rw [hblank, Bool.false_and]), List.filterMap_append, List.filterMap_cons, hrun]

/-- The lexemes of words with blanks between them are those of the words. -/
theorem lexemes_intercalate (words : List String) :
    lexemes (" ".intercalate words) = words.flatMap lexemes :=
  Text.flatMap_words rfl lexemesOfChars_blank words

-- An unbroken operand is one lexeme.
theorem lexemes_of_operandChars {word : String} (hne : word ≠ "")
    (hchars : ∀ c ∈ word.toList, isOperandChar c = true) : lexemes word = [.operand word] := by
  have hsame : ∀ a ∈ word.toList, ∀ b ∈ word.toList,
      (isOperandChar a && isOperandChar b) = true := by
    intro a ha b hb
    rw [hchars a ha, hchars b hb]
    rfl
  have hnil : word.toList ≠ [] := fun h => hne (String.toList_eq_nil_iff.1 h)
  have hrun : Lexeme.ofRun? word.toList = some (.operand word) := by
    obtain ⟨c, rest, hword⟩ := List.exists_cons_of_ne_nil hnil
    rw [hword] at hchars
    rw [hword, Lexeme.ofRun?, if_pos (hchars c List.mem_cons_self), ← hword, String.ofList_toList]
  rw [lexemes, lexemesOfChars, Text.splitBy_of_forall hnil hsame, List.filterMap_cons, hrun,
    List.filterMap_nil]

theorem lexemes_symbol (op : Operator) : lexemes op.symbol = [.operator op] := by
  cases op <;> decide

end Equation

/-! ## Plain words -/

/-- An ASCII letter, then ASCII letters and digits, and not a reserved word. -/
def isPlainName (text : String) : Bool :=
  match text.toList with
  | [] => false
  | first :: rest =>
      first.isAlpha && rest.all Char.isAlphanum && !Token.reservedWords.contains text

/-- A plain name, or one ASCII digit or more. -/
def isPlainOperand (text : String) : Bool :=
  isPlainName text || Token.isNumber text.toList

theorem toNat_lt_of_isAlphanum {c : Char} (h : c.isAlphanum = true) : c.toNat < 128 := by
  -- the ranges of capitals, small letters and digits
  change ((decide (c.val ≥ 65 ∧ c.val ≤ 90) || decide (c.val ≥ 97) && decide (c.val ≤ 122))
    || decide (c.val ≥ 48) && decide (c.val ≤ 57)) = true at h
  simp only [Bool.or_eq_true, Bool.and_eq_true, decide_eq_true_eq, ge_iff_le,
    UInt32.le_iff_toNat_le, UInt32.reduceToNat] at h
  show c.val.toNat < 128
  omega

-- What holds of every ASCII character holds of every ASCII letter and digit.
theorem of_isAlphanum {P : Char → Prop} (hascii : ∀ number < 128, P (Char.ofNat number)) {c : Char}
    (h : c.isAlphanum = true) : P c := by
  have hchar := hascii c.toNat (toNat_lt_of_isAlphanum h)
  rwa [Char.ofNat_toNat] at hchar

theorem isWordChar_of_isAlphanum {c : Char} (h : c.isAlphanum = true) :
    Token.isWordChar c = true :=
  of_isAlphanum (P := fun c => c.isAlphanum = true → Token.isWordChar c = true) (by decide) h h

theorem ne_slash_of_isAlphanum {c : Char} (h : c.isAlphanum = true) : c ≠ '/' := by
  intro hslash
  subst hslash
  revert h
  decide

theorem isOperandChar_of_isAlphanum {c : Char} (h : c.isAlphanum = true) :
    Equation.isOperandChar c = true := by
  rw [Equation.isOperandChar, Text.isAlphanumeric, if_pos (toNat_lt_of_isAlphanum h), h]
  rfl

theorem isAlphanum_of_isDigit {c : Char} (h : c.isDigit = true) : c.isAlphanum = true := by
  rw [Char.isAlphanum, h, Bool.or_true]

-- No digit begins an identifier.
theorem not_isIdentifier_of_isDigit {first : Char} (h : first.isDigit = true) (rest : List Char) :
    Token.isIdentifier (first :: rest) = false := by
  have hfirst : (first.isAlpha || first == '_') = false :=
    of_isAlphanum (P := fun c => c.isDigit = true → (c.isAlpha || c == '_') = false) (by decide)
      (isAlphanum_of_isDigit h) h
  rw [Token.isIdentifier, hfirst, Bool.false_and]

theorem isPlainName_iff {text : String} :
    isPlainName text = true ↔ ∃ first rest, text.toList = first :: rest ∧ first.isAlpha = true ∧
      (∀ c ∈ rest, c.isAlphanum = true) ∧ text ∉ Token.reservedWords := by
  unfold isPlainName
  cases text.toList with
  | nil => simp
  | cons first rest => simp [and_assoc]

-- A plain operand is made of letters and digits.
theorem isAlphanum_of_isPlainOperand {text : String} (h : isPlainOperand text = true) :
    text ≠ "" ∧ ∀ c ∈ text.toList, c.isAlphanum = true := by
  rw [isPlainOperand, Bool.or_eq_true] at h
  rcases h with h | h
  · obtain ⟨first, rest, htext, hfirst, hrest, -⟩ := isPlainName_iff.1 h
    constructor
    · intro hempty
      rw [hempty] at htext
      simp at htext
    · intro c hmem
      rw [htext] at hmem
      rcases List.mem_cons.1 hmem with rfl | hmem
      · rw [Char.isAlphanum, hfirst, Bool.true_or]
      · exact hrest c hmem
  · rw [Token.isNumber, Bool.and_eq_true, List.all_eq_true] at h
    constructor
    · intro hempty
      rw [hempty] at h
      simp at h
    · intro c hmem
      exact isAlphanum_of_isDigit (h.2 c hmem)

-- A plain name is scanned as an identifier.
theorem kind_of_isPlainName {text : String} (h : isPlainName text = true) :
    Token.Kind.ofText text = .identifier := by
  obtain ⟨first, rest, htext, hfirst, hrest, hreserved⟩ := isPlainName_iff.1 h
  have hidentifier : Token.isIdentifier text.toList = true := by
    rw [htext, Token.isIdentifier, hfirst, Bool.true_or, Bool.true_and, List.all_eq_true]
    intro c hmem
    rw [hrest c hmem, Bool.true_or]
  rw [Token.Kind.ofText_of_not_mem hreserved, if_pos hidentifier]

-- A run of digits is scanned as a number.
theorem kind_of_isNumber {text : String} (h : Token.isNumber text.toList = true) :
    Token.Kind.ofText text = .number := by
  have hreserved :=
    Token.not_mem_reservedWords (fun word => Token.isNumber word.toList) (by decide) h
  have hidentifier : Token.isIdentifier text.toList = false := by
    cases htext : text.toList with
    | nil => rfl
    | cons first rest =>
      rw [htext, Token.isNumber, List.all_cons, Bool.and_eq_true, Bool.and_eq_true] at h
      exact not_isIdentifier_of_isDigit h.2.1 rest
  rw [Token.Kind.ofText_of_not_mem hreserved, hidentifier, if_neg Bool.false_ne_true, if_pos h]

end ThreeAddress
