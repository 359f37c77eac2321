import Mathlib.Data.List.Infix
import ThreeAddress.Proofs.Spacing

/-!
# Pieces

The texts that a scan can give: words in which no comment opens, punctuation marks, and pairs of
joining marks. The pieces of a text without its comments are of this kind, since a slash that is
kept is never kept in front of a slash or a star. Each of them is scanned as one piece again when it
stands alone.
-/

namespace ThreeAddress

namespace Text

/-- Neither kind of comment opens anywhere in the characters. -/
def OpensNoComment (chars : List Char) : Prop :=
  ¬['/', '/'] <:+: chars ∧ ¬['/', '*'] <:+: chars

instance : DecidablePred OpensNoComment :=
  fun chars => inferInstanceAs (Decidable (¬['/', '/'] <:+: chars ∧ ¬['/', '*'] <:+: chars))

theorem opensNoComment_iff_isChain {chars : List Char} :
    OpensNoComment chars ↔ chars.IsChain Apart := by
  rw [List.isChain_iff_forall_rel_of_append_cons_cons]
  constructor
  · rintro ⟨hline, hblock⟩ a b front back rfl rfl
    refine ⟨?_, ?_⟩
    · rintro rfl
      exact hline ⟨front, back, by simp⟩
    · rintro rfl
      exact hblock ⟨front, back, by simp⟩
  · intro h
    refine ⟨?_, ?_⟩
    · rintro ⟨front, back, rfl⟩
      exact (h (List.append_assoc ..) rfl).1 rfl
    · rintro ⟨front, back, rfl⟩
      exact (h (List.append_assoc ..) rfl).2 rfl

theorem outsideComments_cons {c : Char} (h : c ≠ '/') (rest : List Char) :
    outsideComments .code (c :: rest) = c :: outsideComments .code rest := by
  refine @outsideComments_append [c] rest (List.isChain_singleton c) ?_
  rintro a ha b _ rfl
  cases ha
  exact absurd rfl h

/-- In what is left of a text without its comments, no comment opens. -/
theorem isChain_outsideComments (region : Region) (chars : List Char) :
    (outsideComments region chars).IsChain Apart := by
  fun_induction outsideComments region chars with
  | case1 => exact .nil
  | case2 _ ih | case3 _ ih | case6 _ _ _ ih | case7 _ ih | case8 _ _ _ ih => exact ih
  | case4 c rest hline hblock ih =>
    refine List.isChain_cons.2 ⟨fun b hb hslash => ?_, ih⟩
    -- behind a slash that is kept, the next character is kept too
    cases rest with
    | nil => cases hb
    | cons d rest =>
      have hd : d ≠ '/' ∧ d ≠ '*' :=
        ⟨fun h => hline rest hslash (by rw [h]), fun h => hblock rest hslash (by rw [h])⟩
      rw [outsideComments_cons hd.1] at hb
      cases hb
      exact hd
  | case5 rest ih => exact List.isChain_cons.2 ⟨fun _ _ h => absurd h (by decide), ih⟩

end Text

namespace Token

open Text

/-- A word in which no comment opens, a punctuation mark, or two joining marks. -/
def IsPiece (chars : List Char) : Prop :=
  (chars ≠ [] ∧ (∀ c ∈ chars, isWordChar c = true) ∧ OpensNoComment chars) ∨
    (∃ mark ∈ punctuation, chars = [mark]) ∨
    ∃ first ∈ joiningMarks, ∃ second ∈ joiningMarks, chars = [first, second]

-- Characters are looked for in the lists only, not among all characters.
instance : DecidablePred IsPiece := fun chars =>
  have : Decidable (∀ c ∈ chars, isWordChar c = true) := List.decidableBAll _ chars
  have : Decidable (∃ mark ∈ punctuation, chars = [mark]) := List.decidableBEx _ punctuation
  have : ∀ first, Decidable (∃ second ∈ joiningMarks, chars = [first, second]) :=
    fun _ => List.decidableBEx _ joiningMarks
  have : Decidable (∃ first ∈ joiningMarks, ∃ second ∈ joiningMarks, chars = [first, second]) :=
    List.decidableBEx _ joiningMarks
  inferInstanceAs (Decidable (
    (chars ≠ [] ∧ (∀ c ∈ chars, isWordChar c = true) ∧ OpensNoComment chars) ∨
      (∃ mark ∈ punctuation, chars = [mark]) ∨
      ∃ first ∈ joiningMarks, ∃ second ∈ joiningMarks, chars = [first, second]))

/-! ## A piece alone -/

theorem sameRun_iff {a b : Char} : sameRun a b = true ↔
    (isWordChar a = true ∧ isWordChar b = true) ∨ (isJoining a = true ∧ isJoining b = true) := by
  rw [sameRun, Bool.or_eq_true, Bool.and_eq_true, Bool.and_eq_true]

/-- A piece by itself is cut no further. -/
theorem IsPiece.piecesOfChars {chars : List Char} (h : IsPiece chars) :
    piecesOfChars chars = [chars] := by
  rcases h with ⟨hne, hword, -⟩ | ⟨mark, hmark, rfl⟩ | ⟨first, hfirst, second, hsecond, rfl⟩
  · exact piecesOfChars_word hne hword
  · have hblank := not_isBlank_of_mem_punctuation hmark
    rw [Token.piecesOfChars, List.splitBy_of_isChain (by simp) (List.isChain_singleton mark),
      List.flatMap_singleton, piecesOfRun, hblank, if_neg Bool.false_ne_true, inPairs, ite_self]
  · have hjoining : isJoining first = true := List.contains_iff_mem.2 hfirst
    have hsame : sameRun first second = true :=
      sameRun_iff.2 (.inr ⟨hjoining, List.contains_iff_mem.2 hsecond⟩)
    have hblank := not_isBlank_of_mem_punctuation (mem_punctuation_of_isJoining hjoining)
    rw [Token.piecesOfChars, List.splitBy_of_isChain (by simp) (List.isChain_pair.2 hsame),
      List.flatMap_singleton, piecesOfRun, hblank, if_neg Bool.false_ne_true, hjoining, if_pos rfl,
      inPairs, inPairs]

theorem scan_of_isPiece {text : String} (h : IsPiece text.toList) : scan text = [ofText text] :=
  scan_of_piecesOfChars h.piecesOfChars

-- No comment opens in a piece.
theorem IsPiece.isChain {chars : List Char} (h : IsPiece chars) : chars.IsChain Apart := by
  rcases h with ⟨-, -, hcomments⟩ | ⟨mark, -, rfl⟩ | ⟨first, hfirst, second, -, rfl⟩
  · exact opensNoComment_iff_isChain.1 hcomments
  · exact List.isChain_singleton mark
  · have hmarks : '/' ∉ joiningMarks := by decide
    refine List.isChain_pair.2 fun hslash => ?_
    rw [hslash] at hfirst
    exact absurd hfirst hmarks

/-! ## The pieces of a text -/

theorem mem_inPairs {α : Type} {list pair : List α} (h : pair ∈ inPairs list) :
    (∃ a ∈ list, pair = [a]) ∨ ∃ a ∈ list, ∃ b ∈ list, pair = [a, b] := by
  fun_induction inPairs list with
  | case1 a b rest ih =>
    rcases List.mem_cons.1 h with rfl | h
    · exact .inr ⟨a, by simp, b, by simp, rfl⟩
    · rcases ih h with ⟨c, hc, rfl⟩ | ⟨c, hc, d, hd, rfl⟩
      · exact .inl ⟨c, by simp [hc], rfl⟩
      · exact .inr ⟨c, by simp [hc], d, by simp [hd], rfl⟩
  | case2 a => exact .inl ⟨a, by simp, List.mem_singleton.1 h⟩
  | case3 => cases h

theorem mem_punctuation_of_not_isWordChar {c : Char} (hblank : ¬isBlank c = true)
    (hword : ¬isWordChar c = true) : c ∈ punctuation := by
  rw [Bool.not_eq_true] at hblank
  rw [isWordChar, hblank] at hword
  simpa using hword

section Runs

variable {c : Char} {rest : List Char}
  (hsame : (c :: rest).IsChain fun a b => sameRun a b = true)
include hsame

-- A run that begins with a joining mark has nothing else in it.
theorem mem_joiningMarks_of_run (hc : isJoining c = true) :
    ∀ mark ∈ c :: rest, mark ∈ joiningMarks := by
  have hnext : ∀ ⦃a b : Char⦄, sameRun a b = true → isJoining a = true → isJoining b = true := by
    intro a b hab ha
    rcases sameRun_iff.1 hab with ⟨hword, -⟩ | ⟨-, hb⟩
    · rw [not_isJoining_of_isWordChar hword] at ha
      cases ha
    · exact hb
  have hrest := hsame.cons_induction (fun a => isJoining a = true) rest hnext hc
  intro mark hmem
  apply List.mem_of_elem_eq_true
  rcases List.mem_cons.1 hmem with rfl | hmem
  · exact hc
  · exact hrest mark hmem

-- A run that begins with a word character is a word.
theorem isWordChar_of_run (hc : isWordChar c = true) :
    ∀ d ∈ c :: rest, isWordChar d = true := by
  have hnext : ∀ ⦃a b : Char⦄, sameRun a b = true → isWordChar a = true →
      isWordChar b = true := by
    intro a b hab ha
    rcases sameRun_iff.1 hab with ⟨-, hb⟩ | ⟨hjoining, -⟩
    · exact hb
    · rw [not_isJoining_of_isWordChar ha] at hjoining
      cases hjoining
  exact List.forall_mem_cons.2
    ⟨hc, hsame.cons_induction (fun a => isWordChar a = true) rest hnext hc⟩

-- What neither belongs to a word nor joins goes with no neighbour.
theorem eq_nil_of_run (hword : isWordChar c = false) (hjoining : isJoining c = false) :
    rest = [] := by
  cases rest with
  | nil => rfl
  | cons d rest =>
    rcases sameRun_iff.1 (List.isChain_cons_cons.1 hsame).1 with ⟨hc, -⟩ | ⟨hc, -⟩
    · rw [hword] at hc
      cases hc
    · rw [hjoining] at hc
      cases hc

-- A run that begins with any other character is a word or a single punctuation mark.
theorem isPiece_of_run (hcomments : OpensNoComment (c :: rest)) (hblank : ¬isBlank c = true)
    (hc : ¬isJoining c = true) : IsPiece (c :: rest) := by
  by_cases hword : isWordChar c = true
  · exact .inl ⟨List.cons_ne_nil c rest, isWordChar_of_run hsame hword, hcomments⟩
  · rw [eq_nil_of_run hsame (Bool.eq_false_iff.2 hword) (Bool.eq_false_iff.2 hc)]
    exact .inr (.inl ⟨c, mem_punctuation_of_not_isWordChar hblank hword, rfl⟩)

end Runs

theorem isPiece_of_mem_piecesOfRun {run piece : List Char}
    (hsame : run.IsChain fun a b => sameRun a b = true) (hcomments : OpensNoComment run)
    (h : piece ∈ piecesOfRun run) : IsPiece piece := by
  fun_cases piecesOfRun run with
  | case1 => simp [piecesOfRun] at h
  | case2 c rest hblank => simp [piecesOfRun, hblank] at h
  | case3 c rest hblank hjoining =>
    rw [piecesOfRun, if_neg hblank, if_pos hjoining] at h
    have hrun := mem_joiningMarks_of_run hsame hjoining
    rcases mem_inPairs h with ⟨a, ha, rfl⟩ | ⟨a, ha, b, hb, rfl⟩
    · have hmark := mem_punctuation_of_isJoining (List.contains_iff_mem.2 (hrun a ha))
      exact .inr (.inl ⟨a, hmark, rfl⟩)
    · exact .inr (.inr ⟨a, hrun a ha, b, hrun b hb, rfl⟩)
  | case4 c rest hblank hjoining =>
    rw [piecesOfRun, if_neg hblank, if_neg hjoining, List.mem_singleton] at h
    rw [h]
    exact isPiece_of_run hsame hcomments hblank hjoining

/-- Whatever a text without comments is cut into are pieces. -/
theorem isPiece_of_mem_piecesOfChars {chars piece : List Char} (hcomments : OpensNoComment chars)
    (h : piece ∈ piecesOfChars chars) : IsPiece piece := by
  obtain ⟨run, hrun, hpiece⟩ := List.mem_flatMap.1 h
  have hinside : run <:+: chars := by
    have hflatten := List.infix_of_mem_flatten hrun
    rwa [List.flatten_splitBy] at hflatten
  have hrunchain := List.IsChain.infix (opensNoComment_iff_isChain.1 hcomments) hinside
  exact isPiece_of_mem_piecesOfRun (List.isChain_of_mem_splitBy hrun)
    (opensNoComment_iff_isChain.2 hrunchain) hpiece

/-- The text of every token of a program is a piece, and its kind is that of its text. -/
theorem isPiece_of_mem_scan {source : String} {token : Token}
    (h : token ∈ scan (removeComments source)) :
    IsPiece token.text.toList ∧ token = ofText token.text := by
  obtain ⟨text, htext, rfl⟩ := List.mem_map.1 h
  obtain ⟨chars, hchars, rfl⟩ := List.mem_map.1 htext
  rw [removeComments, String.toList_ofList] at hchars
  have hcomments := opensNoComment_iff_isChain.2 (isChain_outsideComments .code source.toList)
  refine ⟨?_, rfl⟩
  rw [ofText, String.toList_ofList]
  exact isPiece_of_mem_piecesOfChars hcomments hchars

end Token

end ThreeAddress
