import ThreeAddress.Proofs.Pieces

/-!
# Comments by search

Another way to remove the comments of a text: look for the first place where two slashes or a slash
and a star stand, keep what is in front of it, look for the end of the comment from there, and go on
behind that in the same way. The scan of one character after the other leaves the same text, however
openings and ends overlap.
-/

namespace ThreeAddress.Text

/-! ## Looking for marks -/

/-- One of the marks stands at the beginning of the text. -/
def beginsWithOne (marks : List (List Char)) (text : List Char) : Bool :=
  marks.any fun mark => mark.isPrefixOf text

/-- The first position at which one of the marks stands in the text. -/
def position? (marks : List (List Char)) (text : List Char) : Option Nat :=
  text.tails.findIdx? (beginsWithOne marks)

section Marks

variable {marks : List (List Char)} {text : List Char}

theorem beginsWithOne_iff : beginsWithOne marks text = true ↔ ∃ mark ∈ marks, mark <+: text := by
  simp only [beginsWithOne, List.any_eq_true, List.isPrefixOf_iff_prefix]

/-- A mark stands at the position that is found, and none stands further in front. -/
theorem position?_eq_some_iff {position : Nat} :
    position? marks text = some position ↔
      position ≤ text.length ∧ (∃ mark ∈ marks, mark <+: text.drop position) ∧
        ∀ earlier < position, ¬∃ mark ∈ marks, mark <+: text.drop earlier := by
  simp only [position?, List.findIdx?_eq_some_iff_getElem, List.getElem_tails, List.length_tails,
    beginsWithOne_iff, Nat.lt_succ_iff, exists_prop]

theorem position?_of_begins (h : beginsWithOne marks text = true) :
    position? marks text = some 0 := by
  unfold position?
  cases text with
  | nil => exact if_pos h
  | cons c rest => rw [List.tails_cons, List.findIdx?_cons, if_pos h]

theorem position?_cons {c : Char} (h : ¬beginsWithOne marks (c :: text) = true) :
    position? marks (c :: text) = (position? marks text).map (· + 1) := by
  unfold position?
  rw [List.tails_cons, List.findIdx?_cons, if_neg h]

end Marks

/-! ## Cutting comments out -/

/-- What follows the first end of a block comment. -/
def behindEnd (text : List Char) : List Char :=
  match position? [['*', '/']] text with
  | none => []
  | some position => text.drop (position + 2)

/-- What follows the comment that opens at the beginning of the text. The end of a block comment is
looked for behind the two characters that open it. -/
def behindComment (text : List Char) : List Char :=
  if ['/', '/'].isPrefixOf text then text.dropWhile (· != '\n') else behindEnd (text.drop 2)

/-- What a comment opens with. -/
def openings : List (List Char) :=
  [['/', '/'], ['/', '*']]

theorem openings_cases {text : List Char} (h : beginsWithOne openings text = true) :
    ∃ rest, text = '/' :: '/' :: rest ∨ text = '/' :: '*' :: rest := by
  obtain ⟨mark, hmark, rest, rfl⟩ := beginsWithOne_iff.1 h
  rw [openings, List.mem_cons, List.mem_singleton] at hmark
  rcases hmark with rfl | rfl
  · exact ⟨rest, .inl rfl⟩
  · exact ⟨rest, .inr rfl⟩

theorem behindComment_line (rest : List Char) :
    behindComment ('/' :: '/' :: rest) = rest.dropWhile (· != '\n') :=
  rfl

theorem behindComment_block (rest : List Char) :
    behindComment ('/' :: '*' :: rest) = behindEnd rest :=
  rfl

theorem length_behindEnd_le (text : List Char) : (behindEnd text).length ≤ text.length := by
  unfold behindEnd
  split
  · exact Nat.zero_le _
  · rw [List.length_drop]
    omega

theorem length_behindComment_lt {text : List Char} (h : beginsWithOne openings text = true) :
    (behindComment text).length < text.length := by
  obtain ⟨rest, rfl | rfl⟩ := openings_cases h
  · have hle := (List.dropWhile_sublist (l := rest) (· != '\n')).length_le
    rw [behindComment_line, List.length_cons, List.length_cons]
    omega
  · have hle := length_behindEnd_le rest
    rw [behindComment_block, List.length_cons, List.length_cons]
    omega

/-- The text without its comments, each of them found by looking for its opening and its end. -/
def cutComments (text : List Char) : List Char :=
  match _h : position? openings text with
  | none => text
  | some position => text.take position ++ cutComments (behindComment (text.drop position))
termination_by text.length
decreasing_by
  have hopens := (position?_eq_some_iff.1 _h).2.1
  have hlt := length_behindComment_lt (beginsWithOne_iff.2 hopens)
  rw [List.length_drop] at hlt
  omega

theorem cutComments_of_none {text : List Char} (h : position? openings text = none) :
    cutComments text = text := by
  rw [cutComments]
  split
  · rfl
  · rename_i hsome
    rw [h] at hsome
    cases hsome

theorem cutComments_of_some {text : List Char} {position : Nat}
    (h : position? openings text = some position) :
    cutComments text =
      text.take position ++ cutComments (behindComment (text.drop position)) := by
  rw [cutComments]
  split
  · rename_i hnone
    rw [h] at hnone
    cases hnone
  · rename_i hsome
    rw [h] at hsome
    cases hsome
    rfl

theorem cutComments_of_begins {text : List Char} (h : beginsWithOne openings text = true) :
    cutComments text = cutComments (behindComment text) :=
  cutComments_of_some (position?_of_begins h)

theorem cutComments_cons {c : Char} {rest : List Char}
    (h : ¬beginsWithOne openings (c :: rest) = true) :
    cutComments (c :: rest) = c :: cutComments rest := by
  have hposition := position?_cons h
  cases hrest : position? openings rest with
  | none =>
    rw [hrest] at hposition
    rw [cutComments_of_none hposition, cutComments_of_none hrest]
  | some position =>
    rw [hrest] at hposition
    rw [cutComments_of_some hposition, cutComments_of_some hrest]
    rfl

/-! ## The scan -/

theorem outsideComments_lineComment (text : List Char) :
    outsideComments .lineComment text =
      outsideComments .code (text.dropWhile (· != '\n')) := by
  induction text with
  | nil => rfl
  | cons c rest ih =>
    by_cases hc : c = '\n'
    · have hkept : outsideComments .lineComment ('\n' :: rest) =
          '\n' :: outsideComments .code rest := by
        rw [outsideComments, if_pos rfl]
      rw [hc, List.dropWhile_cons_of_neg (by decide), hkept, outsideComments_cons (by decide)]
    · rw [outsideComments, if_neg hc, ih, List.dropWhile_cons, if_pos (bne_iff_ne.2 hc)]

theorem outsideComments_blockComment (text : List Char) :
    outsideComments .blockComment text = outsideComments .code (behindEnd text) := by
  induction text with
  | nil => rfl
  | cons c rest ih =>
    by_cases hends : beginsWithOne [['*', '/']] (c :: rest) = true
    · obtain ⟨mark, hmark, more, hmore⟩ := beginsWithOne_iff.1 hends
      rw [List.mem_singleton.1 hmark] at hmore
      unfold behindEnd
      rw [position?_of_begins hends, ← hmore]
      show outsideComments .blockComment ('*' :: '/' :: more) = outsideComments .code more
      rw [outsideComments]
    · have hskip : outsideComments .blockComment (c :: rest) =
          outsideComments .blockComment rest := by
        rw [outsideComments]
        rintro more rfl rfl
        exact hends rfl
      have hbehind : behindEnd (c :: rest) = behindEnd rest := by
        unfold behindEnd
        rw [position?_cons hends]
        cases position? [['*', '/']] rest with
        | none => rfl
        | some position => rfl
      rw [hskip, ih, hbehind]

theorem outsideComments_of_begins {text : List Char} (h : beginsWithOne openings text = true) :
    outsideComments .code text = outsideComments .code (behindComment text) := by
  obtain ⟨rest, rfl | rfl⟩ := openings_cases h
  · rw [outsideComments, outsideComments_lineComment, behindComment_line]
  · rw [outsideComments, outsideComments_blockComment, behindComment_block]

theorem outsideComments_of_not_begins {c : Char} {rest : List Char}
    (h : ¬beginsWithOne openings (c :: rest) = true) :
    outsideComments .code (c :: rest) = c :: outsideComments .code rest := by
  rw [outsideComments]
  · rintro more rfl rfl
    exact h rfl
  · rintro more rfl rfl
    exact h rfl

-- Either a comment opens here, and both go on behind it, or both keep the next character.
theorem outsideComments_eq_cutComments (text : List Char) :
    outsideComments .code text = cutComments text := by
  match text with
  | [] => exact (cutComments_of_none rfl).symm
  | c :: rest =>
    by_cases h : beginsWithOne openings (c :: rest) = true
    · rw [outsideComments_of_begins h, cutComments_of_begins h]
      exact outsideComments_eq_cutComments (behindComment (c :: rest))
    · rw [outsideComments_of_not_begins h, cutComments_cons h,
        outsideComments_eq_cutComments rest]
termination_by text.length
decreasing_by
  · exact length_behindComment_lt h
  · exact Nat.lt_succ_self _

/-- The scan takes away what a search for openings and ends takes away. -/
theorem removeComments_eq_cutComments (source : String) :
    removeComments source = String.ofList (cutComments source.toList) :=
  congrArg String.ofList (outsideComments_eq_cutComments source.toList)

-- The star of an opening ends no comment, and neither opening counts inside the other comment.
example : String.ofList (cutComments "a/*/b//**/c///*d\ne*/f/".toList) = "ac\ne*/f/" := by
  decide +kernel

end ThreeAddress.Text
