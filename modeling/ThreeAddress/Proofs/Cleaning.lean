import ThreeAddress.Proofs.Layout

/-!
# Cleaned texts

No comment opens in a text whose comments have been removed: a slash that stays never comes to stand
in front of a slash or a star, although all that was between them may be gone. The texts in which no
comment opens are therefore those that removing comments leaves alone, one removal is enough, and a
cleaned text has the same listing as the text that it comes from.
-/

namespace ThreeAddress

namespace Text

theorem opensNoComment_removeComments (source : String) :
    OpensNoComment (removeComments source).toList := by
  rw [removeComments, String.toList_ofList]
  exact opensNoComment_iff_isChain.2 (isChain_outsideComments .code source.toList)

/-- A text is left alone exactly if no comment opens in it. -/
theorem removeComments_eq_self_iff {source : String} :
    removeComments source = source ↔ OpensNoComment source.toList := by
  constructor
  · intro h
    have hcleaned := opensNoComment_removeComments source
    rwa [h] at hcleaned
  · intro h
    rw [removeComments, outsideComments_of_isChain (opensNoComment_iff_isChain.1 h),
      String.ofList_toList]

theorem removeComments_removeComments (source : String) :
    removeComments (removeComments source) = removeComments source :=
  removeComments_eq_self_iff.2 (opensNoComment_removeComments source)

end Text

namespace Listing

open Text

-- A listing depends on its text only through what is left without the comments.
theorem ofSource?_congr {source other : String} (h : removeComments source = removeComments other)
    (equation : Option String) : ofSource? source equation = ofSource? other equation := by
  unfold ofSource?
  rw [h]

/-- No comment opens in a cleaned text, so cleaning it again changes nothing, and only a text in
which no comment opens is unchanged by cleaning. The cleaned text of a listing leads to the same
listing again. -/
theorem ofSource?_cleaned (source : String) :
    OpensNoComment (removeComments source).toList ∧
      removeComments (removeComments source) = removeComments source ∧
      (removeComments source = source ↔ OpensNoComment source.toList) ∧
      ∀ equation listing, ofSource? source equation = .ok listing →
        ofSource? listing.cleaned equation = .ok listing := by
  refine ⟨opensNoComment_removeComments source, removeComments_removeComments source,
    removeComments_eq_self_iff, fun equation listing h => ?_⟩
  rw [(text_of_ofSource? h).1, ofSource?_congr (removeComments_removeComments source), h]

-- Comments that begin and end with what could open another one with their neighbours.
theorem ofSource?_cleaned_bordered :
    ∃ listing, ofSource? "y = a /**//* *//***/* b //*/\n;" none = .ok listing ∧
      listing.cleaned = "y = a * b \n;" ∧ ofSource? listing.cleaned none = .ok listing := by
  have hcleaned : removeComments "y = a /**//* *//***/* b //*/\n;" = "y = a * b \n;" := by
    decide +kernel
  have hok : (ofSource? "y = a /**//* *//***/* b //*/\n;" none).isOk = true := by
    decide +kernel
  match hlisting : ofSource? _ _, hok with
  | .ok listing, _ =>
    exact ⟨listing, rfl, (text_of_ofSource? hlisting).1.trans hcleaned,
      (ofSource?_cleaned _).2.2.2 none listing hlisting⟩

end Listing

end ThreeAddress
