import Mathlib.Data.List.TakeWhile
import ThreeAddress.Viewer.Highlight

/-!
# Segments of a source line

Colours change nothing of a line. Its spans put together are the line, none of them is empty, and
where they begin and end is told by the line alone: quotes go in pairs from the left, a quoted
segment takes all from one quote through its partner, and outside such segments a word takes as many
characters as it can on both sides, while every other character stands alone. No other list of spans
is like this.
-/

namespace ThreeAddress.Viewer

/-- The characters of a line in colours. -/
def Line.text (line : Line) : String :=
  String.join (line.map Span.text)

namespace Segment

/-- A place is outside quoted segments if the quotes in front of it make pairs. -/
def OutsideQuotes (front : List Char) : Prop :=
  front.count '"' % 2 = 0

/-- What a segment is, with the text in front of it and the text behind it: from a quote through the
next one, or to the end of the line if there is none; a word that neither neighbour makes longer;
or one other character. -/
inductive Fits (front : List Char) : Segment → List Char → Prop where
  | closed {inner back} : '"' ∉ inner → Fits front ⟨.quoted, '"' :: (inner ++ ['"'])⟩ back
  | unclosed {inner} : '"' ∉ inner → Fits front ⟨.quoted, '"' :: inner⟩ []
  | word {run back} : run ≠ [] → (∀ c ∈ run, isWordChar c = true) →
      (∀ c ∈ front.getLast?, isWordChar c = false) →
      (∀ c ∈ back.head?, isWordChar c = false) → Fits front ⟨.word, run⟩ back
  | mark {c back} : c ≠ '"' → isWordChar c = false → Fits front ⟨.mark, [c]⟩ back

/-- Neither a quoted segment nor a word reaches over the border between the two texts. -/
structure Border (front back : List Char) : Prop where
  outside : back ≠ [] → OutsideQuotes front
  word : ∀ c ∈ back.head?, isWordChar c = true → ∀ a ∈ front.getLast?, isWordChar a = false

variable {front back : List Char} {segment : Segment}

theorem isWordChar_quote : isWordChar '"' = false := by
  decide

theorem ne_quote_of_isWordChar {c : Char} (h : isWordChar c = true) : c ≠ '"' := by
  rintro rfl
  rw [isWordChar_quote] at h
  cases h

theorem ne_quote_of_notMem {inner : List Char} (h : '"' ∉ inner) :
    ∀ c ∈ inner, (c != '"') = true := by
  intro c hmem
  apply bne_iff_ne.2
  rintro rfl
  exact h hmem

/-! ## The first segment -/

/-- A run that cannot be longer is what is taken while its condition holds. -/
theorem takeWhile_and_dropWhile_run {p : Char → Bool} {run : List Char}
    (hrun : ∀ c ∈ run, p c = true) (hback : ∀ c ∈ back.head?, p c = false) :
    (run ++ back).takeWhile p = run ∧ (run ++ back).dropWhile p = back := by
  rw [List.takeWhile_append_of_pos hrun, List.dropWhile_append_of_pos hrun]
  cases back with
  | nil => simp
  | cons c back => simp [hback c rfl]

theorem ofLine_nil : ofLine [] = [] := by
  unfold ofLine
  rfl

theorem ofLine_closed {inner : List Char} (h : '"' ∉ inner) (back : List Char) :
    ofLine ('"' :: (inner ++ '"' :: back)) =
      ⟨.quoted, '"' :: (inner ++ ['"'])⟩ :: ofLine back := by
  have hend : ∀ c ∈ ('"' :: back).head?, (c != '"') = false := by simp
  obtain ⟨htake, hdrop⟩ := takeWhile_and_dropWhile_run (ne_quote_of_notMem h) hend
  rw [ofLine, if_pos rfl]
  split
  · next hnil => simp [hdrop] at hnil
  · next close after hcons =>
    obtain ⟨rfl, rfl⟩ := List.cons.inj (hdrop.symm.trans hcons)
    rw [htake]
    rfl

theorem ofLine_unclosed {inner : List Char} (h : '"' ∉ inner) :
    ofLine ('"' :: inner) = [⟨.quoted, '"' :: inner⟩] := by
  have hdrop : inner.dropWhile (· != '"') = [] :=
    List.dropWhile_eq_nil_iff.2 (ne_quote_of_notMem h)
  rw [ofLine, if_pos rfl]
  split
  · rfl
  · next close after hcons => simp [hdrop] at hcons

/-- Scanning takes off what fits at the beginning, and goes on with the rest. -/
theorem Fits.ofLine_append (h : Fits front segment back) :
    ofLine (segment.chars ++ back) = segment :: ofLine back := by
  cases h with
  | @closed inner _ hinner =>
    have hclosed := ofLine_closed hinner back
    simpa using hclosed
  | @unclosed inner hinner =>
    rw [List.append_nil, ofLine_unclosed hinner, ofLine_nil]
  | @word run _ hne hrun _ hback =>
    cases run with
    | nil => exact absurd rfl hne
    | cons c run =>
      obtain ⟨hc, hrun⟩ := List.forall_mem_cons.1 hrun
      obtain ⟨htake, hdrop⟩ := takeWhile_and_dropWhile_run hrun hback
      rw [List.cons_append, ofLine, if_neg (ne_quote_of_isWordChar hc), if_pos hc, htake, hdrop]
  | @mark c _ hquote hword =>
    rw [List.singleton_append, ofLine, if_neg hquote, if_neg (Bool.eq_false_iff.1 hword)]

theorem head?_dropWhile {p : Char → Bool} {rest : List Char} :
    ∀ c ∈ (rest.dropWhile p).head?, p c = false := by
  intro c hc
  have hnot := List.head?_dropWhile_not p rest
  rw [Option.mem_def.1 hc] at hnot
  exact hnot

/-- Behind a border there is something that fits. -/
theorem exists_fits {line : List Char} (h : Border front line) (hne : line ≠ []) :
    ∃ segment back, Fits front segment back ∧ line = segment.chars ++ back := by
  cases line with
  | nil => exact absurd rfl hne
  | cons c rest =>
    by_cases hquote : c = '"'
    · subst hquote
      have hinner : '"' ∉ rest.takeWhile (· != '"') := by
        intro hmem
        simpa using List.mem_takeWhile_imp hmem
      have hrest : rest.takeWhile (· != '"') ++ rest.dropWhile (· != '"') = rest :=
        List.takeWhile_append_dropWhile
      cases hdrop : rest.dropWhile (· != '"') with
      | nil =>
        rw [hdrop, List.append_nil] at hrest
        exact ⟨_, _, .unclosed (hrest ▸ hinner), (List.append_nil _).symm⟩
      | cons close back =>
        have hclose : (close != '"') = false := head?_dropWhile close (by rw [hdrop]; rfl)
        obtain rfl : close = '"' := by simpa using hclose
        refine ⟨_, back, .closed hinner, ?_⟩
        rw [List.cons_append, List.append_assoc, List.singleton_append, ← hdrop, hrest]
    · by_cases hc : isWordChar c = true
      · have hrun : ∀ a ∈ c :: rest.takeWhile isWordChar, isWordChar a = true :=
          List.forall_mem_cons.2 ⟨hc, fun a hmem => List.mem_takeWhile_imp hmem⟩
        refine ⟨_, rest.dropWhile isWordChar,
          .word (List.cons_ne_nil _ _) hrun (h.word c rfl hc) head?_dropWhile, ?_⟩
        rw [List.cons_append, List.takeWhile_append_dropWhile]
      · exact ⟨_, rest, .mark hquote (Bool.eq_false_iff.2 hc), rfl⟩

theorem Fits.ne_nil (h : Fits front segment back) : segment.chars ≠ [] := by
  cases h with
  | word hne _ _ _ => exact hne
  | closed _ | unclosed _ | mark _ _ => exact List.cons_ne_nil _ _

/-! ## One segment after the other -/

theorem OutsideQuotes.append {text : List Char} (h : OutsideQuotes front)
    (htext : OutsideQuotes text) : OutsideQuotes (front ++ text) := by
  unfold OutsideQuotes at *
  rw [List.count_append]
  omega

-- Only a quoted segment has quotes: two of them, if something follows.
theorem Fits.outsideQuotes (h : Fits front segment back) (hne : back ≠ []) :
    OutsideQuotes segment.chars := by
  unfold OutsideQuotes
  cases h with
  | closed hinner => simp [List.count_eq_zero_of_not_mem hinner]
  | unclosed _ => exact absurd rfl hne
  | @word run _ _ hrun _ _ =>
    have hnone : '"' ∉ run := fun hmem => ne_quote_of_isWordChar (hrun _ hmem) rfl
    rw [List.count_eq_zero_of_not_mem hnone]
  | mark hquote _ => simp [hquote]

-- The last character of a segment is in a word only if the segment is one, which ends there.
theorem Fits.word_border (h : Fits front segment back) :
    ∀ c ∈ back.head?, isWordChar c = true →
      ∀ a ∈ (front ++ segment.chars).getLast?, isWordChar a = false := by
  intro c hc hword a ha
  cases h with
  | closed _ =>
    rw [← List.cons_append, ← List.append_assoc, List.getLast?_concat] at ha
    obtain rfl : '"' = a := Option.some.inj ha
    exact isWordChar_quote
  | unclosed _ => cases hc
  | word _ _ _ hback =>
    rw [hback c hc] at hword
    cases hword
  | @mark d _ _ hmark =>
    rw [List.getLast?_concat] at ha
    obtain rfl : d = a := Option.some.inj ha
    exact hmark

/-- Behind a segment the next one can begin. -/
theorem Fits.border (h : Fits front segment back) (hfront : OutsideQuotes front) :
    Border (front ++ segment.chars) back :=
  ⟨fun hne => hfront.append (h.outsideQuotes hne), h.word_border⟩

end Segment

/-! ## Spans -/

theorem Segment.toList_text_span (segment : Segment) :
    segment.span.text.toList = segment.chars :=
  String.toList_ofList

theorem Segment.Fits.text_span_ne {front back : List Char} {segment : Segment}
    (h : Fits front segment back) : segment.span.text ≠ "" := by
  intro hempty
  apply h.ne_nil
  rw [← toList_text_span, hempty, String.toList_empty]

/-- A span that shows a segment, which begins outside quoted segments and fits there. -/
def Span.Stands (front : List Char) (span : Span) (back : List Char) : Prop :=
  Segment.OutsideQuotes front ∧ ∃ segment, Segment.Fits front segment back ∧ span = segment.span

namespace Line

open Segment

/-- Every span stands between those in front of it and those behind it. -/
def Placed (front : List Char) (line : Line) : Prop :=
  ∀ before span after, line = before ++ span :: after →
    span.Stands (front ++ (text before).toList) (text after).toList

variable {front : List Char} {span : Span} {line : Line}

@[simp]
theorem text_nil : text [] = "" :=
  rfl

theorem toList_text_cons (span : Span) (line : Line) :
    (text (span :: line)).toList = span.text.toList ++ (text line).toList := by
  rw [text, List.map_cons, String.join_cons, String.toList_append]
  rfl

theorem placed_nil (front : List Char) : Placed front [] := by
  intro before span after h
  simp at h

theorem placed_cons_iff :
    Placed front (span :: line) ↔
      span.Stands front (text line).toList ∧ Placed (front ++ span.text.toList) line := by
  constructor
  · intro h
    constructor
    · simpa using h [] span line rfl
    · intro before other after hline
      have hother := h (span :: before) other after (by rw [hline, List.cons_append])
      rwa [toList_text_cons, ← List.append_assoc] at hother
  · rintro ⟨hspan, hline⟩ before other after heq
    cases before with
    | nil =>
      obtain ⟨rfl, rfl⟩ := List.cons.inj heq
      simpa using hspan
    | cons first before =>
      obtain ⟨rfl, hrest⟩ := List.cons.inj heq
      rw [toList_text_cons, ← List.append_assoc]
      exact hline before other after hrest

/-- Spans in their places are what the scan of their text gives. -/
theorem Placed.map_ofLine (h : Placed front line) :
    (ofLine (text line).toList).map Segment.span = line := by
  induction line generalizing front with
  | nil => rw [text_nil, String.toList_empty, ofLine_nil, List.map_nil]
  | cons span line ih =>
    obtain ⟨⟨-, segment, hfits, rfl⟩, hline⟩ := placed_cons_iff.1 h
    rw [toList_text_cons, toList_text_span, hfits.ofLine_append, List.map_cons, ih hline]

/-- The scan of a text loses nothing, and puts every span in its place. -/
theorem placed_ofLine {chars : List Char} (h : Border front chars) :
    (text ((ofLine chars).map Segment.span)).toList = chars ∧
      Placed front ((ofLine chars).map Segment.span) := by
  -- what is left behind a segment is shorter, and begins at a border again
  induction hlength : chars.length using Nat.strong_induction_on generalizing front chars with
  | _ length ih =>
    by_cases hne : chars = []
    · subst hne
      rw [ofLine_nil, List.map_nil]
      exact ⟨String.toList_empty, placed_nil front⟩
    · obtain ⟨segment, back, hfits, rfl⟩ := exists_fits h hne
      have houtside := h.outside hne
      have hshorter : back.length < length := by
        have hpos := List.length_pos_iff.2 hfits.ne_nil
        rw [List.length_append] at hlength
        omega
      obtain ⟨htext, hplaced⟩ := ih back.length hshorter (hfits.border houtside) rfl
      rw [hfits.ofLine_append, List.map_cons, toList_text_cons, placed_cons_iff, htext,
        toList_text_span]
      exact ⟨rfl, ⟨houtside, segment, hfits, rfl⟩, hplaced⟩

end Line

/-- A line in colours that has no empty span, has the text of the line, and has each span in its
place. -/
structure IsHighlighting (line : String) (spans : Line) : Prop where
  solid : ∀ span ∈ spans, span.text ≠ ""
  lossless : spans.text = line
  placed : ∀ before span after, spans = before ++ span :: after →
    span.Stands (Line.text before).toList (Line.text after).toList

/-- A line in colours has the text of the line, in spans none of which is empty. Each of them is a
quoted segment, through the next quote or through the end of the line, or outside such segments a
word that cannot be longer or one other character. No other spans are like this. -/
theorem eq_highlight_iff {line : String} {spans : Line} :
    spans = highlight line ↔ IsHighlighting line spans := by
  constructor
  · rintro rfl
    have hstart : Segment.Border [] line.toList := ⟨fun _ => rfl, nofun⟩
    obtain ⟨htext, hplaced⟩ := Line.placed_ofLine hstart
    refine ⟨fun span hmem => ?_, String.toList_injective htext, hplaced⟩
    obtain ⟨before, after, hspan⟩ := List.append_of_mem hmem
    obtain ⟨-, segment, hfits, rfl⟩ := hplaced before span after hspan
    exact hfits.text_span_ne
  · intro h
    have hplaced : Line.Placed [] spans := h.placed
    rw [highlight, ← h.lossless, hplaced.map_ofLine]

-- A quote ends a word, a closing quote opens nothing, and the last one has no partner.
example : (highlight "f(x1\"a b\"_1;\"").map Span.text =
    ["f", "(", "x1", "\"a b\"", "_1", ";", "\""] := by
  decide +kernel

end ThreeAddress.Viewer
