import ThreeAddress.Listing
import ThreeAddress.Proofs.Pieces

/-!
# Layout

A program can be laid out with any gaps behind its pieces, as long as each gap begins with a blank.
Comments in a gap leave nothing but their newlines behind, so what is left of the gap is blank, and
the tokens are the pieces, whatever the gaps are. A listing tells the same of two texts with the
same tokens, apart from the texts themselves.
-/

namespace ThreeAddress

namespace Text

/-- What a gap is filled with: a blank, a block comment, or a line comment with its newline. -/
inductive Filler where
  | blank (c : Char) (h : isBlank c = true)
  | blockComment (body : List Char) (h : ¬['*', '/'] <:+: body)
  | lineComment (body : List Char) (h : '\n' ∉ body)

def Filler.chars : Filler → List Char
  | .blank c _ => [c]
  | .blockComment body _ => '/' :: '*' :: (body ++ ['*', '/'])
  | .lineComment body _ => '/' :: '/' :: (body ++ ['\n'])

/-- The blanks that the filler leaves when comments are removed. -/
def Filler.blanks : Filler → List Char
  | .blank c _ => [c]
  | .blockComment .. => []
  | .lineComment .. => ['\n']

/-- A blank and any fillers behind it. -/
structure Gap where
  first : Char
  isBlank_first : isBlank first = true
  fillers : List Filler

def Gap.chars (gap : Gap) : List Char :=
  gap.first :: gap.fillers.flatMap Filler.chars

/-- The blanks that the gap leaves when comments are removed. -/
def Gap.blanks (gap : Gap) : List Char :=
  gap.first :: gap.fillers.flatMap Filler.blanks

-- A blank has no part in an opening of a comment.
theorem ne_of_isBlank {c : Char} (h : isBlank c = true) : c ≠ '/' ∧ c ≠ '*' := by
  constructor
  · rintro rfl
    revert h
    decide
  · rintro rfl
    revert h
    decide

/-! ## Comments in a gap -/

theorem outsideComments_block {body : List Char} (h : ¬['*', '/'] <:+: body) (rest : List Char) :
    outsideComments .blockComment (body ++ '*' :: '/' :: rest) = outsideComments .code rest := by
  induction body with
  | nil => rw [List.nil_append, outsideComments]
  | cons c body ih =>
    rw [List.cons_append, outsideComments]
    · exact ih fun hcloses => h (hcloses.trans (List.suffix_cons c body).isInfix)
    · -- the comment does not close inside its body, nor with the first half of its end
      rintro behind rfl hbehind
      cases body with
      | nil => simp at hbehind
      | cons d body =>
        obtain ⟨rfl, -⟩ := List.cons.inj hbehind
        exact h ⟨[], body, rfl⟩

theorem outsideComments_line {body : List Char} (h : '\n' ∉ body) (rest : List Char) :
    outsideComments .lineComment (body ++ '\n' :: rest) = '\n' :: outsideComments .code rest := by
  induction body with
  | nil => rw [List.nil_append, outsideComments, if_pos rfl]
  | cons c body ih =>
    have hc : c ≠ '\n' := fun heq => h (by rw [heq]; exact List.mem_cons_self)
    have hbody : '\n' ∉ body := fun hmem => h (List.mem_cons_of_mem c hmem)
    rw [List.cons_append, outsideComments, if_neg hc, ih hbody]

theorem Filler.outsideComments (filler : Filler) (rest : List Char) :
    outsideComments .code (filler.chars ++ rest) =
      filler.blanks ++ outsideComments .code rest := by
  cases filler with
  | blank c h => exact outsideComments_cons (ne_of_isBlank h).1 rest
  | blockComment body h =>
    rw [chars, List.cons_append, List.cons_append, List.append_assoc, Text.outsideComments]
    exact outsideComments_block h rest
  | lineComment body h =>
    rw [chars, List.cons_append, List.cons_append, List.append_assoc, Text.outsideComments]
    exact outsideComments_line h rest

theorem outsideComments_fillers (fillers : List Filler) (rest : List Char) :
    outsideComments .code (fillers.flatMap Filler.chars ++ rest) =
      fillers.flatMap Filler.blanks ++ outsideComments .code rest := by
  induction fillers with
  | nil => rfl
  | cons filler fillers ih =>
    rw [List.flatMap_cons, List.flatMap_cons, List.append_assoc, List.append_assoc,
      filler.outsideComments, ih]

/-- Of a gap behind characters in which no comment opens, only blanks are left. -/
theorem Gap.outsideComments {front : List Char} (h : front.IsChain Apart) (gap : Gap)
    (rest : List Char) :
    outsideComments .code (front ++ (gap.chars ++ rest)) =
      front ++ (gap.blanks ++ outsideComments .code rest) := by
  have hfirst := ne_of_isBlank gap.isBlank_first
  rw [outsideComments_append h]
  · rw [chars, List.cons_append, outsideComments_cons hfirst.1, outsideComments_fillers]
    rfl
  · intro _ _ b hb _
    cases hb
    exact hfirst

theorem Filler.isBlank_of_mem_blanks {filler : Filler} {c : Char} (h : c ∈ filler.blanks) :
    isBlank c = true := by
  cases filler with
  | blank c' hc =>
    rw [List.mem_singleton.1 h]
    exact hc
  | blockComment => cases h
  | lineComment =>
    rw [List.mem_singleton.1 h]
    decide

end Text

namespace Token

open Text

-- Blanks in front of a text make no difference to its pieces.
theorem piecesOfChars_blanks {blanks : List Char} (h : ∀ c ∈ blanks, isBlank c = true)
    (rest : List Char) : piecesOfChars (blanks ++ rest) = piecesOfChars rest := by
  induction blanks with
  | nil => rfl
  | cons blank blanks ih =>
    have hempty : piecesOfChars [] = [] := rfl
    rw [List.cons_append, ← List.nil_append (blank :: (blanks ++ rest)),
      piecesOfChars_blank (h blank List.mem_cons_self), hempty, List.nil_append,
      ih fun c hmem => h c (List.mem_cons_of_mem _ hmem)]

-- The blanks of a gap keep the pieces on its two sides apart and are none themselves.
theorem piecesOfChars_gap (front : List Char) (gap : Gap) (rest : List Char) :
    piecesOfChars (front ++ (gap.blanks ++ rest)) = piecesOfChars front ++ piecesOfChars rest := by
  have hblanks : ∀ c ∈ gap.fillers.flatMap Filler.blanks, isBlank c = true := by
    intro c hmem
    obtain ⟨filler, -, hc⟩ := List.mem_flatMap.1 hmem
    exact Filler.isBlank_of_mem_blanks hc
  rw [Gap.blanks, List.cons_append, piecesOfChars_blank gap.isBlank_first,
    piecesOfChars_blanks hblanks]

/-- A text that is always one piece. -/
structure Piece where
  text : String
  isPiece : IsPiece text.toList

end Token

/-- Pieces in order, each with the gap behind it. -/
abbrev Layout := List (Token.Piece × Text.Gap)

namespace Layout

open Text Token

def pieces (layout : Layout) : List Piece :=
  layout.map Prod.fst

def chars (layout : Layout) : List Char :=
  layout.flatMap fun entry => entry.1.text.toList ++ entry.2.chars

def text (layout : Layout) : String :=
  String.ofList layout.chars

theorem chars_cons (piece : Piece) (gap : Gap) (layout : Layout) :
    chars ((piece, gap) :: layout) = piece.text.toList ++ (gap.chars ++ chars layout) := by
  rw [chars, List.flatMap_cons, List.append_assoc]
  rfl

-- Without its comments the text is cut where the gaps are.
theorem piecesOfChars_chars (layout : Layout) :
    piecesOfChars (outsideComments .code layout.chars) =
      layout.pieces.map fun piece => piece.text.toList := by
  induction layout with
  | nil => rfl
  | cons entry layout ih =>
    obtain ⟨piece, gap⟩ := entry
    rw [chars_cons, gap.outsideComments piece.isPiece.isChain, piecesOfChars_gap,
      piece.isPiece.piecesOfChars, ih]
    rfl

/-- The tokens of a layout are its pieces, whatever its gaps are. -/
theorem scan_text (layout : Layout) :
    scan (removeComments layout.text) = layout.pieces.map fun piece => ofText piece.text := by
  rw [scan, Token.pieces, removeComments, text, String.toList_ofList, String.toList_ofList,
    piecesOfChars_chars, List.map_map, List.map_map]
  apply List.map_congr_left
  intro piece _
  exact congrArg ofText String.ofList_toList

end Layout

namespace Listing

/-- All that a listing tells apart from the text itself. -/
def findings (listing : Listing) : List Token × ParseTree × Option Equation.Expr × Code :=
  (listing.tokens, listing.tree, listing.equation, listing.code)

-- Texts with the same tokens lead to the same findings or fail in the same way.
theorem findings_congr {source other : String}
    (h : Token.scan (Text.removeComments source) = Token.scan (Text.removeComments other))
    (equation : Option String) :
    (ofSource? source equation).map findings = (ofSource? other equation).map findings := by
  cases equation with
  | none =>
    rw [ofSource?_none, ofSource?_none, h]
    cases ParseTree.ofTokens? (Token.scan (Text.removeComments other)) with
    | error error => rfl
    | ok tree =>
      dsimp only
      cases Code.ofProgram? tree with
      | error node => rfl
      | ok code => rfl
  | some text =>
    rw [ofSource?_some, ofSource?_some, h]
    cases ParseTree.ofTokens? (Token.scan (Text.removeComments other)) with
    | error error => rfl
    | ok tree =>
      dsimp only
      cases Equation.Expr.ofText? text with
      | error error => rfl
      | ok expr =>
        dsimp only
        cases Code.ofTree? expr.toTree with
        | error node => rfl
        | ok code => rfl

-- What a listing takes over from its text before anything is parsed.
theorem text_of_ofSource? {source : String} {equation : Option String} {listing : Listing}
    (h : ofSource? source equation = .ok listing) :
    listing.cleaned = Text.removeComments source ∧
      listing.tokens = Token.scan (Text.removeComments source) := by
  cases equation with
  | none =>
    rw [ofSource?_none] at h
    split at h
    · cases h
    split at h
    · cases h
    cases h
    dsimp only
    exact ⟨rfl, rfl⟩
  | some text =>
    rw [ofSource?_some] at h
    split at h
    · cases h
    split at h
    · cases h
    split at h
    · cases h
    cases h
    dsimp only
    exact ⟨rfl, rfl⟩

/-- Two ways to lay out the same pieces lead to the same findings, one token for each piece, or fail
in the same way. -/
theorem ofSource?_layout {layout other : Layout} (h : layout.pieces = other.pieces)
    (equation : Option String) :
    (ofSource? layout.text equation).map findings = (ofSource? other.text equation).map findings ∧
      ∀ listing, ofSource? layout.text equation = .ok listing →
        listing.tokens = layout.pieces.map fun piece => Token.ofText piece.text := by
  refine ⟨findings_congr ?_ equation, fun listing hlisting => ?_⟩
  · rw [Layout.scan_text, Layout.scan_text, h]
  · rw [(text_of_ofSource? hlisting).2, Layout.scan_text]

-- Comments that look as if they opened or closed another one, and one that touches the next piece.
theorem ofSource?_layout_commented :
    ∃ layout other : Layout,
      layout.text = "int\t/* y; // */x /***/// = 1;\n/*/*/= \"/\"\n; " ∧
      other.text = "int x = \"/\" ; " ∧ layout.pieces = other.pieces ∧
      (ofSource? layout.text none).map findings = (ofSource? other.text none).map findings ∧
      ∃ listing, ofSource? layout.text none = .ok listing ∧
        listing.tokens = layout.pieces.map fun piece => Token.ofText piece.text := by
  let int : Token.Piece := ⟨"int", by decide +kernel⟩
  let x : Token.Piece := ⟨"x", by decide +kernel⟩
  let equals : Token.Piece := ⟨"=", by decide +kernel⟩
  let slash : Token.Piece := ⟨"\"/\"", by decide +kernel⟩
  let semicolon : Token.Piece := ⟨";", by decide +kernel⟩
  let space : Text.Gap := ⟨' ', by decide, []⟩
  let layout : Layout :=
    [(int, ⟨'\t', by decide, [.blockComment " y; // ".toList (by decide)]⟩),
      (x, ⟨' ', by decide, [.blockComment ['*'] (by decide),
        .lineComment " = 1;".toList (by decide), .blockComment ['/'] (by decide)]⟩),
      (equals, space), (slash, ⟨'\n', by decide, []⟩), (semicolon, space)]
  let other : Layout := [int, x, equals, slash, semicolon].map fun piece => (piece, space)
  obtain ⟨hsame, htokens⟩ := @ofSource?_layout layout other rfl none
  have hok : (ofSource? layout.text none).isOk = true := by
    decide +kernel
  refine ⟨layout, other, by decide +kernel, by decide +kernel, rfl, hsame, ?_⟩
  match hlisting : ofSource? layout.text none, hok with
  | .ok listing, _ => exact ⟨listing, rfl, htokens listing hlisting⟩

end Listing

end ThreeAddress
