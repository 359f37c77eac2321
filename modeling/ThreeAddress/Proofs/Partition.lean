import Mathlib.Data.List.DropRight
import ThreeAddress.Proofs.Pieces

/-!
# How a text is cut

Cutting loses nothing of a text but its blanks, and where it cuts is told by the neighbours alone:
two characters that touch stay together if both are in words, or if both are joining marks and an
even number of such marks stands unbroken in front of them. Nothing reaches over a blank. No other
list of texts is like this, so these rules say all about the pieces.
-/

namespace ThreeAddress

namespace Text

section Joined

variable {α : Type}

/-- Two neighbours lie in one of the pieces, behind the elements in front of them. -/
def Joined (pieces : List (List α)) (front : List α) (a b : α) : Prop :=
  ∃ before head tail after, pieces = before ++ (head ++ a :: b :: tail) :: after ∧
    before.flatten ++ head = front

variable {pieces others : List (List α)} {piece front back : List α} {a b : α}

theorem joined_head (front tail : List α) (a b : α) (pieces : List (List α)) :
    Joined ((front ++ a :: b :: tail) :: pieces) front a b :=
  ⟨[], front, tail, pieces, rfl, rfl⟩

theorem Joined.exists_mem (h : Joined pieces front a b) :
    ∃ piece ∈ pieces, a ∈ piece ∧ b ∈ piece := by
  obtain ⟨before, head, tail, after, rfl, -⟩ := h
  exact ⟨head ++ a :: b :: tail, by simp, by simp, by simp⟩

-- Whether neighbours behind a piece are joined has nothing to do with the piece.
theorem joined_cons_iff :
    Joined (piece :: pieces) (piece ++ front) a b ↔ Joined pieces front a b := by
  constructor
  · rintro ⟨before, head, tail, after, hpieces, hfront⟩
    cases before with
    | nil =>
      -- the first piece would have to be longer than itself
      obtain ⟨rfl, -⟩ := List.cons.inj hpieces
      have hlength := congrArg List.length hfront
      simp only [List.flatten_nil, List.nil_append, List.length_append, List.length_cons] at hlength
      omega
    | cons first before =>
      obtain ⟨rfl, hmore⟩ := List.cons.inj hpieces
      rw [List.flatten_cons, List.append_assoc, List.append_cancel_left_eq] at hfront
      exact ⟨before, head, tail, after, hmore, hfront⟩
  · rintro ⟨before, head, tail, after, rfl, rfl⟩
    exact ⟨piece :: before, head, tail, after, rfl, by rw [List.flatten_cons, List.append_assoc]⟩

-- The last element of some pieces is not joined to what follows.
theorem not_joined_append (h : pieces.flatten = front ++ [a]) (others : List (List α)) :
    ¬Joined (pieces ++ others) front a b := by
  rintro ⟨before, head, tail, after, hpieces, hfront⟩
  have hall := congrArg List.length h
  have hpart := congrArg List.length hfront
  simp only [List.length_append, List.length_cons, List.length_nil] at hall hpart
  rcases List.append_eq_append_iff.1 hpieces with ⟨more, rfl, -⟩ | ⟨more, rfl, hmore⟩
  · rw [List.flatten_append, List.length_append] at hpart
    omega
  · rw [List.flatten_append, List.length_append] at hall
    cases more with
    | nil =>
      rw [List.flatten_nil, List.length_nil] at hall
      omega
    | cons piece more =>
      obtain ⟨rfl, -⟩ := List.cons.inj hmore
      simp only [List.flatten_cons, List.length_append, List.length_cons] at hall
      omega

-- Neighbours that touch lie in the front part, in the back part, or on both sides of the border.
theorem neighbours_of_append {left right : List α} (h : left ++ right = front ++ a :: b :: back) :
    (∃ more, front = left ++ more ∧ right = more ++ a :: b :: back) ∨
      (left = front ++ [a] ∧ right = b :: back) ∨ ∃ tail, left = front ++ a :: b :: tail := by
  rcases List.append_eq_append_iff.1 h with ⟨more, hfront, hright⟩ | ⟨more, hleft, hmore⟩
  · exact .inl ⟨more, hfront, hright⟩
  · cases more with
    | nil => exact .inl ⟨[], by rw [hleft, List.append_nil, List.append_nil], hmore.symm⟩
    | cons c more =>
      obtain ⟨rfl, hrest⟩ := List.cons.inj hmore
      cases more with
      | nil => exact .inr (.inl ⟨hleft, hrest.symm⟩)
      | cons d tail =>
        obtain ⟨rfl, -⟩ := List.cons.inj hrest
        exact .inr (.inr ⟨tail, hleft⟩)

-- If a first piece goes on in another list, the two lists differ in what is joined at its end.
theorem exists_joined_of_longer (hne : piece ≠ []) (b : α) (tail : List α)
    (pieces others : List (List α)) :
    ∃ front a, piece = front ++ [a] ∧ ¬Joined (piece :: pieces) front a b ∧
      Joined ((piece ++ b :: tail) :: others) front a b := by
  obtain ⟨front, a, rfl⟩ : ∃ front a, piece = front ++ [a] :=
    ⟨_, _, (List.dropLast_append_getLast hne).symm⟩
  have hflatten : [front ++ [a]].flatten = front ++ [a] := List.flatten_singleton
  refine ⟨front, a, rfl, not_joined_append hflatten pieces, ?_⟩
  rw [List.append_assoc, List.singleton_append]
  exact joined_head front tail a b others

/-- Which neighbours are joined tells how a list is cut. -/
theorem eq_of_joined_iff (hpieces : ∀ piece ∈ pieces, piece ≠ [])
    (hothers : ∀ piece ∈ others, piece ≠ []) (hflatten : pieces.flatten = others.flatten)
    (h : ∀ front a b back, pieces.flatten = front ++ a :: b :: back →
      (Joined pieces front a b ↔ Joined others front a b)) : pieces = others := by
  induction pieces generalizing others with
  | nil =>
    cases others with
    | nil => rfl
    | cons other others =>
      rw [List.flatten_cons, List.flatten_nil, eq_comm, List.append_eq_nil_iff] at hflatten
      exact absurd hflatten.1 (hothers other List.mem_cons_self)
  | cons piece pieces ih =>
    have hpiece := hpieces piece List.mem_cons_self
    cases others with
    | nil =>
      rw [List.flatten_cons, List.flatten_nil, List.append_eq_nil_iff] at hflatten
      exact absurd hflatten.1 hpiece
    | cons other others =>
      have hother := hothers other List.mem_cons_self
      rw [List.flatten_cons, List.flatten_cons] at hflatten
      -- neither first piece can be longer than the other
      obtain rfl : piece = other := by
        rcases List.append_eq_append_iff.1 hflatten with ⟨more, rfl, hmore⟩ | ⟨more, rfl, hmore⟩
        · cases more with
          | nil => exact (List.append_nil piece).symm
          | cons b tail =>
            obtain ⟨front, a, rfl, hnot, hjoined⟩ :=
              exists_joined_of_longer hpiece b tail pieces others
            refine absurd ((h front a b (tail ++ others.flatten) ?_).2 hjoined) hnot
            rw [List.flatten_cons, hmore]
            simp
        · cases more with
          | nil => exact List.append_nil other
          | cons b tail =>
            obtain ⟨front, a, rfl, hnot, hjoined⟩ :=
              exists_joined_of_longer hother b tail others pieces
            refine absurd ((h front a b (tail ++ pieces.flatten) ?_).1 hjoined) hnot
            rw [List.flatten_cons]
            simp
      rw [List.append_cancel_left_eq] at hflatten
      rw [ih (fun piece hmem => hpieces piece (List.mem_cons_of_mem _ hmem))
        (fun piece hmem => hothers piece (List.mem_cons_of_mem _ hmem)) hflatten]
      intro front a b back hfront
      have hjoined := h (piece ++ front) a b back
        (by rw [List.flatten_cons, hfront, List.append_assoc])
      rwa [joined_cons_iff, joined_cons_iff] at hjoined

-- Neighbours that a filter leaves have nothing but dropped elements between them in the list.
theorem exists_of_filter {keep : α → Bool} {list : List α}
    (h : list.filter keep = front ++ a :: b :: back) :
    ∃ before gap behind, list = before ++ a :: (gap ++ b :: behind) ∧
      before.filter keep = front ∧ ∀ c ∈ gap, keep c = false := by
  obtain ⟨before, rest, rfl, rfl, hrest⟩ := List.filter_eq_append_iff.1 h
  obtain ⟨skipped, more, rfl, hskipped, -, hmore⟩ := List.filter_eq_cons_iff.1 hrest
  obtain ⟨gap, behind, rfl, hgap, -, -⟩ := List.filter_eq_cons_iff.1 hmore
  refine ⟨before ++ skipped, gap, behind, (List.append_assoc ..).symm, ?_, fun c hmem => ?_⟩
  · rw [List.filter_append, List.filter_eq_nil_iff.2 hskipped, List.append_nil]
  · simpa using hgap c hmem

end Joined

end Text

namespace Token

open Text

/-! ## One piece after the other -/

/-- What is cut off a text that goes on with the given rest. -/
inductive FirstPiece : List Char → List Char → Prop where
  | word {word rest} : word ≠ [] → (∀ c ∈ word, isWordChar c = true) →
      (∀ c ∈ rest.head?, isWordChar c = false) → FirstPiece word rest
  | mark {c rest} : c ∈ punctuation →
      (isJoining c = true → ∀ d ∈ rest.head?, isJoining d = false) → FirstPiece [c] rest
  | pair {a b rest} : isJoining a = true → isJoining b = true → FirstPiece [a, b] rest

/-- How a text is cut, from its beginning on. -/
inductive Cut : List Char → List (List Char) → Prop where
  | nil : Cut [] []
  | blank {c rest pieces} : isBlank c = true → Cut rest pieces → Cut (c :: rest) pieces
  | piece {piece rest pieces} : FirstPiece piece rest → Cut rest pieces →
      Cut (piece ++ rest) (piece :: pieces)

-- Joining marks go off in pairs until at most one is left.
theorem cut_inPairs {run rest : List Char} {pieces : List (List Char)}
    (hrun : ∀ c ∈ run, isJoining c = true) (hnext : ∀ c ∈ rest.head?, isJoining c = false)
    (h : Cut rest pieces) : Cut (run ++ rest) (inPairs run ++ pieces) := by
  fun_induction inPairs run with
  | case1 a b run ih =>
    have hmore : ∀ c ∈ run, isJoining c = true := fun c hmem => hrun c (by simp [hmem])
    exact .piece (.pair (hrun a (by simp)) (hrun b (by simp))) (ih hmore)
  | case2 a =>
    have hmark := mem_punctuation_of_isJoining (hrun a (List.mem_singleton_self a))
    exact .piece (.mark hmark fun _ => hnext) h
  | case3 => exact h

/-- A run that ends in front of an unrelated character is cut into its pieces. -/
theorem cut_piecesOfRun {run rest : List Char} {pieces : List (List Char)} (hne : run ≠ [])
    (hsame : run.IsChain fun a b => sameRun a b = true)
    (hnext : ∀ b ∈ rest.head?, sameRun (run.getLast hne) b = false) (h : Cut rest pieces) :
    Cut (run ++ rest) (piecesOfRun run ++ pieces) := by
  have hlast := List.getLast_mem hne
  fun_cases piecesOfRun run with
  | case1 => exact absurd rfl hne
  | case2 c run hblank =>
    rw [eq_nil_of_run hsame (not_isWordChar_of_isBlank hblank) (not_isJoining_of_isBlank hblank)]
    exact .blank hblank h
  | case3 c run hblank hjoining =>
    have hrun : ∀ mark ∈ c :: run, isJoining mark = true := fun mark hmem =>
      List.contains_iff_mem.2 (mem_joiningMarks_of_run hsame hjoining mark hmem)
    refine cut_inPairs hrun (fun b hb => Bool.eq_false_iff.2 fun hb' => ?_) h
    have hrelated := hnext b hb
    rw [sameRun_iff.2 (.inr ⟨hrun _ hlast, hb'⟩)] at hrelated
    cases hrelated
  | case4 c run hblank hjoining =>
    by_cases hword : isWordChar c = true
    · have hrun := isWordChar_of_run hsame hword
      refine .piece (.word hne hrun fun b hb => Bool.eq_false_iff.2 fun hb' => ?_) h
      have hrelated := hnext b hb
      rw [sameRun_iff.2 (.inl ⟨hrun _ hlast, hb'⟩)] at hrelated
      cases hrelated
    · rw [eq_nil_of_run hsame (Bool.eq_false_iff.2 hword) (Bool.eq_false_iff.2 hjoining)]
      exact .piece (.mark (mem_punctuation_of_not_isWordChar hblank hword)
        fun hc => absurd hc hjoining) h

theorem cut_flatten {runs : List (List Char)} (hne : ∀ run ∈ runs, run ≠ [])
    (hsame : ∀ run ∈ runs, run.IsChain fun a b => sameRun a b = true)
    (hnext : runs.IsChain fun a b => ∃ ha hb, sameRun (a.getLast ha) (b.head hb) = false) :
    Cut runs.flatten (runs.flatMap piecesOfRun) := by
  induction runs with
  | nil => exact .nil
  | cons run runs ih =>
    obtain ⟨hborder, hrest⟩ := List.isChain_cons.1 hnext
    have hmore := ih (fun run hmem => hne run (List.mem_cons_of_mem _ hmem))
      (fun run hmem => hsame run (List.mem_cons_of_mem _ hmem)) hrest
    rw [List.flatten_cons, List.flatMap_cons]
    refine cut_piecesOfRun (hne run List.mem_cons_self) (hsame run List.mem_cons_self) ?_ hmore
    intro b hb
    cases runs with
    | nil => cases hb
    | cons next runs =>
      obtain ⟨_, hnextNe, hunrelated⟩ := hborder next rfl
      rw [List.flatten_cons, List.head?_append_of_ne_nil _ hnextNe,
        List.head?_eq_some_head hnextNe] at hb
      obtain rfl : next.head hnextNe = b := Option.some.inj hb
      exact hunrelated

theorem cut_piecesOfChars (chars : List Char) : Cut chars (piecesOfChars chars) := by
  have hne : ∀ run ∈ chars.splitBy sameRun, run ≠ [] := fun _ => List.ne_nil_of_mem_splitBy
  have h := cut_flatten hne (fun _ => List.isChain_of_mem_splitBy)
    (List.isChain_getLast_head_splitBy sameRun chars)
  rwa [List.flatten_splitBy] at h

/-! ## What stays together -/

/-- How many joining marks stand unbroken at the end of a text. -/
def trailingMarks (text : List Char) : Nat :=
  (text.rtakeWhile isJoining).length

/-- Whether two characters that touch stay together, the first of them behind the given text. -/
def StayTogether (front : List Char) (a b : Char) : Prop :=
  (isWordChar a = true ∧ isWordChar b = true) ∨
    (isJoining a = true ∧ isJoining b = true ∧ trailingMarks front % 2 = 0)

-- A mark in front counts only if the text has nothing but marks.
theorem trailingMarks_cons (c : Char) (text : List Char) :
    trailingMarks (c :: text) =
      trailingMarks text + if (c :: text).all isJoining = true then 1 else 0 := by
  unfold trailingMarks
  induction text using List.reverseRecOn with
  | nil =>
    cases hc : isJoining c with
    | true => simp [List.rtakeWhile, hc]
    | false => simp [List.rtakeWhile, hc]
  | append_singleton text last ih =>
    rw [← List.cons_append, List.rtakeWhile_concat, List.rtakeWhile_concat, List.all_append]
    by_cases hlast : isJoining last = true
    · have hall : [last].all isJoining = true := List.all_eq_true.2 (by simpa using hlast)
      rw [if_pos hlast, if_pos hlast, List.length_append, List.length_append, ih, hall,
        Bool.and_true]
      omega
    · have hall : [last].all isJoining = false := by simpa using hlast
      rw [if_neg hlast, if_neg hlast, hall, Bool.and_false]
      rfl

theorem trailingMarks_cons_of_mem {c d : Char} {text : List Char} (hmem : d ∈ c :: text)
    (hd : isJoining d = false) : trailingMarks (c :: text) = trailingMarks text := by
  rw [trailingMarks_cons, if_neg]
  · rfl
  · intro hall
    rw [List.all_eq_true.1 hall d hmem] at hd
    cases hd

theorem trailingMarks_append {word : List Char} (h : ∀ c ∈ word, isJoining c = false)
    (text : List Char) : trailingMarks (word ++ text) = trailingMarks text := by
  induction word with
  | nil => rfl
  | cons c word ih =>
    rw [List.cons_append, trailingMarks_cons_of_mem List.mem_cons_self (h c List.mem_cons_self),
      ih fun d hmem => h d (List.mem_cons_of_mem _ hmem)]

-- A pair of joining marks more or less makes no difference.
theorem trailingMarks_pair {a b : Char} (ha : isJoining a = true) (hb : isJoining b = true)
    (text : List Char) : trailingMarks (a :: b :: text) % 2 = trailingMarks text % 2 := by
  have hall : (b :: text).all isJoining = text.all isJoining := by
    rw [List.all_cons, hb, Bool.true_and]
  rw [trailingMarks_cons, trailingMarks_cons, List.all_cons (l := b :: text), ha, Bool.true_and,
    hall]
  split <;> omega

theorem stayTogether_congr {front other : List Char}
    (h : trailingMarks front % 2 = trailingMarks other % 2) (a b : Char) :
    StayTogether front a b ↔ StayTogether other a b := by
  rw [StayTogether, h]
  exact Iff.rfl

theorem not_isBlank_of_isWordChar {c : Char} (h : isWordChar c = true) : isBlank c = false := by
  cases hblank : isBlank c with
  | false => rfl
  | true =>
    rw [not_isWordChar_of_isBlank hblank] at h
    cases h

theorem not_isBlank_of_isJoining {c : Char} (h : isJoining c = true) : isBlank c = false :=
  not_isBlank_of_mem_punctuation (mem_punctuation_of_isJoining h)

theorem not_isWordChar_of_mem_punctuation {c : Char} (h : c ∈ punctuation) :
    isWordChar c = false := by
  rw [isWordChar, List.contains_iff_mem.2 h, Bool.not_true, Bool.and_false]

namespace FirstPiece

variable {piece rest : List Char}

theorem solid (h : FirstPiece piece rest) : piece ≠ [] ∧ ∀ c ∈ piece, isBlank c = false := by
  cases h with
  | word hne hword _ => exact ⟨hne, fun c hmem => not_isBlank_of_isWordChar (hword c hmem)⟩
  | mark hmark _ =>
    refine ⟨List.cons_ne_nil _ _, fun c hmem => ?_⟩
    rw [List.mem_singleton.1 hmem]
    exact not_isBlank_of_mem_punctuation hmark
  | pair ha hb =>
    refine ⟨List.cons_ne_nil _ _, List.forall_mem_cons.2
      ⟨not_isBlank_of_isJoining ha, fun c hmem => ?_⟩⟩
    rw [List.mem_singleton.1 hmem]
    exact not_isBlank_of_isJoining hb

-- Neighbours in the piece stay together.
theorem stayTogether {front tail : List Char} {a b : Char}
    (h : FirstPiece (front ++ a :: b :: tail) rest) : StayTogether front a b := by
  generalize hpiece : front ++ a :: b :: tail = piece at h
  cases h with
  | word hne hword _ =>
    subst hpiece
    exact .inl ⟨hword a (by simp), hword b (by simp)⟩
  | mark hmark _ =>
    have hlength := congrArg List.length hpiece
    simp only [List.length_append, List.length_cons, List.length_nil] at hlength
    omega
  | pair ha hb =>
    have hlength := congrArg List.length hpiece
    simp only [List.length_append, List.length_cons, List.length_nil] at hlength
    obtain rfl : front = [] := List.length_eq_zero_iff.1 (by omega)
    obtain ⟨rfl, hrest⟩ := List.cons.inj hpiece
    obtain ⟨rfl, -⟩ := List.cons.inj hrest
    exact .inr ⟨ha, hb, rfl⟩

-- The last character of the piece does not stay together with the next one.
theorem not_stayTogether {front back : List Char} {a b : Char}
    (h : FirstPiece (front ++ [a]) (b :: back)) : ¬StayTogether front a b := by
  generalize hpiece : front ++ [a] = piece at h
  cases h with
  | word hne hword hnext =>
    subst hpiece
    have ha : isWordChar a = true := hword a (by simp)
    rw [StayTogether, hnext b rfl, not_isJoining_of_isWordChar ha]
    simp
  | @mark c _ hmark hnext =>
    obtain ⟨rfl, hlast⟩ : front = [] ∧ [a] = [c] := List.append_inj' hpiece rfl
    obtain rfl : a = c := List.singleton_inj.1 hlast
    rw [StayTogether, not_isWordChar_of_mem_punctuation hmark]
    rintro (⟨hword, -⟩ | ⟨ha, hb, -⟩)
    · cases hword
    · rw [hnext ha b rfl] at hb
      cases hb
  | @pair x y _ hx hy =>
    obtain ⟨rfl, hlast⟩ : front = [x] ∧ [a] = [y] := List.append_inj' hpiece rfl
    obtain rfl : a = y := List.singleton_inj.1 hlast
    have hone : trailingMarks [x] = 1 := by
      rw [trailingMarks_cons, List.all_cons, hx]
      rfl
    rw [StayTogether, not_isWordChar_of_mem_punctuation (mem_punctuation_of_isJoining hy), hone]
    simp

-- Nothing is said of neighbours behind the piece by the piece.
theorem stayTogether_append_iff {more back : List Char} {a b : Char}
    (h : FirstPiece piece (more ++ a :: b :: back)) :
    StayTogether (piece ++ more) a b ↔ StayTogether more a b := by
  generalize hrest : more ++ a :: b :: back = rest at h
  cases h with
  | word _ hword _ =>
    have hmarks : ∀ c ∈ piece, isJoining c = false := fun c hmem =>
      not_isJoining_of_isWordChar (hword c hmem)
    exact stayTogether_congr (by rw [trailingMarks_append hmarks]) a b
  | @mark c _ _ hnext =>
    subst hrest
    by_cases hc : isJoining c = true
    · -- what stands behind a joining mark without a partner is none
      have hnone := hnext hc
      cases more with
      | nil =>
        rw [StayTogether, StayTogether, hnone a rfl]
        simp
      | cons d more =>
        have hd : d ∈ c :: d :: more := by simp
        exact stayTogether_congr (by
          rw [List.singleton_append, trailingMarks_cons_of_mem hd (hnone d rfl)]) a b
    · have hmark : trailingMarks (c :: more) = trailingMarks more :=
        trailingMarks_cons_of_mem List.mem_cons_self (Bool.eq_false_iff.2 hc)
      exact stayTogether_congr (by rw [List.singleton_append, hmark]) a b
  | pair hx hy => exact stayTogether_congr (trailingMarks_pair hx hy more) a b

end FirstPiece

/-! ## The rules of cutting -/

/-- The text without its blanks. -/
def withoutBlanks (text : List Char) : List Char :=
  text.filter fun c => !isBlank c

theorem withoutBlanks_append (front back : List Char) :
    withoutBlanks (front ++ back) = withoutBlanks front ++ withoutBlanks back :=
  List.filter_append front back

theorem withoutBlanks_of_solid {piece : List Char} (h : ∀ c ∈ piece, isBlank c = false) :
    withoutBlanks piece = piece :=
  List.filter_eq_self.2 fun c hmem => by rw [h c hmem, Bool.not_false]

theorem withoutBlanks_cons {c : Char} (h : isBlank c = true) (text : List Char) :
    withoutBlanks (c :: text) = withoutBlanks text :=
  List.filter_cons_of_neg (by simpa using h)

/-- A list of texts that has all of the text but its blanks, is cut between neighbours that do not
stay together and nowhere else, and has nothing that reaches over a blank. -/
structure IsPartition (text : List Char) (pieces : List (List Char)) : Prop where
  solid : ∀ piece ∈ pieces, piece ≠ [] ∧ ∀ c ∈ piece, isBlank c = false
  flatten : pieces.flatten = withoutBlanks text
  touching : ∀ front a b back, text = front ++ a :: b :: back →
    (Joined pieces (withoutBlanks front) a b ↔ StayTogether front a b)
  parted : ∀ front a gap b back, text = front ++ a :: (gap ++ b :: back) → gap ≠ [] →
    (∀ c ∈ gap, isBlank c = true) → ¬Joined pieces (withoutBlanks front) a b

namespace Cut

variable {text : List Char} {pieces : List (List Char)}

theorem solid (h : Cut text pieces) :
    ∀ piece ∈ pieces, piece ≠ [] ∧ ∀ c ∈ piece, isBlank c = false := by
  induction h with
  | nil => exact fun _ hmem => absurd hmem List.not_mem_nil
  | blank _ _ ih => exact ih
  | piece hfirst _ ih => exact List.forall_mem_cons.2 ⟨hfirst.solid, ih⟩

theorem flatten (h : Cut text pieces) : pieces.flatten = withoutBlanks text := by
  induction h with
  | nil => rfl
  | blank hblank _ ih => rw [ih, withoutBlanks_cons hblank]
  | piece hfirst _ ih =>
    rw [List.flatten_cons, ih, withoutBlanks_append, withoutBlanks_of_solid hfirst.solid.2]

theorem not_joined_of_isBlank (h : Cut text pieces) {a : Char} (ha : isBlank a = true)
    (front : List Char) (b : Char) : ¬Joined pieces front a b := by
  intro hjoined
  obtain ⟨piece, hmem, hin, -⟩ := hjoined.exists_mem
  rw [(h.solid piece hmem).2 a hin] at ha
  cases ha

/-- The scan keeps neighbours together as the rule says. -/
theorem joined_iff (h : Cut text pieces) {front back : List Char} {a b : Char}
    (htext : text = front ++ a :: b :: back) :
    Joined pieces (withoutBlanks front) a b ↔ StayTogether front a b := by
  induction h generalizing front with
  | nil => simp at htext
  | @blank c rest pieces hblank hcut ih =>
    cases front with
    | nil =>
      obtain ⟨rfl, -⟩ := List.cons.inj htext
      refine iff_of_false (hcut.not_joined_of_isBlank hblank _ _) ?_
      rw [StayTogether, not_isWordChar_of_isBlank hblank, not_isJoining_of_isBlank hblank]
      simp
    | cons d front =>
      obtain ⟨rfl, hrest⟩ := List.cons.inj htext
      rw [withoutBlanks_cons hblank, ih hrest]
      refine stayTogether_congr ?_ a b
      rw [trailingMarks_cons_of_mem List.mem_cons_self (not_isJoining_of_isBlank hblank)]
  | @piece piece rest pieces hfirst hcut ih =>
    rcases neighbours_of_append htext with ⟨more, rfl, hrest⟩ | ⟨rfl, rfl⟩ | ⟨tail, rfl⟩
    · rw [withoutBlanks_append, withoutBlanks_of_solid hfirst.solid.2, joined_cons_iff, ih hrest]
      rw [hrest] at hfirst
      exact hfirst.stayTogether_append_iff.symm
    · refine iff_of_false ?_ hfirst.not_stayTogether
      have hsolid : ∀ c ∈ front, isBlank c = false := fun c hmem =>
        hfirst.solid.2 c (List.mem_append_left _ hmem)
      have hflatten : [front ++ [a]].flatten = withoutBlanks front ++ [a] := by
        rw [List.flatten_singleton, withoutBlanks_of_solid hsolid]
      exact not_joined_append hflatten pieces
    · have hsolid : ∀ c ∈ front, isBlank c = false := fun c hmem =>
        hfirst.solid.2 c (List.mem_append_left _ hmem)
      refine iff_of_true ?_ hfirst.stayTogether
      rw [withoutBlanks_of_solid hsolid]
      exact joined_head front tail a b pieces

end Cut

/-- What a text is cut into obeys the rules of cutting. -/
theorem isPartition_piecesOfChars (text : List Char) : IsPartition text (piecesOfChars text) := by
  have hcut := cut_piecesOfChars text
  refine ⟨hcut.solid, hcut.flatten, fun _ _ _ _ => hcut.joined_iff, ?_⟩
  intro front a gap b back htext hgap hblank
  cases gap with
  | nil => exact absurd rfl hgap
  | cons c gap =>
    by_cases ha : isBlank a = true
    · exact hcut.not_joined_of_isBlank ha _ b
    · -- the pieces up to the blank end with the first of the two characters
      have hlast : [a].filter (fun c => !isBlank c) = [a] := by simp [ha]
      have hfront : (piecesOfChars (front ++ [a])).flatten = withoutBlanks front ++ [a] := by
        rw [(cut_piecesOfChars _).flatten, withoutBlanks_append]
        exact congrArg _ hlast
      have hblanked : text = (front ++ [a]) ++ c :: (gap ++ b :: back) := by
        rw [htext, List.append_assoc]
        rfl
      rw [hblanked, piecesOfChars_blank (hblank c List.mem_cons_self)]
      exact not_joined_append hfront _

-- Between neighbours that are left without the blanks there is nothing but blanks in the text.
theorem exists_of_withoutBlanks {text front back : List Char} {a b : Char}
    (h : withoutBlanks text = front ++ a :: b :: back) :
    ∃ before gap behind, text = before ++ a :: (gap ++ b :: behind) ∧
      withoutBlanks before = front ∧ ∀ c ∈ gap, isBlank c = true := by
  obtain ⟨before, gap, behind, htext, hbefore, hgap⟩ := exists_of_filter h
  exact ⟨before, gap, behind, htext, hbefore, fun c hmem => by simpa using hgap c hmem⟩

/-- The rules of cutting leave no choice. -/
theorem IsPartition.unique {text : List Char} {pieces others : List (List Char)}
    (h : IsPartition text pieces) (hothers : IsPartition text others) : pieces = others := by
  refine eq_of_joined_iff (fun piece hmem => (h.solid piece hmem).1)
    (fun piece hmem => (hothers.solid piece hmem).1) (h.flatten.trans hothers.flatten.symm) ?_
  intro front a b back hfront
  rw [h.flatten] at hfront
  obtain ⟨before, gap, behind, htext, rfl, hgap⟩ := exists_of_withoutBlanks hfront
  cases gap with
  | nil => exact (h.touching _ _ _ _ htext).trans (hothers.touching _ _ _ _ htext).symm
  | cons c gap =>
    have hne : c :: gap ≠ [] := List.cons_ne_nil c gap
    exact iff_of_false (h.parted _ _ _ _ _ htext hne hgap) (hothers.parted _ _ _ _ _ htext hne hgap)

/-- The pieces of a text are the one list that loses nothing but the blanks and is cut exactly where
neighbours do not stay together. -/
theorem eq_pieces_iff {text : String} {list : List String} :
    list = pieces text ↔ IsPartition text.toList (list.map String.toList) := by
  have hpieces : (pieces text).map String.toList = piecesOfChars text.toList := by
    rw [pieces, List.map_map]
    exact (List.map_congr_left fun _ _ => String.toList_ofList).trans (List.map_id _)
  constructor
  · rintro rfl
    rw [hpieces]
    exact isPartition_piecesOfChars text.toList
  · intro h
    have hlist := h.unique (isPartition_piecesOfChars text.toList)
    rw [← hpieces] at hlist
    exact List.map_injective_iff.2 (fun _ _ => String.toList_injective) hlist

-- An odd run of joining marks leaves the last one alone, and a word ends at a blank.
example : pieces "a b<<=-;" = ["a", "b", "<<", "=", "-", ";"] := by
  decide +kernel

end Token

end ThreeAddress
