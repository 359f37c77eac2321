import ThreeAddress.Proofs.Lowerable
import ThreeAddress.Proofs.Partition
import ThreeAddress.Proofs.Reprinting

/-!
# Outlines

The outline of a parse tree tells the tree. Its text falls into lines again, each line into its
level and its label, and a preorder listing with levels leaves no choice of the tree. A label does
not say whether it is a rule or a token, since an identifier may be spelled like a rule. That is
told by the shape: below the root every rule has children, and a token has none.
-/

namespace ThreeAddress

namespace Text

/-! ## Lines -/

/-- No blank in the text. -/
def Unbroken (text : String) : Prop :=
  ∀ c ∈ text.toList, isBlank c = false

/-- Neither character of a line end. -/
def IsInLine (c : Char) : Prop :=
  c ≠ '\n' ∧ c ≠ '\r'

theorem isInLine_of_not_isBlank {c : Char} (h : isBlank c = false) : IsInLine c := by
  constructor
  · intro hc
    rw [hc] at h
    exact absurd h (by decide)
  · intro hc
    rw [hc] at h
    exact absurd h (by decide)

theorem linesOfChars_line {line : List Char} (h : ∀ c ∈ line, IsInLine c) (rest : List Char) :
    linesOfChars (line ++ '\n' :: rest) = line :: linesOfChars rest := by
  induction line with
  | nil => rw [List.nil_append, linesOfChars]
  | cons c line ih =>
    have hc := h c List.mem_cons_self
    have hrest := ih fun d hmem => h d (List.mem_cons_of_mem _ hmem)
    rw [List.cons_append, linesOfChars, hrest, consLine]
    · exact hc.1
    · exact fun _ hreturn => absurd hreturn hc.2

/-- Lines that hold no line end are found again in their text. -/
theorem lines_join {texts : List String} (h : ∀ text ∈ texts, ∀ c ∈ text.toList, IsInLine c) :
    lines (String.join (texts.map fun text => text ++ "\n")) = texts := by
  induction texts with
  | nil => rfl
  | cons text texts ih =>
    have hrest := ih fun other hmem => h other (List.mem_cons_of_mem _ hmem)
    unfold lines at hrest ⊢
    rw [List.map_cons, String.join_cons, String.toList_append, String.toList_append,
      List.append_assoc]
    show (linesOfChars (text.toList ++
      '\n' :: (String.join (texts.map fun text => text ++ "\n")).toList)).map String.ofList = _
    rw [linesOfChars_line (h text List.mem_cons_self), List.map_cons, String.ofList_toList, hrest]

theorem toList_repeated_blanks (count : Nat) :
    (repeated count "  ").toList = List.replicate (2 * count) ' ' := by
  unfold repeated
  induction count with
  | zero => rfl
  | succ count ih =>
    rw [List.replicate_succ, String.join_cons, String.toList_append, ih,
      show 2 * (count + 1) = 2 * count + 1 + 1 by omega, List.replicate_succ, List.replicate_succ]
    rfl

/-- The number of blanks in front of an unbroken text can be read off, and so can the text. -/
theorem indented_inj {count other : Nat} {text word : String} (htext : Unbroken text)
    (hword : Unbroken word) (h : repeated count "  " ++ text = repeated other "  " ++ word) :
    count = other ∧ text = word := by
  have hnone {text : String} (h : Unbroken text) : text.toList.count ' ' = 0 := by
    rw [List.count_eq_zero]
    intro hmem
    exact absurd (h ' ' hmem) (by decide)
  have hchars := congrArg String.toList h
  rw [String.toList_append, String.toList_append, toList_repeated_blanks,
    toList_repeated_blanks] at hchars
  have hcount := congrArg (List.count ' ') hchars
  rw [List.count_append, List.count_append, hnone htext, hnone hword, List.count_replicate_self,
    List.count_replicate_self] at hcount
  obtain rfl : count = other := by omega
  rw [List.append_cancel_left_eq] at hchars
  exact ⟨rfl, String.toList_injective hchars⟩

end Text

namespace Tree

variable {α β : Type}

/-! ## Preorder listings -/

theorem preorder_node (value : α) (children : List (Tree α)) (level : Nat) :
    (node value children).preorder level =
      (level, value) :: children.flatMap fun child => child.preorder (level + 1) := by
  rw [preorder, fold_node, List.flatMap_map]
  rfl

theorem preorder_map (f : α → β) (tree : Tree α) (level : Nat) :
    (tree.map f).preorder level = (tree.preorder level).map fun entry => (entry.1, f entry.2) := by
  induction tree using childInduction generalizing level with
  | node value children ih =>
    rw [map_node, preorder_node, preorder_node, List.map_cons, List.map_flatMap, List.flatMap_map]
    rw [List.flatMap_congr fun child hmem => ih child hmem (level + 1)]

theorem All.of_mem_preorder {condition : α → Prop} {tree : Tree α} (h : tree.All condition)
    {level : Nat} {entry : Nat × α} (hmem : entry ∈ tree.preorder level) : condition entry.2 := by
  induction h generalizing level with
  | node hvalue _ ih =>
    rw [preorder_node, List.mem_cons, List.mem_flatMap] at hmem
    rcases hmem with rfl | ⟨child, hchild, hmem⟩
    · exact hvalue
    · exact ih child hchild hmem

/-- What follows a tree in a listing stands no deeper than the tree's root. -/
def EndsAbove (level : Nat) (rest : List (Nat × α)) : Prop :=
  ∀ entry ∈ rest.head?, entry.1 ≤ level

-- The trees in a list are told apart one by one if each of them can be told.
theorem preorders_append_inj {trees : List (Tree α)} {level : Nat}
    (htrees : ∀ tree ∈ trees, ∀ (other : Tree α) (rest back : List (Nat × α)),
      EndsAbove (level + 1) rest → EndsAbove (level + 1) back →
      tree.preorder (level + 1) ++ rest = other.preorder (level + 1) ++ back →
        tree = other ∧ rest = back)
    (others : List (Tree α)) {rest back : List (Nat × α)} (hrest : EndsAbove level rest)
    (hback : EndsAbove level back)
    (h : trees.flatMap (fun tree => tree.preorder (level + 1)) ++ rest =
      others.flatMap (fun tree => tree.preorder (level + 1)) ++ back) :
    trees = others ∧ rest = back := by
  -- a tree begins one level deeper than what ends above can begin
  have hbegins {rest : List (Nat × α)} (hrest : EndsAbove level rest) {value : α}
      {more : List (Nat × α)} : rest ≠ (level + 1, value) :: more := by
    rintro rfl
    have hle : level + 1 ≤ level := hrest _ rfl
    omega
  have hends (trees : List (Tree α)) {rest : List (Nat × α)} (hrest : EndsAbove level rest) :
      EndsAbove (level + 1)
        (trees.flatMap (fun tree => tree.preorder (level + 1)) ++ rest) := by
    cases trees with
    | nil => exact fun entry hmem => Nat.le_succ_of_le (hrest entry hmem)
    | cons tree trees =>
      obtain ⟨value, children⟩ := tree
      rw [List.flatMap_cons, preorder_node]
      rintro entry ⟨⟩
      exact Nat.le_refl _
  induction trees generalizing others with
  | nil =>
    cases others with
    | nil => exact ⟨rfl, h⟩
    | cons other others =>
      obtain ⟨value, children⟩ := other
      rw [List.flatMap_cons, preorder_node] at h
      exact absurd h (hbegins hrest)
  | cons tree trees ih =>
    cases others with
    | nil =>
      obtain ⟨value, children⟩ := tree
      rw [List.flatMap_cons, preorder_node] at h
      exact absurd h.symm (hbegins hback)
    | cons other others =>
      rw [List.flatMap_cons, List.flatMap_cons, List.append_assoc, List.append_assoc] at h
      have hfirst := htrees tree List.mem_cons_self other _ _ (hends trees hrest)
        (hends others hback) h
      have hmore := ih (fun tree hmem => htrees tree (List.mem_cons_of_mem _ hmem)) others hfirst.2
      exact ⟨by rw [hfirst.1, hmore.1], hmore.2⟩

/-- A tree in a preorder listing can be told, and so can where it ends. -/
theorem preorder_append_inj (tree other : Tree α) {level : Nat} {rest back : List (Nat × α)}
    (hrest : EndsAbove level rest) (hback : EndsAbove level back)
    (h : tree.preorder level ++ rest = other.preorder level ++ back) :
    tree = other ∧ rest = back := by
  induction tree using childInduction generalizing other level rest back with
  | node value children ih =>
    obtain ⟨top, below⟩ := other
    rw [preorder_node, preorder_node, List.cons_append, List.cons_append, List.cons.injEq,
      Prod.mk.injEq] at h
    have hbelow := preorders_append_inj
      (fun child hmem other _ _ hrest hback h => ih child hmem other hrest hback h) below hrest
      hback h.2
    exact ⟨by rw [h.1.2, hbelow.1], hbelow.2⟩

theorem preorder_inj {tree other : Tree α} (level : Nat)
    (h : tree.preorder level = other.preorder level) : tree = other := by
  have hnil : EndsAbove level ([] : List (Nat × α)) := nofun
  exact (preorder_append_inj tree other hnil hnil (by rw [h])).1

end Tree

namespace Rule

theorem ofName?_name (rule : Rule) : ofName? rule.name = some rule := by
  cases rule <;> decide

theorem name_inj {rule other : Rule} (h : rule.name = other.name) : rule = other := by
  have hname := ofName?_name rule
  rw [h, ofName?_name] at hname
  exact (Option.some.inj hname).symm

end Rule

namespace ParseTree

/-! ## Rules and tokens -/

/-- Every rule in the tree has children, and no token has any. -/
inductive Full : ParseTree → Prop where
  | terminal (text : String) : Full (terminal text)
  | rule {rule children} : children ≠ [] → (∀ child ∈ children, Full child) →
      Full (ofRule rule children)

/-- In such trees the labels tell rules and tokens apart. -/
theorem Full.eq_of_map_text {tree other : ParseTree} (h : tree.Full) (hother : other.Full)
    (heq : tree.map Label.text = other.map Label.text) : tree = other := by
  induction h generalizing other with
  | terminal text =>
    cases hother with
    | terminal word =>
      rw [ParseTree.terminal, ParseTree.terminal, Tree.leaf, Tree.leaf, Tree.map_node,
        Tree.map_node, Tree.node.injEq] at heq
      show ParseTree.terminal text = ParseTree.terminal word
      rw [show text = word from heq.1]
    | rule hne _ =>
      rw [ParseTree.terminal, Tree.leaf, ofRule, Tree.map_node, Tree.map_node, Tree.node.injEq,
        List.map_nil, eq_comm (a := []), List.map_eq_nil_iff] at heq
      exact absurd heq.2 hne
  | @rule rule children hne _ ih =>
    cases hother with
    | terminal word =>
      rw [ParseTree.terminal, Tree.leaf, ofRule, Tree.map_node, Tree.map_node, Tree.node.injEq,
        List.map_nil, List.map_eq_nil_iff] at heq
      exact absurd heq.2 hne
    | @rule top below _ hbelow =>
      rw [ofRule, ofRule, Tree.map_node, Tree.map_node, Tree.node.injEq] at heq
      have hchildren := eq_of_map_eq
        (fun child hmem other hother => ih child hmem (hbelow other hother)) heq.2
      rw [hchildren, Rule.name_inj heq.1]

end ParseTree

namespace Ebnf

/-- Whether the form takes a token wherever it is derived. -/
def takesToken : Ebnf → Bool
  | .empty | .many _ => false
  | .seq first second => first.takesToken || second.takesToken
  | .either first second => first.takesToken && second.takesToken
  | _ => true

end Ebnf

namespace Grammar.Derives

open ParseTree

variable {form : Ebnf} {tokens : List Token} {trees : List ParseTree}

theorem ne_nil (h : Derives form tokens trees) (hform : form.takesToken = true) : trees ≠ [] := by
  induction h with
  | empty | nil | cons => cases hform
  | word | ofKind | rule => exact List.cons_ne_nil _ _
  | seq _ _ ihfirst ihsecond =>
    rw [Ebnf.takesToken, Bool.or_eq_true] at hform
    intro hnil
    rw [List.append_eq_nil_iff] at hnil
    exact hform.elim (fun hfirst => ihfirst hfirst hnil.1) (fun hsecond => ihsecond hsecond hnil.2)
  | left _ ih =>
    rw [Ebnf.takesToken, Bool.and_eq_true] at hform
    exact ih hform.1
  | right _ ih =>
    rw [Ebnf.takesToken, Bool.and_eq_true] at hform
    exact ih hform.2

-- Only the root can be without children, and no form has the root inside.
theorem full (h : Derives form tokens trees) (hform : Rule.root ∉ form.rules) :
    ∀ tree ∈ trees, tree.Full := by
  induction h with
  | empty | nil => exact fun _ hmem => absurd hmem List.not_mem_nil
  | word kind text | ofKind kind text =>
    intro tree hmem
    rw [List.mem_singleton.1 hmem]
    exact .terminal text
  | @rule rule _ _ hbody ih =>
    intro tree hmem
    rw [List.mem_singleton.1 hmem]
    have hrule : (production rule).takesToken = true ∧ Rule.root ∉ (production rule).rules := by
      cases rule with
      | root => exact absurd (List.mem_singleton_self _) hform
      | _ => decide
    exact .rule (hbody.ne_nil hrule.1) (ih hrule.2)
  | left _ ih => exact ih fun hmem => hform (List.mem_append_left _ hmem)
  | right _ ih => exact ih fun hmem => hform (List.mem_append_right _ hmem)
  | seq _ _ ihfront ihback =>
    have hfront := ihfront fun hmem => hform (List.mem_append_left _ hmem)
    have hback := ihback fun hmem => hform (List.mem_append_right _ hmem)
    exact fun tree hmem => (List.mem_append.1 hmem).elim (hfront tree) (hback tree)
  | cons _ _ ihfront ihback =>
    exact fun tree hmem => (List.mem_append.1 hmem).elim (ihfront hform tree) (ihback hform tree)

end Grammar.Derives

theorem Token.unbroken_of_mem_scan {text : String} {token : Token} (h : token ∈ Token.scan text) :
    Text.Unbroken token.text := by
  obtain ⟨piece, hpiece, rfl⟩ := List.mem_map.1 h
  obtain ⟨chars, hchars, rfl⟩ := List.mem_map.1 hpiece
  rw [ofText, Text.Unbroken, String.toList_ofList]
  exact ((isPartition_piecesOfChars text.toList).solid chars hchars).2

namespace ParseTree

open Grammar

/-- No label of the tree has a blank. -/
def Unbroken : ParseTree → Prop :=
  Tree.All fun label => Text.Unbroken label.text

theorem unbroken_of_ofTokens? {text : String} {tree : ParseTree}
    (h : ofTokens? (Token.scan text) = .ok tree) : tree.Unbroken := by
  have hderives : Derives (.rule .root) (Token.scan text) [tree] := (ofTokens?_eq_ok_iff.1 h).1
  have hrules (rule : Rule) : Text.Unbroken (Label.rule rule).text := by
    have hname : rule.name.toList.all (fun c => !Text.isBlank c) = true := by
      cases rule <;> decide
    intro c hmem
    simpa using List.all_eq_true.1 hname c hmem
  exact hderives.all_labels hrules (fun token hmem => Token.unbroken_of_mem_scan hmem) tree
    (List.mem_singleton_self tree)

/-- The lines of the outline as a text are the lines of the outline. -/
theorem lines_display {tree : ParseTree} (h : tree.Unbroken) :
    Text.lines tree.display = tree.outline := by
  refine Text.lines_join fun line hline c hmem => ?_
  obtain ⟨entry, hentry, rfl⟩ := List.mem_map.1 hline
  rw [String.toList_append, List.mem_append, Text.toList_repeated_blanks] at hmem
  rcases hmem with hmem | hmem
  · rw [List.eq_of_mem_replicate hmem]
    exact ⟨by decide, by decide⟩
  · exact Text.isInLine_of_not_isBlank (h.of_mem_preorder hentry c hmem)

/-- The outline tells the tree up to what its labels stand for. -/
theorem map_text_eq_of_outline_eq {tree other : ParseTree} (h : tree.Unbroken)
    (hother : other.Unbroken) (heq : tree.outline = other.outline) :
    tree.map Label.text = other.map Label.text := by
  apply Tree.preorder_inj 0
  rw [Tree.preorder_map, Tree.preorder_map]
  refine map_eq_of_map_eq (fun entry hmem entry' hmem' hline => ?_) heq
  have hboth := Text.indented_inj (h.of_mem_preorder hmem) (hother.of_mem_preorder hmem') hline
  rw [hboth.1, hboth.2]

-- A program may be empty, but it has no rule without children inside.
theorem full_of_ofTokens? {tokens : List Token} {tree : ParseTree}
    (h : ofTokens? tokens = .ok tree) :
    ∃ statements, tree = ofRule .root statements ∧ ∀ child ∈ statements, child.Full := by
  obtain ⟨statements, rfl, hderives⟩ := isProgram_iff.1 (ofTokens?_eq_ok_iff.1 h).1
  exact ⟨statements, rfl, hderives.full (by decide)⟩

/-- The outline of a program as a text tells the whole tree, rules and tokens included, whatever
the names in the program are spelled like. -/
theorem eq_of_display_eq {source other : String} {tree tree' : ParseTree}
    (htree : ofTokens? (Token.scan (Text.removeComments source)) = .ok tree)
    (hother : ofTokens? (Token.scan (Text.removeComments other)) = .ok tree')
    (h : tree.display = tree'.display) : tree = tree' := by
  have hunbroken := unbroken_of_ofTokens? htree
  have hunbroken' := unbroken_of_ofTokens? hother
  have houtline : tree.outline = tree'.outline := by
    rw [← lines_display hunbroken, h, lines_display hunbroken']
  have htexts := map_text_eq_of_outline_eq hunbroken hunbroken' houtline
  obtain ⟨statements, rfl, hfull⟩ := full_of_ofTokens? htree
  obtain ⟨statements', rfl, hfull'⟩ := full_of_ofTokens? hother
  rw [ofRule, ofRule, Tree.map_node, Tree.map_node, Tree.node.injEq] at htexts
  rw [eq_of_map_eq (fun child hmem child' hmem' =>
    (hfull child hmem).eq_of_map_text (hfull' child' hmem')) htexts.2]

-- Names that are spelled like rules, in two layouts of one program.
theorem eq_of_display_eq_spelled :
    ∃ tree tree',
      ofTokens? (Token.scan (Text.removeComments "root = (term);")) = .ok tree ∧
      ofTokens? (Token.scan (Text.removeComments "root=/**/( term ) ;// block")) = .ok tree' ∧
      tree.display = tree'.display ∧ tree = tree' := by
  have hok : (ofTokens? (Token.scan (Text.removeComments "root = (term);"))).isOk = true := by
    decide +kernel
  obtain ⟨tree, htree⟩ :
      ∃ tree, ofTokens? (Token.scan (Text.removeComments "root = (term);")) = .ok tree := by
    match ofTokens? _, hok with
    | .ok tree, _ => exact ⟨tree, rfl⟩
  have htokens : Token.scan (Text.removeComments "root=/**/( term ) ;// block") =
      Token.scan (Text.removeComments "root = (term);") := by
    decide +kernel
  have htree' :
      ofTokens? (Token.scan (Text.removeComments "root=/**/( term ) ;// block")) = .ok tree := by
    rw [htokens, htree]
  exact ⟨tree, tree, htree, htree', rfl, eq_of_display_eq htree htree' rfl⟩

end ParseTree

end ThreeAddress
