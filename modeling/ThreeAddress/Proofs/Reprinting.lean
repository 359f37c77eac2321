import ThreeAddress.Proofs.Layout
import ThreeAddress.Proofs.ProgramMeaning

/-!
# Reprinting a program

No token is lost in a parse tree, and none is moved or doubled: its terminals are the texts of the
tokens in order. Written down with blanks between them they are cut into the same tokens again, as
each of them is a piece, so a program can be put together again from its tree alone.
-/

namespace ThreeAddress

namespace ParseTree

/-- The texts of the terminals from left to right. -/
def terminals : ParseTree → List String :=
  Tree.fold fun label below =>
    match label with
    | .rule _ => below.flatten
    | .terminal text => text :: below.flatten

theorem terminals_terminal (text : String) : terminals (terminal text) = [text] :=
  rfl

theorem terminals_ofRule (rule : Rule) (trees : List ParseTree) :
    terminals (ofRule rule trees) = trees.flatMap terminals := by
  rw [terminals, ofRule, Tree.fold_node]
  rfl

end ParseTree

namespace Grammar

open ParseTree

/-- A derivation makes one terminal of each token and keeps their order. -/
theorem Derives.terminals {form : Ebnf} {tokens : List Token} {trees : List ParseTree}
    (h : Derives form tokens trees) : trees.flatMap terminals = tokens.map Token.text := by
  induction h with
  | empty | nil => rfl
  | word kind text | ofKind kind text =>
    rw [List.flatMap_singleton, terminals_terminal, List.map_singleton]
  | rule _ ih => rw [List.flatMap_singleton, terminals_ofRule, ih]
  | left _ ih | right _ ih => exact ih
  | seq _ _ ihfront ihback | cons _ _ ihfront ihback =>
    rw [List.flatMap_append, List.map_append, ihfront, ihback]

theorem terminals_of_ofTokens? {tokens : List Token} {tree : ParseTree}
    (h : ParseTree.ofTokens? tokens = .ok tree) : tree.terminals = tokens.map Token.text := by
  have hderives : Derives (.rule .root) tokens [tree] := (ofTokens?_eq_ok_iff.1 h).1
  rw [← hderives.terminals, List.flatMap_singleton]

end Grammar

namespace Token

/-- Tokens of a text are found again in their texts with blanks between them. -/
theorem scan_reprint (source : String) :
    scan (Text.removeComments (" ".intercalate
      ((scan (Text.removeComments source)).map Token.text))) =
        scan (Text.removeComments source) := by
  have hpiece : ∀ token ∈ scan (Text.removeComments source), scan token.text = [token] := by
    intro token hmem
    obtain ⟨hpiece, htoken⟩ := isPiece_of_mem_scan hmem
    rw [scan_of_isPiece hpiece, ← htoken]
  have hcomments : ∀ text ∈ (scan (Text.removeComments source)).map Token.text,
      text.toList.IsChain Text.Apart := by
    intro text hmem
    obtain ⟨token, htoken, rfl⟩ := List.mem_map.1 hmem
    exact (isPiece_of_mem_scan htoken).1.isChain
  rw [Text.removeComments_intercalate hcomments, scan_intercalate, List.flatMap_map,
    List.flatMap_congr hpiece]
  exact List.flatMap_singleton' _

end Token

namespace Listing

/-- The terminals of a program's tree are the texts of its tokens, and written down with blanks
between them they have the same tokens, the same tree and the same code. -/
theorem ofSource?_reprint {source : String} {listing : Listing}
    (h : ofSource? source none = .ok listing) :
    listing.tree.terminals = listing.tokens.map Token.text ∧
      ∃ reprint, ofSource? (" ".intercalate listing.tree.terminals) none = .ok reprint ∧
        reprint.tokens = listing.tokens ∧ reprint.tree = listing.tree ∧
        reprint.code = listing.code := by
  obtain ⟨htokens, htree, -⟩ := parts_of_ofSource? h
  have hterminals := Grammar.terminals_of_ofTokens? htree
  have hscan : Token.scan (Text.removeComments (" ".intercalate listing.tree.terminals)) =
      Token.scan (Text.removeComments source) := by
    rw [hterminals, htokens]
    exact Token.scan_reprint source
  have hsame := findings_congr hscan none
  rw [h] at hsame
  refine ⟨hterminals, ?_⟩
  match hreprint : ofSource? (" ".intercalate listing.tree.terminals) none with
  | .error error =>
    rw [hreprint] at hsame
    cases hsame
  | .ok reprint =>
    rw [hreprint] at hsame
    obtain ⟨htokens, hrest⟩ := Prod.mk.inj (Except.ok.inj hsame)
    obtain ⟨htree, hrest⟩ := Prod.mk.inj hrest
    exact ⟨reprint, rfl, htokens, htree, (Prod.mk.inj hrest).2⟩

theorem ofSource?_reprint_commented :
    ∃ listing, ofSource? "int main()\x7by=/**/(a / 2) * b;cout<<y;// z\n\x7d" none = .ok listing ∧
      listing.tree.terminals = listing.tokens.map Token.text ∧
      ∃ reprint, ofSource? (" ".intercalate listing.tree.terminals) none = .ok reprint ∧
        reprint.tokens = listing.tokens ∧ reprint.tree = listing.tree ∧
        reprint.code = listing.code := by
  have hok : (ofSource? "int main()\x7by=/**/(a / 2) * b;cout<<y;// z\n\x7d" none).isOk = true := by
    decide +kernel
  match hlisting : ofSource? _ _, hok with
  | .ok listing, _ => exact ⟨listing, rfl, ofSource?_reprint hlisting⟩

end Listing

end ThreeAddress
