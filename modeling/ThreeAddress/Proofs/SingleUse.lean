import ThreeAddress.Proofs.Destinations
import ThreeAddress.Proofs.Lowerable

/-!
# Temporaries are read once

Each operator reads the names that its operands have just got and writes a temporary of its own, and
each copy of a program reads the one name that is left. So while an assignment is lowered, the
temporaries that wait to be read are the names of the operands held so far, with no copy behind any
of them, and after the copy none waits. This makes every temporary of a program the target of one
operator and the operand of one later instruction, which is the next copy or stands before it.
-/

namespace ThreeAddress

open Equation Grammar

namespace Instruction

/-- The names that are read. -/
def operands : Instruction → List String
  | .copy _ source => [source]
  | .binary _ left _ right => [left, right]

end Instruction

namespace Code

/-- The names read, as often as they are read. -/
def operands (code : Code) : List String :=
  code.instructions.toList.flatMap Instruction.operands

theorem operands_copy (code : Code) (target source : String) :
    (code.copy target source).operands = code.operands ++ [source] := by
  rw [operands, copy, Array.toList_push, List.flatMap_append]
  rfl

theorem operands_join (code : Code) (op : Operator) (left right : String) :
    (code.join op left right).operands = code.operands ++ [left, right] := by
  rw [operands, join, Array.toList_push, List.flatMap_append]
  rfl

end Code

/-! ## From the target to the operand -/

/-- An instruction writes the name, and there is no copy behind it. -/
def Held (instructions : List Instruction) (name : String) : Prop :=
  ∃ front definition between, instructions = front ++ definition :: between ∧
    definition.target = name ∧ ∀ instruction ∈ between, instruction.isBinary = true

/-- An instruction reads the name, with no copy between it and an earlier one that writes the
name. -/
def Spent (instructions : List Instruction) (name : String) : Prop :=
  ∃ front use back, instructions = front ++ use :: back ∧ name ∈ use.operands ∧ Held front name

theorem held_target (instructions : List Instruction) (last : Instruction) :
    Held (instructions ++ [last]) last.target :=
  ⟨instructions, last, [], rfl, rfl, fun _ hmem => absurd hmem List.not_mem_nil⟩

section Lifetimes

variable {instructions : List Instruction} {name : String} {last : Instruction}

theorem Held.append (h : Held instructions name) (hlast : last.isBinary = true) :
    Held (instructions ++ [last]) name := by
  obtain ⟨front, definition, between, rfl, htarget, hbetween⟩ := h
  refine ⟨front, definition, between ++ [last], by simp, htarget, fun instruction hmem => ?_⟩
  rcases List.mem_append.1 hmem with hmem | hmem
  · exact hbetween instruction hmem
  · rw [List.mem_singleton.1 hmem]
    exact hlast

theorem Held.spend (h : Held instructions name) (hlast : name ∈ last.operands) :
    Spent (instructions ++ [last]) name :=
  ⟨instructions, last, [], rfl, hlast, h⟩

theorem Spent.append (h : Spent instructions name) (last : Instruction) :
    Spent (instructions ++ [last]) name := by
  obtain ⟨front, use, back, rfl, huse, hheld⟩ := h
  exact ⟨front, use, back ++ [last], by simp, huse, hheld⟩

end Lifetimes

/-! ## The names that wait -/

namespace Code

/-- Code in which the names that wait to be read are those given: together with the operands read so
far they account for every temporary once, and no copy has been made since one of them was
written. -/
structure Linear (code : Code) (pending : List String) : Prop where
  counts : ∀ name, isTemporaryName name = true →
    code.operands.count name + pending.count name = code.temporaryNames.count name
  copies : ∀ name ∈ code.copiedNames, isTemporaryName name = false
  lifetimes : ∀ name ∈ code.temporaryNames, Spent code.instructions.toList name ∨
    name ∈ pending ∧ Held code.instructions.toList name

theorem linear_empty : empty.Linear [] where
  counts _ _ := rfl
  copies _ hmem := absurd hmem List.not_mem_nil
  lifetimes _ hmem := absurd hmem List.not_mem_nil

namespace Linear

variable {code : Code} {pending : List String}

theorem operand {text : String} (h : code.Linear pending) (htext : isTemporaryName text = false) :
    code.Linear (pending ++ [text]) where
  counts name hname := by
    have hne : name ≠ text := by
      rintro rfl
      rw [hname] at htext
      cases htext
    rw [List.count_append, List.count_singleton, beq_eq_false_iff_ne.2 hne.symm]
    exact h.counts name hname
  copies := h.copies
  lifetimes name hmem := (h.lifetimes name hmem).imp_right fun hheld =>
    ⟨List.mem_append_left _ hheld.1, hheld.2⟩

-- An operator reads the last two names and puts its temporary in their place.
theorem join {left right : String} (h : code.Linear (pending ++ [left] ++ [right]))
    (op : Operator) :
    (code.join op left right).Linear (pending ++ [temporary code.temporaries]) where
  counts name hname := by
    have hcount := h.counts name hname
    have hpair : [left, right].count name = [left].count name + [right].count name := by
      rw [← List.count_append]
      rfl
    rw [operands_join, temporaryNames_join]
    simp only [List.count_append] at hcount ⊢
    omega
  copies := by
    rw [copiedNames_join]
    exact h.copies
  lifetimes name hmem := by
    have hlist : (code.join op left right).instructions.toList = code.instructions.toList ++
        [.binary (temporary code.temporaries) left op right] :=
      Array.toList_push
    rw [temporaryNames_join, List.mem_append, List.mem_singleton] at hmem
    rw [hlist, List.mem_append]
    rcases hmem with hmem | rfl
    · rcases h.lifetimes name hmem with hspent | ⟨hpending, hheld⟩
      · exact .inl (hspent.append _)
      · rw [List.append_assoc, List.mem_append] at hpending
        rcases hpending with hpending | hread
        · exact .inr ⟨.inl hpending, hheld.append rfl⟩
        · exact .inl (hheld.spend hread)
    · exact .inr ⟨.inr (List.mem_singleton_self _), held_target _ _⟩

-- A copy reads the only name that waits.
theorem copy {target source : String} (h : code.Linear [source])
    (htarget : isTemporaryName target = false) : (code.copy target source).Linear [] where
  counts name hname := by
    rw [operands_copy, temporaryNames_copy, List.count_append]
    exact h.counts name hname
  copies name hmem := by
    rw [copiedNames_copy, List.mem_append, List.mem_singleton] at hmem
    rcases hmem with hmem | rfl
    · exact h.copies name hmem
    · exact htarget
  lifetimes name hmem := by
    have hlist : (code.copy target source).instructions.toList =
        code.instructions.toList ++ [.copy target source] :=
      Array.toList_push
    rw [temporaryNames_copy] at hmem
    rw [hlist]
    rcases h.lifetimes name hmem with hspent | ⟨hpending, hheld⟩
    · exact .inl (hspent.append _)
    · exact .inl (hheld.spend hpending)

end Linear

/-- Computing an expression leaves its name waiting behind those that wait already. -/
theorem linear_compute {expr : Expr} (hpure : expr.isPure = true) {code : Code}
    {pending : List String} (h : code.Linear pending) :
    (code.compute expr).2.Linear (pending ++ [(code.compute expr).1]) := by
  induction expr generalizing code pending with
  | operand text =>
    have htext : isTemporaryName text = false := by simpa [Expr.isPure] using hpure
    exact h.operand htext
  | binary op left right ihleft ihright =>
    rw [Expr.isPure, Bool.and_eq_true, Bool.and_eq_true] at hpure
    obtain ⟨⟨harith, hleft⟩, hright⟩ := hpure
    have hlast := ihright hright (ihleft hleft h)
    rw [compute]
    dsimp only
    rw [apply_of_isArithmetic harith]
    exact hlast.join op

end Code

/-! ## What steps leave waiting -/

namespace ParseTree

/-- Lowering the tree leaves its name waiting behind those that wait already. -/
def Yields (tree : ParseTree) : Prop :=
  ∀ (code : Code) (pending : List String), code.Linear pending →
    ∃ name later, code.lower (tree.map Label.text) = (.ok name, later) ∧
      later.Linear (pending ++ [name])

theorem yields_terminal {text : String} (h : isTemporaryName text = false) :
    (terminal text).Yields :=
  fun code _ hcode => ⟨text, code, code.lower_leaf text, hcode.operand h⟩

theorem yields_of_expr? {tree : ParseTree} {expr : Expr} (h : tree.expr? = some expr)
    (hnames : tree.AvoidsTemporaries) : tree.Yields :=
  fun code _ hcode =>
    ⟨_, _, lower_of_expr? h code, Code.linear_compute (isPure_of_expr? h hnames) hcode⟩

theorem AvoidsTemporaries.text {tree : ParseTree} (h : tree.AvoidsTemporaries) :
    isTemporaryName tree.value.text = false := by
  obtain ⟨label, children⟩ := tree
  exact h.value

end ParseTree

namespace Lowering

open Code

theorem store_linear {name value : ParseTree} (hname : name.AvoidsTemporaries)
    (hvalue : value.Yields) : Step.Keeps (store name value) (·.Linear []) := by
  intro code hcode
  obtain ⟨source, later, hlower, hlater⟩ := hvalue code [] hcode
  rw [store, hlower]
  exact hlater.copy hname.text

theorem initializers_linear (declaration : ParseTree) {before : Option ParseTree}
    {children : List ParseTree} (hbefore : ∀ name ∈ before, name.AvoidsTemporaries)
    (hnames : ∀ child ∈ children, child.AvoidsTemporaries)
    (hchildren : ∀ child ∈ children, child.Yields) :
    Step.Keeps (initializers declaration before children) (·.Linear []) := by
  fun_induction initializers declaration before children with
  | case1 => exact done_keeps
  | case2 mark hmark name value rest ih =>
    have hstore := store_linear (hbefore name rfl) (hchildren value (by simp))
    refine hstore.andThen (ih ?_ ?_ ?_)
    · intro child hchild
      cases hchild
      exact hnames mark List.mem_cons_self
    · exact fun child hmem => hnames child (List.mem_cons_of_mem _ hmem)
    · exact fun child hmem => hchildren child (List.mem_cons_of_mem _ hmem)
  | case3 => exact failAt_keeps declaration
  | case4 before child rest hchild ih =>
    refine ih ?_ ?_ ?_
    · intro other hother
      cases hother
      exact hnames child List.mem_cons_self
    · exact fun other hmem => hnames other (List.mem_cons_of_mem _ hmem)
    · exact fun other hmem => hchildren other (List.mem_cons_of_mem _ hmem)

end Lowering

namespace Grammar.Derives

open Lowering

variable {form : Ebnf} {tokens : List Token} {trees : List ParseTree}
  (hnames : ∀ token ∈ tokens, isTemporaryName token.text = false)
include hnames

-- Where a form refers to expressions only, each tree of its derivations has a name to wait.
theorem yields (h : Derives form tokens trees) (hform : form.rules ⊆ [.expression]) :
    ∀ tree ∈ trees, tree.Yields := by
  intro tree hmem
  have havoids := h.avoidsTemporaries hnames tree hmem
  rcases h.terminal_or_expr? hform tree hmem with ⟨text, rfl⟩ | ⟨expr, hexpr⟩
  · exact ParseTree.yields_terminal havoids.text
  · exact ParseTree.yields_of_expr? hexpr havoids

theorem linear_assignment (h : Derives (production .assignment) tokens trees) :
    Step.Keeps (Lowering.statement (ParseTree.ofRule .assignment trees)) (·.Linear []) := by
  have havoids := h.avoidsTemporaries hnames
  have hyields := h.yields hnames (by decide)
  obtain ⟨name, part, value, -, -, rfl⟩ := h.of_assignment
  exact store_linear (havoids _ List.mem_cons_self) (hyields value (by simp))

theorem linear_declaration (h : Derives (production .variableDeclaration) tokens trees) :
    Step.Keeps (Lowering.statement (ParseTree.ofRule .variableDeclaration trees)) (·.Linear []) :=
  initializers_linear _ (by simp) (h.avoidsTemporaries hnames)
    (h.yields hnames (by decide))

/-- No statement leaves a name waiting. -/
theorem linear_statement (h : Derives form tokens trees) :
    ∀ tree ∈ trees, Step.Keeps (Lowering.statement tree) (·.Linear []) :=
  h.statement_induction (P := (Step.Keeps · (·.Linear []))) done_keeps .andThen
    (fun hbody hnames => hbody.linear_assignment hnames)
    (fun hbody hnames => hbody.linear_declaration hnames) hnames

end Grammar.Derives

/-! ## The temporaries of a program -/

namespace Code

-- Once no name waits, each temporary is written once and read once.
theorem Linear.once {code : Code} (h : code.Linear []) (hnumbered : code.Numbered) {name : String}
    (hname : isTemporaryName name = true) (hmem : name ∈ code.targets ∨ name ∈ code.operands) :
    code.targets.count name = 1 ∧ code.operands.count name = 1 ∧
      Spent code.instructions.toList name := by
  have hcounts : code.operands.count name = code.temporaryNames.count name := h.counts name hname
  have hcopied : code.copiedNames.count name = 0 := by
    refine List.count_eq_zero.2 fun hcopied => ?_
    rw [h.copies name hcopied] at hname
    cases hname
  have htargets := code.count_targets name
  have htemporary : name ∈ code.temporaryNames := by
    rw [← List.count_pos_iff]
    rcases hmem with hmem | hmem
    · have := List.count_pos_iff.2 hmem
      omega
    · have := List.count_pos_iff.2 hmem
      omega
  have hone : code.temporaryNames.count name = 1 := by
    rw [hnumbered.nodup.count, if_pos htemporary]
  refine ⟨by omega, by omega, ?_⟩
  rcases h.lifetimes name htemporary with hspent | ⟨hpending, -⟩
  · exact hspent
  · cases hpending

end Code

-- Only identifiers can have the name of a temporary.
theorem Token.not_isTemporaryName {token : Token} (hscanned : token.IsScanned)
    (h : token.kind = .identifier → isTemporaryName token.text = false) :
    isTemporaryName token.text = false := by
  by_cases htemporary : isTemporaryName token.text = true
  · exact h (Token.kind_of_isTemporaryName hscanned htemporary)
  · exact Bool.eq_false_iff.2 htemporary

namespace Listing

/-- Where no identifier of a program has the name of a temporary, each temporary in its code is the
target of one instruction and an operand of one instruction, once. That one stands behind the one
that writes it, with no copy between the two. -/
theorem temporaries_used_once {source : String} {listing : Listing}
    (h : ofSource? source none = .ok listing)
    (hnames : ∀ token ∈ listing.tokens, token.kind = .identifier →
      isTemporaryName token.text = false) :
    ∀ name, isTemporaryName name = true →
      name ∈ listing.code.targets ∨ name ∈ listing.code.operands →
        listing.code.targets.count name = 1 ∧ listing.code.operands.count name = 1 ∧
          Spent listing.code.instructions.toList name := by
  obtain ⟨htokens, htree, hcode⟩ := parts_of_ofSource? h
  have hderives : Derives (.rule .root) listing.tokens [listing.tree] :=
    (ofTokens?_eq_ok_iff.1 htree).1
  have hall : ∀ token ∈ listing.tokens, isTemporaryName token.text = false := by
    intro token hmem
    refine Token.not_isTemporaryName ?_ (hnames token hmem)
    rw [htokens] at hmem
    exact Token.isScanned_of_mem_scan hmem
  have hnumbered : listing.code.Numbered :=
    Code.lasting_numbered.ofProgram? Code.numbered_empty hcode
  have hlinear : listing.code.Linear [] :=
    Code.of_keeps (hderives.linear_statement hall _ (List.mem_singleton_self _)) Code.linear_empty
      hcode
  exact fun name hname => hlinear.once hnumbered hname

theorem temporaries_used_once_products :
    ∃ listing, ofSource? "int x = (a + b) * (c - 2), y = x;" none = .ok listing ∧
      listing.code.lines =
        ["t0 = a + b", "t1 = c - 2", "t2 = t0 * t1", "x = t2", "y = x"] ∧
      ∀ name ∈ ["t0", "t1", "t2"],
        listing.code.targets.count name = 1 ∧ listing.code.operands.count name = 1 ∧
          Spent listing.code.instructions.toList name := by
  have hcode : (ofSource? "int x = (a + b) * (c - 2), y = x;" none).toOption.map
      (fun listing => (listing.code.lines, listing.code.targets)) =
        some (["t0 = a + b", "t1 = c - 2", "t2 = t0 * t1", "x = t2", "y = x"],
          ["t0", "t1", "t2", "x", "y"]) := by
    decide +kernel
  match hlisting : ofSource? "int x = (a + b) * (c - 2), y = x;" none with
  | .error error =>
    rw [hlisting] at hcode
    cases hcode
  | .ok listing =>
    rw [hlisting] at hcode
    obtain ⟨hlines, htargets⟩ := Prod.mk.inj (Option.some.inj hcode)
    have hnames : ∀ token ∈ listing.tokens, token.kind = .identifier →
        isTemporaryName token.text = false := by
      rw [(parts_of_ofSource? hlisting).1]
      decide +kernel
    have honce := temporaries_used_once hlisting hnames
    refine ⟨listing, rfl, hlines, fun name hmem => honce name ?_ (.inl ?_)⟩
    · revert name
      decide +kernel
    · rw [htargets]
      revert name
      decide +kernel

end Listing

end ThreeAddress
