import ThreeAddress.Lowering
import ThreeAddress.ParseTree

/-!
# Lowering a program

Only assignments and declarators with an initial value give code, in the order in which they stand.
There are no jumps, so a conditional or a loop gives just the code of the statements inside it.
-/

namespace ThreeAddress

namespace Rule

/-- Whether the statements inside the rule's node give code. -/
def holdsStatements : Rule → Bool
  | .root | .statement | .block | .mainStatement | .ifStatement | .whileStatement
  | .forStatement => true
  | _ => false

end Rule

namespace Lowering

/-- A step that adds to the code and may fail; the code added before a failure stays. -/
abbrev Step := Code → Except Malformed Unit × Code

def done : Step :=
  fun code => (.ok (), code)

/-- The second step after the first, unless the first fails. -/
def andThen (first second : Step) : Step :=
  fun code =>
    match first code with
    | (.error node, code) => (.error node, code)
    | (.ok _, code) => second code

def failAt (tree : ParseTree) : Step :=
  fun code => (.error ⟨tree.value.text, tree.children.length⟩, code)

/-- The code of the value, then its copy to the name. -/
def store (name value : ParseTree) : Step :=
  fun code =>
    match code.lower (value.map Label.text) with
    | (.error node, code) => (.error node, code)
    | (.ok source, code) => (.ok (), code.copy name.value.text source)

/-- The initial values in the children of a declaration: each equals sign stands between a name and
a value. -/
def initializers (declaration : ParseTree) : Option ParseTree → List ParseTree → Step
  | _, [] => done
  | before, child :: rest =>
      if child.value = .terminal "=" then
        match before, rest with
        | some name, value :: _ =>
            andThen (store name value) (initializers declaration (some child) rest)
        | _, _ => failAt declaration
      else initializers declaration (some child) rest

mutual

/-- The code of all assignments and initial values in a tree. -/
def statement : ParseTree → Step
  | .node (.terminal _) _ => done
  | .node (.rule rule) children =>
      if rule.holdsStatements then statements children
      else
        match rule, children with
        | .assignment, [name, _, value, _] => store name value
        | .assignment, children => failAt (.ofRule .assignment children)
        | .variableDeclaration, children =>
            initializers (.ofRule .variableDeclaration children) none children
        | _, _ => done

/-- The code of each tree of a list in turn. -/
def statements : List ParseTree → Step
  | [] => done
  | tree :: trees => andThen (statement tree) (statements trees)

end

end Lowering

/-- The code of a program. -/
def Code.ofProgram? (program : ParseTree) : Except Malformed Code :=
  match Lowering.statement program Code.empty with
  | (.error node, _) => .error node
  | (.ok _, code) => .ok code

end ThreeAddress
