/-!
# The four panes by name

The panes stand in a circle, in which the focus moves. `PerPane` holds one thing for each of them;
what it holds is worked out once, when it is made.
-/

namespace ThreeAddress.Viewer

/-- The four panes. -/
inductive PaneName where
  | source
  | tokens
  | tree
  | code
  deriving DecidableEq, Repr

namespace PaneName

def next : PaneName → PaneName
  | .source => .tokens
  | .tokens => .tree
  | .tree => .code
  | .code => .source

def previous : PaneName → PaneName
  | .source => .code
  | .tokens => .source
  | .tree => .tokens
  | .code => .tree

def description : PaneName → String
  | .source => "source"
  | .tokens => "tokens"
  | .tree => "parse tree"
  | .code => "three-address code"

end PaneName

/-- One thing for each pane. -/
structure PerPane (α : Type) where
  source : α
  tokens : α
  tree : α
  code : α
  deriving DecidableEq, Repr

namespace PerPane

variable {α : Type}

def get (all : PerPane α) : PaneName → α
  | .source => all.source
  | .tokens => all.tokens
  | .tree => all.tree
  | .code => all.code

def ofFn (f : PaneName → α) : PerPane α :=
  ⟨f .source, f .tokens, f .tree, f .code⟩

/-- Changes what is held for one pane. -/
def modify (all : PerPane α) (name : PaneName) (change : α → α) : PerPane α :=
  ofFn fun other => if other = name then change (all.get other) else all.get other

@[simp]
theorem get_ofFn (f : PaneName → α) (name : PaneName) : (ofFn f).get name = f name := by
  cases name <;> rfl

end PerPane

end ThreeAddress.Viewer
