import ViewTyping.Name

/-!
# Dependencies between views

The views of a program with the views that each of them reads. A view is known by its position,
its id, and found by its normalized name.
-/

set_option autoImplicit false

namespace ViewTyping

structure ViewNode where
  /-- The normalized name. -/
  name : String
  /-- The ids of the views that the view reads, each once. -/
  dependencies : List Nat := []
deriving DecidableEq, Repr

/-- The node with one more dependency, unless it is there already. -/
def ViewNode.addDependency (v : ViewNode) (id : Nat) : ViewNode :=
  if id ∈ v.dependencies then v else { v with dependencies := v.dependencies ++ [id] }

structure DependencyGraph where
  nodes : List ViewNode := []
deriving DecidableEq, Repr

namespace DependencyGraph

def size (g : DependencyGraph) : Nat := g.nodes.length

/-- The id of the view of that name. -/
def resolve (g : DependencyGraph) (name : String) : Option Nat :=
  g.nodes.findIdx? fun v => v.name == Name.normalize name

/-- The id of the view of that name, and the graph with that view in it. -/
def addView (g : DependencyGraph) (name : String) : Nat × DependencyGraph :=
  match g.resolve name with
  | some id => (id, g)
  | none => (g.size, ⟨g.nodes ++ [⟨Name.normalize name, []⟩]⟩)

/-- Records that the view `reader` reads `id`, which need not be a view yet. A reader that is no
view is refused. -/
def addDependency? (g : DependencyGraph) (reader id : Nat) : Option DependencyGraph :=
  if reader < g.size then some ⟨g.nodes.modify reader (·.addDependency id)⟩ else none

def name (g : DependencyGraph) (id : Nat) : String :=
  (g.nodes[id]?.map ViewNode.name).getD ""

def dependencies (g : DependencyGraph) (id : Nat) : List Nat :=
  (g.nodes[id]?.map ViewNode.dependencies).getD []

end DependencyGraph

end ViewTyping
