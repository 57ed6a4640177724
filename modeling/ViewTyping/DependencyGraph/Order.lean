import ViewTyping.DependencyGraph.Basic

/-!
# Ordering views

`DependencyGraph.sort` lists the views so that each comes after the views it reads. Of the views
that may come next the one with the least name does, so the order depends on names alone. Where
views read each other no order exists, and a cycle is reported.
-/

set_option autoImplicit false

namespace ViewTyping

namespace DependencyGraph

/-- Whether one view comes before another by name. -/
def before (g : DependencyGraph) (i j : Nat) : Bool :=
  g.name i < g.name j || (g.name i == g.name j && i < j)

/-- The view with the least name among those listed. -/
def least (g : DependencyGraph) : List Nat → Option Nat
  | [] => none
  | i :: is =>
    match g.least is with
    | none => some i
    | some j => if g.before i j then some i else some j

/-- The views that read `id`, as often as they list it. -/
def readers (g : DependencyGraph) (id : Nat) : List Nat :=
  (List.range g.size).flatMap fun i => List.replicate ((g.dependencies i).count id) i

end DependencyGraph

/-- The state of sorting: for each view the number of its dependencies that are not placed, the
views that may be placed next, and those placed, in order. -/
structure Sorter where
  waiting : List Nat
  ready : List Nat
  placed : List Nat
deriving DecidableEq, Repr

namespace Sorter

def start (g : DependencyGraph) : Sorter where
  waiting := g.nodes.map fun v => v.dependencies.length
  ready := (List.range g.size).filter fun i => (g.dependencies i).isEmpty
  placed := []

/-- One dependency of `id` has been placed. -/
def release (s : Sorter) (id : Nat) : Sorter :=
  match s.waiting[id]? with
  | some (n + 1) =>
    { s with
      waiting := s.waiting.set id n
      ready := if n = 0 then id :: s.ready else s.ready }
  | _ => s

/-- Places the view with the least name that is ready, if there is one. -/
def step (g : DependencyGraph) (s : Sorter) : Sorter :=
  match g.least s.ready with
  | none => s
  | some id =>
    (g.readers id).foldl release
      { s with ready := s.ready.erase id, placed := s.placed ++ [id] }

/-- The state when no view is ready any more. Each step places a view, so there are no more steps
than views. -/
def finish (g : DependencyGraph) : Sorter := Nat.repeat (step g) g.size (start g)

/-- Whether a dependency of the view is not placed. -/
def isStuck (s : Sorter) (id : Nat) : Bool := 0 < s.waiting.getD id 0

end Sorter

/-- Why views cannot be ordered. -/
inductive SortFault where
  /-- A dependency is no view. -/
  | missingView (id : Nat)
  /-- The views of a cycle, by name; the first is repeated at the end. -/
  | cycle (path : List String)
deriving DecidableEq, Repr

namespace DependencyGraph

/-- Walks from `id` along `next` until a view is met again, and gives the walk from its first
visit on. `path` holds the views met so far, and `steps` bounds the walk. -/
def walk (next : Nat → Option Nat) : (steps : Nat) → (path : List Nat) → (id : Nat) → List Nat
  | 0, path, _ => path
  | steps + 1, path, id =>
    if id ∈ path then path.dropWhile (· != id) ++ [id]
    else
      match next id with
      | none => path ++ [id]
      | some id' => walk next steps (path ++ [id]) id'

/-- A cycle among stuck views: the walk from the one with the least name, always to the first
dependency that is stuck. -/
def findCycle (g : DependencyGraph) (s : Sorter) : List Nat :=
  match g.least ((List.range g.size).filter s.isStuck) with
  | none => []
  | some id => walk (fun i => (g.dependencies i).find? s.isStuck) (g.size + 1) [] id

/-- The views in an order in which each comes after the views it reads, or a cycle, by name, for a
graph whose dependencies are views. -/
def order (g : DependencyGraph) : Except (List String) (List Nat) :=
  let s := Sorter.finish g
  if s.placed.length = g.size then .ok s.placed
  else .error ((g.findCycle s).map g.name)

/-- A dependency that is no view, if there is one. -/
def missingView? (g : DependencyGraph) : Option Nat :=
  (g.nodes.flatMap ViewNode.dependencies).find? (g.size ≤ ·)

/-- The views in an order in which each comes after the views it reads. -/
def sort (g : DependencyGraph) : Except SortFault (List Nat) :=
  match g.missingView? with
  | some id => .error (.missingView id)
  | none => g.order.mapError .cycle

end DependencyGraph

end ViewTyping
