import ViewTyping.Catalog.Register
import ViewTyping.DependencyGraph.Order
import ViewTyping.Expr.Tables
import ViewTyping.Program.Basic

/-!
# Checking a program

`Program.check` registers the tables of a program, then its views, each after the views it reads.
The first fault ends the check.
-/

set_option autoImplicit false

namespace ViewTyping

/-- How far a check has come: the catalog and the events so far, and the fault that ended it. -/
structure Run where
  catalog : Catalog := {}
  events : List Event := []
  fault? : Option Diagnostic := none

namespace Run

/-- Goes on with an action on the catalog, unless the run has ended. -/
def step (r : Run) (action : Catalog → Logged Catalog) : Run :=
  match r.fault? with
  | some _ => r
  | none =>
    match (action r.catalog).result with
    | .ok c => { r with catalog := c, events := r.events ++ (action r.catalog).events }
    | .error d =>
      { r with events := r.events ++ (action r.catalog).events, fault? := some d }

/-- The catalog that a run ends with, or the fault that ended it. -/
def result (r : Run) : Except Diagnostic Catalog :=
  match r.fault? with
  | some d => .error d
  | none => .ok r.catalog

end Run

namespace Program

/-- The graph of the given views without their dependencies. A name that is there already is
refused. -/
def addViews (g : DependencyGraph) : List View → Except Diagnostic DependencyGraph
  | [] => .ok g
  | v :: vs =>
    if (g.resolve v.name).isSome then
      .error (.scopeAlreadyRegistered (Name.normalize v.name))
    else addViews (g.addView v.name).2 vs

/-- Records that the view `reader` reads the view of that name, if there is one. -/
def addRead (reader : Nat) (g : DependencyGraph) (name : String) : DependencyGraph :=
  match g.resolve name with
  | some id => (g.addDependency? reader id).getD g
  | none => g

/-- Records the views that the outputs of a view read. -/
def addReads (g : DependencyGraph) (v : View × Nat) : DependencyGraph :=
  v.1.select.foldl (fun g e => e.tables.foldl (addRead v.2) g) g

/-- The views of a program with the views that each of them reads. -/
def graph (p : Program) : Except Diagnostic DependencyGraph :=
  (addViews {} p.views).map fun g => p.views.zipIdx.foldl addReads g

/-- The views of a program in the order in which they are typed. A view that has the name of a
table is refused: it would seem to read itself. -/
def viewOrder (p : Program) (tables : Catalog) : Except Diagnostic (List View) :=
  match p.views.find? fun v => tables.namesTable v.name with
  | some v => .error (.scopeAlreadyRegistered (Name.normalize v.name))
  | none =>
    match p.graph with
    | .error d => .error d
    | .ok g =>
      match g.order with
      | .error cycle => .error (.viewCycle cycle)
      | .ok order => .ok (order.filterMap (p.views[·]?))

/-- Types a view and registers it. -/
def typeView (v : View) (c : Catalog) : Logged Catalog := do
  Logged.emit (.typingView v.name)
  c.registerView v.name v.select

/-- The run that registers the tables. -/
def tableRun (p : Program) : Run :=
  p.tables.foldl (fun r t => r.step (·.registerTable t)) {}

/-- The run of a check. -/
def run (p : Program) : Run :=
  let r := p.tableRun
  match r.fault? with
  | some _ => r
  | none =>
    match p.viewOrder r.catalog with
    | .error d => { r with fault? := some d }
    | .ok views => views.foldl (fun r v => r.step (typeView v)) r

/-- The catalog of a program's tables and views, or the first fault. -/
def check (p : Program) : Except Diagnostic Catalog := p.run.result

end Program

end ViewTyping
