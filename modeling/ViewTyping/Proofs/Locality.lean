import ViewTyping.Proofs.CatalogHistory

/-!
# Typing is local

The names that an expression reads (`Expr.tables`) say on which views it waits before it is typed.
They say enough: `infer_local`, an expression has the same type, or is refused for the same reason,
in any two catalogs in which the views of these names agree (`Catalog.SameView`), whatever else the
catalogs hold.

Typing and the collection of names are two recursions over expressions. They meet in
`Expr.columns`: typing asks for the type of these columns only (`typing_congr`), and the table of
each of them is among the names (`mentions_of_mem_columns`). A column in turn asks for the view of
its table's name, and of this for the types of fields only (`Consistent.columnType_eq_of_types`).
-/

set_option autoImplicit false

namespace ViewTyping.Catalog

variable {c c' : Catalog}

/-- Neither catalog has a view of that name, or both have one and its fields have the same types, at
whatever positions. -/
def SameView (c c' : Catalog) (name : String) : Prop :=
  (c.view? name = none ∧ c'.view? name = none) ∨
    ∃ l l', c.view? name = some l ∧ c'.view? name = some l' ∧
      ∀ field, l.type? field = l'.type? field

theorem SameView.types {name : String} (h : c.SameView c' name) :
    (c.view? name).map Layout.type? = (c'.view? name).map Layout.type? := by
  rcases h with ⟨h, h'⟩ | ⟨l, l', h, h', htypes⟩
  · rw [h, h']
  · rw [h, h']
    exact congrArg some (funext htypes)

/-- Typing is the same, warnings included, if the views that are read agree. -/
theorem typing_eq_of_sameView (hc : c.Consistent) (hc' : c'.Consistent) {e : Expr}
    (h : ∀ name ∈ e.tables, c.SameView c' name) : c.typing e = c'.typing e := by
  apply typing_congr
  intro ref href
  have hread : ref.table ∈ e.tables := mem_tables.2 (mentions_of_mem_columns href)
  exact hc.columnType_eq_of_types hc' (h ref.table hread).types

/-- **An expression is typed by the views it reads**: in two catalogs that agree on these views it
has the same type or is refused with the same diagnostic. -/
theorem infer_local (hc : c.Reachable) (hc' : c'.Reachable) {e : Expr}
    (h : ∀ name ∈ e.tables, c.SameView c' name) : c.infer e = c'.infer e :=
  congrArg Logged.result (typing_eq_of_sameView hc.consistent hc'.consistent h)

def podCalls : List Call :=
  [.registerTable ⟨"pods", [⟨"cpu", .long, false⟩, ⟨"host", .string, true⟩]⟩,
    .registerView "loads" [.column ⟨"pods", ⟨"host", .string, true⟩⟩,
      .column ⟨"pods", ⟨"cpu", .long, false⟩⟩]]

def podCatalog : Catalog :=
  ⟨[⟨"pods", .table, [⟨"cpu", 0, .long⟩, ⟨"host", 1, .intVar⟩]⟩,
    ⟨"LOADS", .view, [⟨"HOST", 0, .intVar⟩, ⟨"CPU", 1, .long⟩]⟩]⟩

/-- The view `loads` without the table, behind another view, and with its fields in another
order. -/
def spareCalls : List Call :=
  [.registerView "spare" [.aliased (.literal (.bool true)) "cpu"],
    .registerView "Loads" [.aliased (.literal (.long 4)) "Cpu",
      .aliased (.call .scalarProduct [.literal .null, .literal .null]) "host"]]

def spareCatalog : Catalog :=
  ⟨[⟨"SPARE", .view, [⟨"CPU", 0, .bool⟩]⟩,
    ⟨"LOADS", .view, [⟨"CPU", 0, .long⟩, ⟨"HOST", 1, .intVar⟩]⟩]⟩

/-- The hosts in `LOADS`, as a sub-query over the table, which reads a column of the table in its
predicate. -/
def hostQuery : Expr :=
  .subquery [.unary .minus (.column ⟨"LOADS", ⟨"host", .string, false⟩⟩)]
    [.source "pods", .filter (.column ⟨"pods", ⟨"cpu", .long, false⟩⟩)] none

/-- The sub-query is typed by the view in both catalogs, though only one of them has the table. -/
theorem infer_local_hostQuery :
    podCatalog.Reachable ∧ spareCatalog.Reachable ∧
      (∀ name ∈ hostQuery.tables, podCatalog.SameView spareCatalog name) ∧
      podCatalog.infer hostQuery = .ok .intVar ∧ spareCatalog.infer hostQuery = .ok .intVar := by
  have hpods : podCatalog.Reachable := ⟨podCalls, rfl⟩
  have hspare : spareCatalog.Reachable := ⟨spareCalls, rfl⟩
  have htables : hostQuery.tables = ["pods", "LOADS"] := by decide
  have hsame : ∀ name ∈ hostQuery.tables, podCatalog.SameView spareCatalog name := by
    intro name hname
    rw [htables] at hname
    rcases List.mem_pair.1 hname with rfl | rfl
    · exact .inl (by decide)
    · refine .inr ⟨_, _, rfl, rfl, fun field => ?_⟩
      by_cases hcpu : field = "CPU"
      · rw [hcpu]
        decide
      · by_cases hhost : field = "HOST"
        · rw [hhost]
          decide
        · simp [Layout.type?, Layout.field?, Ne.symm hcpu, Ne.symm hhost]
  have hinfer : podCatalog.infer hostQuery = .ok .intVar := by decide
  exact ⟨hpods, hspare, hsame, hinfer, infer_local hpods hspare hsame ▸ hinfer⟩

end ViewTyping.Catalog
