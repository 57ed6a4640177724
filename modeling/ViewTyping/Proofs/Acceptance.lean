import ViewTyping.Proofs.Assignment
import ViewTyping.Proofs.Faults

/-!
# Which programs are accepted

The conditions of a check, stated without it: names are different (`Program.NamesDistinct`), no
view reads itself through others (`Program.Acyclic`), outputs have different names
(`Program.OutputsNamed`), and some assignment solves the program.

* `exists_tableCatalog`, `apart_iff`: the conditions on names, as the check meets them.
* `Checked.exists_solution`: the recorded types solve an accepted program.
* `exists_views_of_solves`: a solution is all that typing the views in order asks for.
* `check_eq_viewCycle`: a cycle is reported by the ordering of the views only.
-/

set_option autoImplicit false

namespace ViewTyping

/-! ## Conditions on names -/

namespace Program

/-- Tables, the columns of each table, and views have different names, and no view has the name of
a table. The case of letters counts for tables and their columns only. -/
structure NamesDistinct (p : Program) : Prop where
  tables : (p.tables.map Table.name).Nodup
  columns : ∀ t ∈ p.tables, (t.columns.map Column.name).Nodup
  apart : ∀ v ∈ p.views, ∀ t ∈ p.tables, Name.normalize v.name ≠ Name.normalize t.name
  views : (p.views.map fun v => Name.normalize v.name).Nodup

/-- Outputs are aliased or columns, and those of one view have different names. -/
structure OutputsNamed (p : Program) : Prop where
  named : ∀ v ∈ p.views, ∀ e ∈ v.select,
    (∃ e' name, e = .aliased e' name) ∨ ∃ ref, e = .column ref
  distinct : ∀ v ∈ p.views, (v.select.filterMap Expr.fieldName?).Nodup

variable {p : Program} {c : Catalog}

theorem exists_tableCatalog : (∃ c, p.tableCatalog = .ok c) ↔
    (p.tables.map Table.name).Nodup ∧ ∀ t ∈ p.tables, (t.columns.map Column.name).Nodup := by
  refine ⟨fun h => ?_, fun h => ?_⟩
  · obtain ⟨c, hc⟩ := h
    obtain ⟨hlayouts, hnames⟩ := tableCatalog_eq_ok.1 hc
    refine ⟨hnames, fun t ht => ?_⟩
    obtain ⟨l, -, hl⟩ := exists_mem_right hlayouts ht
    exact Table.exists_layout_iff.1 ⟨l, hl⟩
  · obtain ⟨hnames, hcolumns⟩ := h
    obtain ⟨tl, htl⟩ := exists_forall₂ fun t ht => Table.exists_layout_iff.2 (hcolumns t ht)
    exact ⟨⟨tl⟩, tableCatalog_eq_ok.2 ⟨htl, hnames⟩⟩

/-- Views are apart from the tables exactly if they are from the layouts of the tables. -/
theorem apart_iff (h : p.tableCatalog = .ok c) : p.Apart c ↔
    ∀ v ∈ p.views, ∀ t ∈ p.tables, Name.normalize v.name ≠ Name.normalize t.name := by
  have hlayouts := (tableCatalog_eq_ok.1 h).1
  refine forall₂_congr fun v _ => Catalog.namesTable_eq_false.trans ⟨fun hv t ht => ?_, ?_⟩
  · obtain ⟨l, hl, htl⟩ := exists_mem_right hlayouts ht
    exact htl.scope ▸ (hv l hl htl.kind).symm
  · intro hv l hl _
    obtain ⟨t, ht, htl⟩ := exists_mem_left hlayouts hl
    exact htl.scope ▸ (hv t ht).symm

/-! ## Solutions -/

/-- An accepted program has a solution. -/
theorem Checked.exists_solution {vs : List View} {tl vl : List Layout} (h : p.Checked vs tl vl) :
    ∃ A : Assignment, A.Solves p := by
  have hrec := h.recorded
  refine ⟨Catalog.assignment ⟨tl ++ vl⟩, (hrec.solves_iff h.ordered).2 ?_⟩
  intro v hv l hlayout f hf
  obtain ⟨hl, hnames⟩ := hrec.of_layout hv hlayout
  have hview : Catalog.view? ⟨tl ++ vl⟩ v.key = some l :=
    (hnames v.key (normalize_normalize v.name).symm).1
  simp [Catalog.assignment, hview, hl.wellFormed.field?_eq hf]

/-- **A solution is all that typing the views asks for**, whatever their order. -/
theorem exists_views_of_solves {vs : List View} (hp : p.Ordered vs) {tl : List Layout}
    (htl : ∀ l ∈ tl, l.kind = .table) (hapart : p.Apart ⟨tl⟩) (houtputs : p.OutputsNamed)
    {A : Assignment} (hA : A.Solves p) :
    ∃ vl, List.Forall₂ (View.HasLayout (Catalog.columnType ⟨tl ++ vl⟩)) vs vl := by
  have hlayout : ∀ v ∈ vs, ∃ l, v.HasLayout (p.columnType A) l := by
    intro v hv
    have hv := hp.perm.mem_iff.1 hv
    refine View.exists_layout_iff.2 ⟨fun e he => ?_, houtputs.distinct v hv, fun e he => ?_⟩
    · exact Expr.fieldName?_isSome.2 (houtputs.named v hv e he)
    · obtain ⟨name, -, ht⟩ := hA v hv e he
      exact ⟨_, ht⟩
  obtain ⟨vl, hvl⟩ := exists_forall₂ hlayout
  -- the layouts hold the assigned types, so they give columns the types that they are built on
  have hrec := recorded_of_ordered hp htl hapart hvl
  have hcolumn : p.columnType A = Catalog.columnType ⟨tl ++ vl⟩ := funext fun ref =>
    (hrec.columnType_eq fun v hv _ => (hrec.agrees_iff hv).2 (hA v hv)).symm
  exact ⟨vl, hcolumn ▸ hvl⟩

/-! ## Accepted and cyclic programs -/

/-- Distinct names are what it takes to come to ordering the views. -/
theorem namesDistinct_iff : p.NamesDistinct ↔
    ∃ c, p.tableCatalog = .ok c ∧ p.Apart c ∧ p.keys.Nodup := by
  refine ⟨fun h => ?_, fun h => ?_⟩
  · obtain ⟨c, hc⟩ := exists_tableCatalog.2 ⟨h.tables, h.columns⟩
    exact ⟨c, hc, (apart_iff hc).2 h.apart, h.views⟩
  · obtain ⟨c, hc, hapart, hnd⟩ := h
    obtain ⟨htables, hcolumns⟩ := exists_tableCatalog.1 ⟨c, hc⟩
    exact ⟨htables, hcolumns, (apart_iff hc).1 hapart, hnd⟩

theorem Checked.conditions {vs : List View} {tl vl : List Layout} (h : p.Checked vs tl vl) :
    p.NamesDistinct ∧ p.Acyclic ∧ p.OutputsNamed := by
  have htables : p.tableCatalog = .ok ⟨tl⟩ := tableCatalog_eq_ok.2 ⟨h.tables, h.names⟩
  have hlayout : ∀ v ∈ p.views, ∃ l, v.HasLayout (Catalog.columnType ⟨tl ++ vl⟩) l := fun v hv =>
    have ⟨l, _, _, hl⟩ := h.recorded.exists_layout hv
    ⟨l, hl⟩
  refine ⟨namesDistinct_iff.2 ⟨_, htables, h.apart, h.ordered.nodup⟩, ?_,
    ⟨fun v hv e he => ?_, fun v hv => ?_⟩⟩
  · exact (exists_viewOrder_iff.1 ⟨vs, h.order⟩).2
  · exact Expr.fieldName?_isSome.1 ((View.exists_layout_iff.1 (hlayout v hv)).1 e he)
  · exact (View.exists_layout_iff.1 (hlayout v hv)).2.1

/-- A cycle is reported by the ordering of the views, and nowhere else. -/
theorem check_eq_viewCycle {cycle : List String} : p.check = .error (.viewCycle cycle) ↔
    ∃ c, p.tableCatalog = .ok c ∧ p.viewOrder c = .error (.viewCycle cycle) := by
  rw [check_eq]
  cases ht : p.tableCatalog with
  | error d =>
    refine ⟨fun h => ?_, fun ⟨_, h, _⟩ => (by cases h)⟩
    cases h
    exact (faults_tableCatalog (R := fun _ => True) _ ht).elim
  | ok c =>
    simp only [Except.bind, Except.ok.injEq, exists_eq_left']
    cases ho : p.viewOrder c with
    | error d => exact ⟨fun h => (by cases h; rfl), fun h => (by cases h; rfl)⟩
    | ok vs =>
      have hviews : Faults (Diagnostic.OfColumns fun _ => True) (addToCatalog c vs) :=
        faults_addToCatalog fun _ _ _ _ _ _ => trivial
      exact ⟨fun h => (hviews _ h).elim, fun h => (by cases h)⟩

/-- **Which programs are accepted**: those with distinct names, no cycle and named outputs that some
assignment of types solves. A cycle is reported if the names are distinct and there is one. -/
theorem check_accepts_iff (p : Program) :
    ((∃ c, p.check = .ok c) ↔
      p.NamesDistinct ∧ p.Acyclic ∧ p.OutputsNamed ∧ ∃ A : Assignment, A.Solves p) ∧
    ((∃ cycle, p.check = .error (.viewCycle cycle)) ↔ p.NamesDistinct ∧ ¬ p.Acyclic) := by
  refine ⟨⟨fun ⟨c, hc⟩ => ?_, fun ⟨hnames, hacyclic, houtputs, A, hA⟩ => ?_⟩,
    ⟨fun ⟨cycle, hcycle⟩ => ?_, fun ⟨hnames, hcyclic⟩ => ?_⟩⟩
  · obtain ⟨vs, tl, vl, h, -⟩ := check_eq_ok.1 hc
    obtain ⟨hnames, hacyclic, houtputs⟩ := h.conditions
    exact ⟨hnames, hacyclic, houtputs, h.exists_solution⟩
  · obtain ⟨c, hc, hclear⟩ := namesDistinct_iff.1 hnames
    obtain ⟨hlayouts, htables⟩ := tableCatalog_eq_ok.1 hc
    obtain ⟨vs, ho⟩ := exists_viewOrder_iff.2 ⟨hclear, hacyclic⟩
    obtain ⟨vl, hvl⟩ := exists_views_of_solves (viewOrder_eq_ok ho).2 (kind_of_tables hlayouts)
      hclear.1 houtputs hA
    exact ⟨_, check_eq_ok.2 ⟨vs, c.layouts, vl, ⟨hlayouts, htables, ho, hvl⟩, rfl⟩⟩
  · obtain ⟨c, hc, ho⟩ := check_eq_viewCycle.1 hcycle
    obtain ⟨hclear, hcyclic⟩ := exists_viewCycle_iff.1 ⟨cycle, ho⟩
    exact ⟨namesDistinct_iff.2 ⟨c, hc, hclear⟩, hcyclic⟩
  · obtain ⟨c, hc, hclear⟩ := namesDistinct_iff.1 hnames
    obtain ⟨cycle, ho⟩ := exists_viewCycle_iff.2 ⟨hclear, hcyclic⟩
    exact ⟨cycle, check_eq_viewCycle.2 ⟨c, hc, ho⟩⟩

end Program

end ViewTyping
