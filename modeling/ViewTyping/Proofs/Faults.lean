import ViewTyping.Proofs.CheckRun

/-!
# Faults of a check

`Faults P x` says that whatever fault `x` has satisfies `P`. Typing and registering report no cycle
and no unknown scope, and they report an unknown field only of a column that they read, by its name
as written (`Diagnostic.OfColumns`).

* `faults_typing`: typing adds no such fault to those of its columns.
* `faults_tableCatalog`, `faults_addToCatalog`: the faults of registering tables and views.
* `faults_viewOrder`: ordering the views reports names that are taken, and cycles.
* `faults_check`: an unknown field is that of a column of some output.
-/

set_option autoImplicit false

namespace ViewTyping

/-- Every fault of the result satisfies `P`. -/
def Faults {α : Type} (P : Diagnostic → Prop) (x : Except Diagnostic α) : Prop :=
  ∀ d, x = .error d → P d

namespace Faults

variable {α β : Type} {P Q : Diagnostic → Prop}

theorem ok (a : α) : Faults P (.ok a) := fun _ h => by cases h

theorem error {d : Diagnostic} (h : P d) : Faults P (.error d : Except Diagnostic α) :=
  fun _ hd => by
    cases hd
    exact h

theorem imp {x : Except Diagnostic α} (hPQ : ∀ d, P d → Q d) (hx : Faults P x) : Faults Q x :=
  fun d hd => hPQ d (hx d hd)

theorem bind {x : Except Diagnostic α} {f : α → Except Diagnostic β} (hx : Faults P x)
    (hf : ∀ a, Faults P (f a)) : Faults P (x.bind f) := by
  cases x with
  | error d => exact .error (hx d rfl)
  | ok a => exact hf a

theorem map {x : Except Diagnostic α} (f : α → β) (hx : Faults P x) : Faults P (x.map f) := by
  cases x with
  | error d => exact .error (hx d rfl)
  | ok a => exact .ok (f a)

theorem foldlM {f : β → α → Except Diagnostic β} : ∀ (xs : List α),
    (∀ b, ∀ x ∈ xs, Faults P (f b x)) → ∀ b, Faults P (xs.foldlM f b)
  | [], _, b => .ok b
  | x :: xs, hf, b => by
    rw [List.foldlM_cons]
    exact (hf b x (.head _)).bind fun b' => foldlM xs (fun b y hy => hf b y (.tail _ hy)) b'

theorem logged_bind {x : Logged α} {f : α → Logged β} (hx : Faults P x.result)
    (hf : ∀ a, Faults P (f a).result) : Faults P (x >>= f).result := by
  rw [Logged.result_bind]
  exact hx.bind hf

end Faults

/-- What can be wrong where the columns in `refs` are read: there is no cycle and no unknown scope,
and an unknown field is that of a column, as written. -/
def Diagnostic.OfColumns (refs : ColumnRef → Prop) : Diagnostic → Prop
  | unknownField scope field => ∃ ref, refs ref ∧
      Name.normalize ref.table = Name.normalize scope ∧ ref.column.name = field
  | unknownScope _ | viewCycle _ => False
  | _ => True

/-! ## Typing -/

section
variable {R : ColumnRef → Prop}

theorem faults_literal (value : Literal) : Faults (Diagnostic.OfColumns R) value.type := by
  cases value with
  | string | int | bool | long => exact .ok _
  | float | null => exact .error trivial

/-- **Typing adds no unknown field, no unknown scope and no cycle** to the faults of columns. -/
theorem faults_typing {column : ColumnRef → Except Diagnostic ValueType} {e : Expr}
    (h : ∀ ref ∈ e.columns, Faults (Diagnostic.OfColumns R) (column ref)) :
    Faults (Diagnostic.OfColumns R) (e.typing column).result := by
  induction e using Expr.typing.induct with
  | case1 ref => rw [Expr.typing]; exact h ref (by simp [Expr.columns])
  | case2 value => rw [Expr.typing]; exact faults_literal value
  | case3 op arg ih => rw [Expr.typing]; exact (ih h).logged_bind fun _ => .ok _
  | case4 op left right ihl ihr =>
    simp only [Expr.columns, List.mem_append] at h
    rw [Expr.typing]
    refine (ihl fun ref hr => h ref (.inl hr)).logged_bind fun _ => ?_
    exact (ihr fun ref hr => h ref (.inr hr)).logged_bind fun _ => .ok _
  | case5 function arg ih =>
    simp only [Expr.columns, columnsOfExprs, List.append_nil] at h
    rw [Expr.typing]
    refine (ih h).logged_bind fun t => ?_
    cases function.aggregateType? t with
    | some t' => exact .ok t'
    | none => exact .error trivial
  | case6 function args hne t ht =>
    rw [Expr.typing, ht]
    · exact .ok t
    · exact hne
  | case7 function args hne hnone =>
    rw [Expr.typing, hnone]
    · exact .error trivial
    · exact hne
  | case8 t arg ih => rw [Expr.typing]; exact (ih h).logged_bind fun _ => .ok _
  | case9 e qualifiers groupBy ih =>
    simp only [Expr.columns, columnsOfExprs, List.append_nil, List.mem_append] at h
    rw [Expr.typing]
    refine (ih fun ref hr => h ref (.inr hr)).logged_bind fun _ => ?_
    exact Faults.logged_bind (.ok _) fun _ => .ok _
  | case10 select qualifiers groupBy hne =>
    rw [Expr.typing]
    · exact .error trivial
    · exact hne
  | case11 e name ih => rw [Expr.typing]; exact ih h

/-- The scope of a view is found, under a name that differs in case at most. -/
theorem layout_of_isView {c : Catalog} {scope : String} (h : c.isView scope = true) :
    ∃ l, c.layout scope = .ok l ∧ Name.normalize scope = Name.normalize l.scope := by
  obtain ⟨l, hl⟩ := Option.isSome_iff_exists.1 h
  unfold Catalog.layout
  cases ht : c.table? scope with
  | some t =>
    have hs := List.find?_some ht
    simp only [Bool.and_eq_true, beq_iff_eq] at hs
    exact ⟨t, rfl, by rw [hs.2]⟩
  | none =>
    rw [hl]
    exact ⟨l, rfl, by rw [(Catalog.view?_eq_some hl).2.2, normalize_normalize]⟩

theorem faults_columnType (c : Catalog) {ref : ColumnRef} (href : R ref) :
    Faults (Diagnostic.OfColumns R) (c.columnType ref) := by
  unfold Catalog.columnType
  split
  · exact .ok _
  split
  · rename_i hview
    obtain ⟨l, hl, hs⟩ := layout_of_isView hview
    refine Faults.map Field.type ?_
    unfold Catalog.field
    simp only [hl]
    split
    · exact .ok _
    · exact .error ⟨ref, href, hs, rfl⟩
  · exact .ok _

/-! ## Registering -/

theorem faults_addField {field : Except Diagnostic (String × ValueType)}
    (h : Faults (Diagnostic.OfColumns R) field) (l : Layout) :
    Faults (Diagnostic.OfColumns R) (l.addField field) := by
  refine h.bind fun f => ?_
  cases l.push? f.1 f.2 with
  | some l' => exact .ok l'
  | none => exact .error trivial

theorem faults_outputField (c : Catalog) (view : String) {e : Expr}
    (h : ∀ ref ∈ e.columns, R ref) :
    Faults (Diagnostic.OfColumns R) (e.outputField c.columnType view) := by
  refine Faults.bind ?_ fun name => (faults_typing fun ref hr => ?_).map _
  · unfold Expr.outputName
    cases e.alias? with
    | some name => exact .ok _
    | none =>
      cases e.column? with
      | some ref => exact .ok _
      | none => exact .error trivial
  · exact faults_columnType c (h ref hr)

theorem faults_tableLayout (c : Catalog) (t : Table) :
    Faults (Diagnostic.OfColumns R) (c.tableLayout t).result := by
  rw [result_tableLayout]
  split
  · exact .error trivial
  · exact .foldlM _ (fun l column _ => faults_addField (.ok (column.name, .ofColumn column)) l) _

theorem faults_viewLayout (c : Catalog) {v : View} (h : ∀ e ∈ v.select, ∀ ref ∈ e.columns, R ref) :
    Faults (Diagnostic.OfColumns R) (c.viewLayout v.name v.select).result := by
  rw [result_viewLayout]
  split
  · exact .error trivial
  · rw [result_foldlM_addOutput, List.foldlM_map]
    exact .foldlM _ (fun l e he => faults_addField (faults_outputField c v.key (h e he)) l) _

end

/-! ## Checking -/

namespace Program

variable {p : Program} {c : Catalog}

theorem faults_tableCatalog {R : ColumnRef → Prop} :
    Faults (Diagnostic.OfColumns R) p.tableCatalog :=
  .foldlM _ (fun c t _ => (faults_tableLayout c t).map _) _

theorem faults_addToCatalog {R : ColumnRef → Prop} {vs : List View}
    (h : ∀ v ∈ vs, ∀ e ∈ v.select, ∀ ref ∈ e.columns, R ref) :
    Faults (Diagnostic.OfColumns R) (addToCatalog c vs) :=
  .foldlM _ (fun c v hv => (faults_viewLayout c (h v hv)).map _) _

theorem faults_viewOrder :
    Faults (fun d => (∃ s, d = .scopeAlreadyRegistered s) ∨ ∃ cycle, d = .viewCycle cycle)
      (p.viewOrder c) := by
  by_cases hclear : p.Apart c ∧ p.keys.Nodup
  · obtain ⟨g, hgraph, -⟩ := graph_ok hclear.2
    rw [viewOrder_of_apart hclear.1, hgraph, Except.bind]
    cases g.order with
    | error cycle => exact .error (.inr ⟨cycle, rfl⟩)
    | ok ids => exact .ok _
  · obtain ⟨s, hs⟩ := viewOrder_clash hclear
    rw [hs]
    exact .error (.inl ⟨s, rfl⟩)

/-- A check reports a cycle, or what can be wrong with the columns that the outputs read. -/
theorem faults_check :
    Faults (fun d => (∃ cycle, d = .viewCycle cycle) ∨
      d.OfColumns fun ref => ∃ v ∈ p.views, ∃ e ∈ v.select, ref ∈ e.columns) p.check := by
  rw [check_eq]
  cases ht : p.tableCatalog with
  | error d => exact .error (.inr (faults_tableCatalog d ht))
  | ok c =>
    simp only [Except.bind]
    cases ho : p.viewOrder c with
    | error d =>
      rcases faults_viewOrder d ho with ⟨s, rfl⟩ | hcycle
      · exact .error (.inr trivial)
      · exact .error (.inl hcycle)
    | ok vs =>
      refine (faults_addToCatalog fun v hv e he ref hr => ?_).imp fun _ => .inr
      exact ⟨v, (viewOrder_eq_ok ho).2.perm.mem_iff.1 hv, e, he, hr⟩

end Program

end ViewTyping
