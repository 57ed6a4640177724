import Mathlib.Data.List.Forall2
import Mathlib.Data.List.Nodup
import ViewTyping.Catalog.Register
import ViewTyping.Program.Basic
import ViewTyping.Proofs.Occurrences

/-!
# What registering a table or a view records

A layout is built field by field (`Layout.addField`), whether the fields are a table's columns or
a view's outputs, so one lemma says when that succeeds and what comes out (`foldlM_addField_iff`):
fields with different names, each at the position it is listed at.

* `tableLayout_iff`: a table gets a layout exactly if its name is free and its columns have
  different names (`Table.HasLayout`).
* `viewLayout_iff`: a view gets a layout exactly if its key is free and its outputs have names,
  types and different names (`View.HasLayout`, for any typing of columns).
* `Table.exists_layout_iff`, `View.exists_layout_iff`: when there is such a layout.
* `columnType_congr`: the type of a column depends on the table and the view of its name only.
-/

set_option autoImplicit false

namespace ViewTyping

/-- Reporting what a computation has come to leaves its result. -/
theorem Logged.result_report {α : Type} (x : Logged α) (event : α → Event) :
    (do let a ← x; Logged.emit (event a); return a : Logged α).result = x.result := by
  rw [Logged.result_bind]
  cases x.result <;> rfl

/-! ## Lists that correspond -/

section
variable {α β : Type} {R : α → β → Prop} {xs : List α} {ys : List β}

theorem exists_forall₂ : ∀ {xs : List α}, (∀ x ∈ xs, ∃ y, R x y) → ∃ ys, List.Forall₂ R xs ys
  | [], _ => ⟨[], .nil⟩
  | x :: _, h =>
    have ⟨y, hy⟩ := h x (.head _)
    have ⟨ys, hys⟩ := exists_forall₂ fun x' hx => h x' (.tail _ hx)
    ⟨y :: ys, .cons hy hys⟩

theorem filterMap_of_forall₂ {γ : Type} {f : α → Option γ} {g : β → γ}
    (h : List.Forall₂ (fun x y => f x = some (g y)) xs ys) : xs.filterMap f = ys.map g := by
  induction h with
  | nil => rfl
  | cons hxy _ ih => rw [List.filterMap_cons_some hxy, List.map_cons, ih]

/-- Searches that agree on related items find related items. -/
theorem rel_find? {f : α → Bool} {g : β → Bool} (hfg : ∀ x y, R x y → f x = g y)
    (h : List.Forall₂ R xs ys) : Option.Rel R (xs.find? f) (ys.find? g) := by
  induction h with
  | nil => exact .none
  | @cons x y _ _ hxy _ ih =>
    rw [List.find?_cons, List.find?_cons, hfg x y hxy]
    cases g y with
    | true => exact .some hxy
    | false => exact ih

theorem rel_getElem? (h : List.Forall₂ R xs ys) (i : Nat) : Option.Rel R xs[i]? ys[i]? := by
  induction h generalizing i with
  | nil => exact .none
  | cons hxy _ ih =>
    cases i with
    | zero => exact .some hxy
    | succ i => exact ih i

theorem isSome_eq_of_rel {a : Option α} {b : Option β} (h : Option.Rel R a b) :
    a.isSome = b.isSome := by
  cases h <;> rfl

theorem exists_of_rel {a : Option α} {b : Option β} {x : α} (h : Option.Rel R a b)
    (hx : a = some x) : ∃ y, b = some y ∧ R x y := by
  subst hx
  cases h with
  | some hxy => exact ⟨_, rfl, hxy⟩

theorem exists_mem_right (h : List.Forall₂ R xs ys) {x : α} (hx : x ∈ xs) : ∃ y ∈ ys, R x y := by
  obtain ⟨i, hi⟩ := List.mem_iff_getElem?.1 hx
  obtain ⟨y, hy, hxy⟩ := exists_of_rel (rel_getElem? h i) hi
  exact ⟨y, List.mem_of_getElem? hy, hxy⟩

end

theorem exists_mem_left {α β : Type} {R : α → β → Prop} {xs : List α} {ys : List β}
    (h : List.Forall₂ R xs ys) {y : β} (hy : y ∈ ys) : ∃ x ∈ xs, R x y :=
  exists_mem_right (R := flip R) h.flip hy

/-! ## Layouts -/

namespace Layout

/-- Fields have different names and are listed by position. -/
structure WellFormed (l : Layout) : Prop where
  names : (l.fields.map Field.name).Nodup
  positions : ∀ (i : Nat) (f : Field), l.fields[i]? = some f → f.position = i

theorem field?_isSome {l : Layout} {name : String} :
    (l.field? name).isSome = true ↔ name ∈ l.fields.map Field.name := by
  rw [field?, List.find?_isSome]
  simp

/-- The field of a name is the one field that has it. -/
theorem WellFormed.field?_eq {l : Layout} (hl : l.WellFormed) {f : Field} (hf : f ∈ l.fields) :
    l.field? f.name = some f := by
  cases h : l.field? f.name with
  | none =>
    have := field?_isSome.2 (List.mem_map_of_mem hf)
    rw [h] at this
    cases this
  | some f' =>
    have hn : f'.name = f.name := by simpa using List.find?_some h
    exact congrArg some (List.inj_on_of_nodup_map hl.names (List.mem_of_find?_eq_some h) hf hn)

theorem WellFormed.push {l : Layout} (hl : l.WellFormed) {name : String} {t : ValueType}
    (hn : name ∉ l.fields.map Field.name) :
    WellFormed { l with fields := l.fields ++ [⟨name, l.fields.length, t⟩] } := by
  refine ⟨?_, fun i f hf => ?_⟩
  · rw [List.map_append]
    refine hl.names.append (List.nodup_singleton _) fun n hm hm' => hn ?_
    obtain rfl : n = name := List.mem_singleton.1 hm'
    exact hm
  · rcases Nat.lt_or_ge i l.fields.length with hi | hi
    · rw [List.getElem?_append_left hi] at hf
      exact hl.positions i f hf
    · rw [List.getElem?_append_right hi, List.getElem?_singleton] at hf
      split at hf
      · cases hf
        show l.fields.length = i
        omega
      · cases hf

/-- The layout with one more field, if there is one to add and its name is new. -/
def addField (l : Layout) (field : Except Diagnostic (String × ValueType)) :
    Except Diagnostic Layout :=
  field.bind fun f =>
    match l.push? f.1 f.2 with
    | some l => .ok l
    | none => .error (.duplicateField l.scope f.1)

theorem addField_iff {l l' : Layout} {field : Except Diagnostic (String × ValueType)} :
    l.addField field = .ok l' ↔ ∃ name t, field = .ok (name, t) ∧
      name ∉ l.fields.map Field.name ∧
      l' = { l with fields := l.fields ++ [⟨name, l.fields.length, t⟩] } := by
  cases field with
  | error d => exact ⟨fun h => (by cases h), fun ⟨_, _, h, _⟩ => (by cases h)⟩
  | ok f =>
    obtain ⟨name, t⟩ := f
    rw [addField, Except.bind, push?]
    by_cases hn : name ∈ l.fields.map Field.name
    · rw [if_pos (field?_isSome.2 hn)]
      refine ⟨fun h => (by cases h), ?_⟩
      rintro ⟨_, _, h, hn', -⟩
      cases h
      exact absurd hn hn'
    · rw [if_neg fun h => hn (field?_isSome.1 h)]
      refine ⟨fun h => ?_, fun h => ?_⟩
      · cases h
        exact ⟨name, t, rfl, hn, rfl⟩
      · obtain ⟨_, _, h, -, rfl⟩ := h
        cases h
        rfl

/-- **Adding fields one after the other** succeeds exactly if there is a field each time and the
names stay different. -/
theorem foldlM_addField_iff : ∀ (fields : List (Except Diagnostic (String × ValueType)))
    {l l' : Layout}, l.WellFormed →
    (fields.foldlM addField l = .ok l' ↔ l'.WellFormed ∧
      ∃ fs, l' = { l with fields := l.fields ++ fs } ∧
        List.Forall₂ (fun field f => field = .ok (f.name, f.type)) fields fs)
  | [], l, l', hl => by
    refine ⟨fun h => ?_, fun h => ?_⟩
    · cases h
      exact ⟨hl, [], by simp, .nil⟩
    · obtain ⟨-, fs, rfl, hfs⟩ := h
      cases hfs
      simp [pure, Except.pure]
  | field :: fields, l, l', hl => by
    rw [List.foldlM_cons]
    refine ⟨fun h => ?_, fun h => ?_⟩
    · cases h1 : l.addField field with
      | error d => rw [h1] at h; cases h
      | ok l1 =>
        rw [h1] at h
        obtain ⟨name, t, rfl, hn, rfl⟩ := addField_iff.1 h1
        obtain ⟨hl', fs, rfl, hfs⟩ := (foldlM_addField_iff fields (hl.push hn)).1 h
        exact ⟨hl', ⟨name, l.fields.length, t⟩ :: fs, by simp, .cons rfl hfs⟩
    · obtain ⟨hl', fs, rfl, hfs⟩ := h
      cases hfs with
      | @cons _ f _ fs hf hfs =>
        -- the next field has a new name and the next position, as the whole is well formed
        have hn : f.name ∉ l.fields.map Field.name := fun hm => by
          have := hl'.names
          rw [List.map_append] at this
          exact (List.nodup_append.1 this).2.2 _ hm f.name (by simp) rfl
        have hpos : f.position = l.fields.length := hl'.positions _ f (by simp)
        have hf' : f = ⟨f.name, l.fields.length, f.type⟩ := by rw [← hpos]
        have h1 : l.addField field =
            .ok { l with fields := l.fields ++ [⟨f.name, l.fields.length, f.type⟩] } :=
          addField_iff.2 ⟨_, _, hf, hn, rfl⟩
        rw [h1]
        refine (foldlM_addField_iff fields (hl.push hn)).2 ⟨hl', fs, ?_, hfs⟩
        rw [← hf']
        simp

/-- The fields of given names and types, in order. -/
def ofFields (scope : String) (kind : ScopeKind) (fields : List (String × ValueType)) : Layout :=
  ⟨scope, kind, fields.mapIdx fun i f => ⟨f.1, i, f.2⟩⟩

theorem wellFormed_ofFields (scope : String) (kind : ScopeKind)
    {fields : List (String × ValueType)} (h : (fields.map Prod.fst).Nodup) :
    (ofFields scope kind fields).WellFormed := by
  refine ⟨?_, fun i f hf => ?_⟩
  · have hmap : (ofFields scope kind fields).fields.map Field.name = fields.map Prod.fst := by
      refine List.ext_getElem? fun i => ?_
      simp [ofFields, Function.comp_def]
    rwa [hmap]
  · simp only [ofFields, List.getElem?_mapIdx, Option.map_eq_some_iff] at hf
    obtain ⟨_, -, rfl⟩ := hf
    rfl

theorem forall₂_ofFields (scope : String) (kind : ScopeKind) {α : Type}
    {R : α → String × ValueType → Prop} {xs : List α} {fields : List (String × ValueType)}
    (h : List.Forall₂ R xs fields) :
    List.Forall₂ (fun x f => R x (f.name, f.type)) xs (ofFields scope kind fields).fields := by
  refine List.forall₂_iff_get.2 ⟨by simp [ofFields, h.length_eq], fun i h₁ h₂ => ?_⟩
  simpa [ofFields] using h.get h₁ (h.length_eq ▸ h₁)

end Layout

/-! ## Looking scopes up -/

namespace Catalog

variable {c c' : Catalog}

theorem view?_append (ls ls' : List Layout) (name : String) :
    view? ⟨ls ++ ls'⟩ name = (view? ⟨ls⟩ name).or (view? ⟨ls'⟩ name) :=
  List.find?_append

theorem table?_append (ls ls' : List Layout) (name : String) :
    table? ⟨ls ++ ls'⟩ name = (table? ⟨ls⟩ name).or (table? ⟨ls'⟩ name) :=
  List.find?_append

theorem view?_eq_some {name : String} {l : Layout} (h : c.view? name = some l) :
    l ∈ c.layouts ∧ l.kind = .view ∧ l.scope = Name.normalize name := by
  have := List.find?_some h
  simp only [Bool.and_eq_true, beq_iff_eq] at this
  exact ⟨List.mem_of_find?_eq_some h, this⟩

theorem view?_eq_none {name : String} :
    c.view? name = none ↔ ∀ l ∈ c.layouts, l.kind = .view → l.scope ≠ Name.normalize name := by
  rw [view?, List.find?_eq_none]
  simp

theorem table?_eq_none {name : String} :
    c.table? name = none ↔ ∀ l ∈ c.layouts, l.kind = .table → l.scope ≠ name := by
  rw [table?, List.find?_eq_none]
  simp

theorem isView_eq_false {name : String} : c.isView name = false ↔ c.view? name = none := by
  rw [isView, Option.isSome_eq_false_iff, Option.isNone_iff_eq_none]

theorem namesTable_eq_false {name : String} : c.namesTable name = false ↔
    ∀ l ∈ c.layouts, l.kind = .table → Name.normalize l.scope ≠ Name.normalize name := by
  rw [namesTable, List.any_eq_false]
  simp

@[simp] theorem view?_normalize (name : String) : c.view? (Name.normalize name) = c.view? name := by
  simp [view?]

@[simp] theorem isView_normalize (name : String) :
    c.isView (Name.normalize name) = c.isView name := by simp [isView]

@[simp] theorem namesTable_normalize (name : String) :
    c.namesTable (Name.normalize name) = c.namesTable name := by simp [namesTable]

/-- **The type of a column depends on what its table's name stands for.** -/
theorem columnType_congr {ref : ColumnRef} (hv : c.view? ref.table = c'.view? ref.table)
    (ht : c.table? ref.table = c'.table? ref.table) : c.columnType ref = c'.columnType ref := by
  unfold columnType isView typeOf field layout
  rw [hv, ht]

end Catalog

/-! ## Outputs of views -/

/-- The name of an output: its alias, or the name of the column that it is. -/
def Expr.fieldName? : Expr → Option String
  | .aliased _ name => some (Name.normalize name)
  | .column ref => some (Name.normalize ref.column.name)
  | _ => none

theorem Expr.outputName_eq_ok {view : String} {e : Expr} {name : String} :
    e.outputName view = .ok name ↔ e.fieldName? = some name := by
  cases e <;> simp [outputName, fieldName?, alias?, column?, unaliased]

theorem Expr.fieldName?_isSome {e : Expr} : e.fieldName?.isSome = true ↔
    (∃ e' name, e = .aliased e' name) ∨ ∃ ref, e = .column ref := by
  cases e <;> simp [fieldName?]

/-- The name and the type of an output, or why it has none. -/
def Expr.outputField (column : ColumnRef → Except Diagnostic ValueType) (view : String)
    (e : Expr) : Except Diagnostic (String × ValueType) :=
  (e.outputName view).bind fun name => (e.typing column).result.map fun t => (name, t)

theorem Expr.outputField_eq_ok {column : ColumnRef → Except Diagnostic ValueType} {view : String}
    {e : Expr} {name : String} {t : ValueType} : e.outputField column view = .ok (name, t) ↔
      e.fieldName? = some name ∧ (e.typing column).result = .ok t := by
  unfold Expr.outputField
  rw [← @Expr.outputName_eq_ok view]
  cases e.outputName view with
  | error d => exact ⟨fun h => (by cases h), fun h => (by cases h.1)⟩
  | ok n =>
    cases (e.typing column).result with
    | error d => exact ⟨fun h => (by cases h), fun h => (by cases h.2)⟩
    | ok t' => simp [Except.bind, Except.map]

theorem result_addOutput (c : Catalog) (l : Layout) (e : Expr) :
    (c.addOutput l e).result = l.addField (e.outputField c.columnType l.scope) := by
  unfold Catalog.addOutput Expr.outputField Layout.addField
  cases e.outputName l.scope with
  | error d => rfl
  | ok name =>
    simp only [Logged.result_bind, Logged.ofExcept, Except.bind, Catalog.typing]
    cases (e.typing c.columnType).result with
    | error d => rfl
    | ok t =>
      simp only [Logged.emit, Except.map]
      cases l.push? name t <;> rfl

/-- The outputs are named after the scope of the layout, which stays the same. -/
theorem result_foldlM_addOutput (c : Catalog) : ∀ (es : List Expr) (l : Layout),
    (es.foldlM c.addOutput l).result =
      (es.map (Expr.outputField c.columnType l.scope)).foldlM Layout.addField l
  | [], _ => rfl
  | e :: es, l => by
    rw [List.foldlM_cons, Logged.result_bind, List.map_cons, List.foldlM_cons, result_addOutput]
    cases h : l.addField (e.outputField c.columnType l.scope) with
    | error d => rfl
    | ok l' =>
      obtain ⟨name, t, -, -, rfl⟩ := Layout.addField_iff.1 h
      exact result_foldlM_addOutput c es _

/-! ## Tables and views -/

/-- The layout of a table. -/
structure Table.HasLayout (t : Table) (l : Layout) : Prop where
  scope : l.scope = t.name
  kind : l.kind = .table
  wellFormed : l.WellFormed
  fields : List.Forall₂ (fun column f => f.name = column.name ∧ f.type = ValueType.ofColumn column)
    t.columns l.fields

/-- The name under which a view is stored. -/
def View.key (v : View) : String := Name.normalize v.name

/-- The layout of a view, if columns have the types that `column` gives. -/
structure View.HasLayout (column : ColumnRef → Except Diagnostic ValueType) (v : View)
    (l : Layout) : Prop where
  scope : l.scope = v.key
  kind : l.kind = .view
  wellFormed : l.WellFormed
  fields : List.Forall₂ (fun e f => e.fieldName? = some f.name ∧
    (e.typing column).result = .ok f.type) v.select l.fields

theorem wellFormed_empty (scope : String) (kind : ScopeKind) :
    Layout.WellFormed ⟨scope, kind, []⟩ :=
  ⟨List.nodup_nil, fun i f h => by simp at h⟩

theorem result_tableLayout (c : Catalog) (t : Table) : (c.tableLayout t).result =
    if (c.table? t.name).isSome || c.isView t.name then .error (.scopeAlreadyRegistered t.name)
    else t.columns.foldlM Layout.addColumn ⟨t.name, .table, []⟩ := by
  unfold Catalog.tableLayout
  split
  · rfl
  · exact Logged.result_report _ _

theorem result_viewLayout (c : Catalog) (v : View) : (c.viewLayout v.name v.select).result =
    if c.isView v.name || c.namesTable v.name then .error (.scopeAlreadyRegistered v.key)
    else (v.select.foldlM c.addOutput ⟨v.key, .view, []⟩).result := by
  unfold Catalog.viewLayout
  simp only [Catalog.isView_normalize, Catalog.namesTable_normalize]
  split
  · rfl
  · exact Logged.result_report _ _

/-- **When a table gets a layout, and which.** -/
theorem tableLayout_iff {c : Catalog} {t : Table} {l : Layout} :
    (c.tableLayout t).result = .ok l ↔
      c.table? t.name = none ∧ c.isView t.name = false ∧ t.HasLayout l := by
  have hfold : t.columns.foldlM Layout.addColumn ⟨t.name, .table, []⟩ = .ok l ↔
      t.HasLayout l := by
    have hmap : t.columns.foldlM Layout.addColumn ⟨t.name, .table, []⟩ =
        (t.columns.map fun column => .ok (column.name, .ofColumn column)).foldlM Layout.addField
          ⟨t.name, .table, []⟩ := by
      rw [List.foldlM_map]
      rfl
    rw [hmap, Layout.foldlM_addField_iff _ (wellFormed_empty _ _)]
    simp only [List.nil_append, List.forall₂_map_left_iff, Except.ok.injEq, Prod.mk.injEq]
    refine ⟨fun h => ?_, fun h => ?_⟩
    · obtain ⟨hl, fs, rfl, hfs⟩ := h
      exact ⟨rfl, rfl, hl, hfs.imp fun column f h => ⟨h.1.symm, h.2.symm⟩⟩
    · obtain ⟨hs, hk, hl, hfs⟩ := h
      obtain ⟨scope, kind, fields⟩ := l
      obtain rfl : scope = t.name := hs
      obtain rfl : kind = .table := hk
      exact ⟨hl, fields, rfl, hfs.imp fun column f h => ⟨h.1.symm, h.2.symm⟩⟩
  rw [result_tableLayout]
  cases ht : c.table? t.name with
  | some l' => exact ⟨fun h => (by cases h), fun h => (by cases h.1)⟩
  | none =>
    cases hv : c.isView t.name with
    | true => exact ⟨fun h => (by cases h), fun h => (by cases h.2.1)⟩
    | false => exact hfold.trans ⟨fun h => ⟨rfl, rfl, h⟩, fun h => h.2.2⟩

/-- **When a view gets a layout, and which.** -/
theorem viewLayout_iff {c : Catalog} {v : View} {l : Layout} :
    (c.viewLayout v.name v.select).result = .ok l ↔
      c.isView v.name = false ∧ c.namesTable v.name = false ∧ v.HasLayout c.columnType l := by
  have hfold : (v.select.foldlM c.addOutput ⟨v.key, .view, []⟩).result = .ok l ↔
      v.HasLayout c.columnType l := by
    rw [result_foldlM_addOutput, Layout.foldlM_addField_iff _ (wellFormed_empty _ _)]
    simp only [List.nil_append, List.forall₂_map_left_iff, Expr.outputField_eq_ok]
    refine ⟨fun h => ?_, fun h => ?_⟩
    · obtain ⟨hl, fs, rfl, hfs⟩ := h
      exact ⟨rfl, rfl, hl, hfs⟩
    · obtain ⟨hs, hk, hl, hfs⟩ := h
      obtain ⟨scope, kind, fields⟩ := l
      obtain rfl : scope = v.key := hs
      obtain rfl : kind = .view := hk
      exact ⟨hl, fields, rfl, hfs⟩
  rw [result_viewLayout]
  cases hv : c.isView v.name with
  | true => exact ⟨fun h => (by cases h), fun h => (by cases h.1)⟩
  | false =>
    cases ht : c.namesTable v.name with
    | true => exact ⟨fun h => (by cases h), fun h => (by cases h.2.1)⟩
    | false => exact hfold.trans ⟨fun h => ⟨rfl, rfl, h⟩, fun h => h.2.2⟩

/-! ## Layouts that exist -/

/-- A table has a layout exactly if its columns have different names. -/
theorem Table.exists_layout_iff {t : Table} :
    (∃ l, t.HasLayout l) ↔ (t.columns.map Column.name).Nodup := by
  refine ⟨fun h => ?_, fun h => ?_⟩
  · obtain ⟨l, hl⟩ := h
    have hnames := filterMap_of_forall₂ (f := fun column : Column => some column.name)
      (hl.fields.imp fun _ _ h => congrArg some h.1.symm)
    rw [List.filterMap_eq_map'] at hnames
    exact hnames ▸ hl.wellFormed.names
  · let fields := t.columns.map fun column => (column.name, ValueType.ofColumn column)
    have hnd : (fields.map Prod.fst).Nodup := by simpa [fields, Function.comp_def] using h
    have hfields : List.Forall₂
        (fun column f => f.1 = column.name ∧ f.2 = ValueType.ofColumn column) t.columns fields :=
      List.forall₂_map_right_iff.2 (List.forall₂_same.2 fun _ _ => ⟨rfl, rfl⟩)
    exact ⟨.ofFields t.name .table fields, rfl, rfl, Layout.wellFormed_ofFields _ _ hnd,
      Layout.forall₂_ofFields _ _ hfields⟩

/-- A view has a layout exactly if its outputs have types, names and different names. -/
theorem View.exists_layout_iff {column : ColumnRef → Except Diagnostic ValueType} {v : View} :
    (∃ l, v.HasLayout column l) ↔
      (∀ e ∈ v.select, e.fieldName?.isSome = true) ∧
      (v.select.filterMap Expr.fieldName?).Nodup ∧
      ∀ e ∈ v.select, ∃ t, (e.typing column).result = .ok t := by
  refine ⟨fun h => ?_, fun h => ?_⟩
  · obtain ⟨l, hl⟩ := h
    refine ⟨fun e he => ?_, ?_, fun e he => ?_⟩
    · obtain ⟨f, -, hname, -⟩ := exists_mem_right hl.fields he
      rw [hname, Option.isSome_some]
    · rw [filterMap_of_forall₂ (hl.fields.imp fun _ _ h => h.1)]
      exact hl.wellFormed.names
    · obtain ⟨f, -, -, ht⟩ := exists_mem_right hl.fields he
      exact ⟨f.type, ht⟩
  · obtain ⟨hnamed, hnd, htyped⟩ := h
    have hfield : ∀ e ∈ v.select, ∃ f : String × ValueType,
        e.fieldName? = some f.1 ∧ (e.typing column).result = .ok f.2 := fun e he => by
      obtain ⟨name, hname⟩ := Option.isSome_iff_exists.1 (hnamed e he)
      obtain ⟨t, ht⟩ := htyped e he
      exact ⟨(name, t), hname, ht⟩
    obtain ⟨fields, hfields⟩ := exists_forall₂ hfield
    rw [filterMap_of_forall₂ (hfields.imp fun _ _ h => h.1)] at hnd
    exact ⟨.ofFields v.key .view fields, rfl, rfl, Layout.wellFormed_ofFields _ _ hnd,
      Layout.forall₂_ofFields _ _ hfields⟩

/-- The layout depends on the types of the columns in the outputs only. -/
theorem View.HasLayout.congr {f g : ColumnRef → Except Diagnostic ValueType} {v : View}
    {l : Layout} (h : v.HasLayout f l) (hfg : ∀ e ∈ v.select, ∀ ref ∈ e.columns, f ref = g ref) :
    v.HasLayout g l := by
  refine ⟨h.scope, h.kind, h.wellFormed, ?_⟩
  refine ((List.forall₂_and_left _ _).2 ⟨hfg, h.fields⟩).imp ?_
  rintro e field ⟨hfg, hname, ht⟩
  exact ⟨hname, typing_congr hfg ▸ ht⟩

end ViewTyping
