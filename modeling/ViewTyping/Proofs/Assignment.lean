import ViewTyping.Proofs.CheckRun

/-!
# Assignments of types to the fields of views

An assignment gives each field of each view a type. It solves a program if every output of every
view has the type assigned to its field, once columns of views are given their assigned types
(`Assignment.Solves`); no catalog and no order of the views are involved.

* `Program.Recorded`: a catalog that holds a layout for each view of a program.
* `Recorded.columnType_eq`: a catalog and an assignment that agree on the view that a column
  belongs to give the column the same type.
* `Recorded.solves_iff`: an assignment solves an accepted program exactly if it agrees with the
  catalog on every view; the recorded types are the only solution.
-/

set_option autoImplicit false

namespace ViewTyping

/-- Types for the fields of views, by the key of the view and the name of the field. -/
def Assignment : Type := String → String → ValueType

/-- The view of that name. -/
def Program.view? (p : Program) (name : String) : Option View :=
  p.views.find? fun v => v.key == Name.normalize name

/-- The output that defines the field of that name. -/
def View.output? (v : View) (name : String) : Option Expr :=
  v.select.find? fun e => e.fieldName? == some name

/-- The type of a column, if the fields of views have the assigned types. -/
def Program.columnType (p : Program) (A : Assignment) (ref : ColumnRef) :
    Except Diagnostic ValueType :=
  if ref.column.controllable then .ok .intVar
  else
    match p.view? ref.table with
    | none => .ok (.ofKind ref.column.kind)
    | some v =>
      if (v.output? (Name.normalize ref.column.name)).isSome then
        .ok (A v.key (Name.normalize ref.column.name))
      else .error (.unknownField v.key ref.column.name)

/-- Every output of every view has the type that is assigned to its field. -/
def Assignment.Solves (A : Assignment) (p : Program) : Prop :=
  ∀ v ∈ p.views, ∀ e ∈ v.select, ∃ name, e.fieldName? = some name ∧
    (e.typing (p.columnType A)).result = .ok (A v.key name)

/-- The fields that the catalog holds for the view have the assigned types. -/
def Assignment.Agrees (A : Assignment) (c : Catalog) (v : View) : Prop :=
  ∀ l, c.layout v.name = .ok l → ∀ f ∈ l.fields, A v.key f.name = f.type

/-- The types that a catalog records for the fields of its views. -/
def Catalog.assignment (c : Catalog) : Assignment := fun key name =>
  (((c.view? key).bind fun l => l.field? name).map Field.type).getD .bool

/-- The field that is found under a name has the type of the output that defines it. -/
theorem View.HasLayout.rel_field? {column : ColumnRef → Except Diagnostic ValueType} {v : View}
    {l : Layout} (h : v.HasLayout column l) (name : String) :
    Option.Rel (fun e f => e.fieldName? = some f.name ∧ (e.typing column).result = .ok f.type)
      (v.output? name) (l.field? name) :=
  rel_find? (fun e f hef => by simp [hef.1]) h.fields

namespace Program

variable {p : Program} {c : Catalog} {column : ColumnRef → Except Diagnostic ValueType}

theorem view?_eq_some {name : String} {v : View} (h : p.view? name = some v) :
    v ∈ p.views ∧ v.key = Name.normalize name :=
  ⟨List.mem_of_find?_eq_some h, by simpa using List.find?_some h⟩

theorem view?_of_mem (h : p.keys.Nodup) {v : View} (hv : v ∈ p.views) {name : String}
    (hkey : v.key = Name.normalize name) : p.view? name = some v := by
  cases hfound : p.view? name with
  | none =>
    have := List.find?_eq_none.1 hfound v hv
    simp [hkey] at this
  | some w =>
    obtain ⟨hw, hwkey⟩ := view?_eq_some hfound
    rw [eq_of_key_eq h hw hv (hwkey.trans hkey.symm)]

/-- The order of the views does not change which view has a name. -/
theorem find?_of_perm {vs : List View} (hperm : vs.Perm p.views) (hnd : p.keys.Nodup)
    (name : String) : vs.find? (fun v => v.key == Name.normalize name) = p.view? name := by
  cases hfound : vs.find? fun v => v.key == Name.normalize name with
  | none =>
    refine (List.find?_eq_none.2 fun v hv => ?_).symm
    exact List.find?_eq_none.1 hfound v (hperm.mem_iff.2 hv)
  | some v =>
    have hv := hperm.mem_iff.1 (List.mem_of_find?_eq_some hfound)
    exact (view?_of_mem hnd hv (by simpa using List.find?_some hfound)).symm

/-! ## Recorded views -/

/-- The catalog holds a layout for each view of the program, under the view's key only. -/
structure Recorded (p : Program) (column : ColumnRef → Except Diagnostic ValueType)
    (c : Catalog) : Prop where
  nodup : p.keys.Nodup
  view? : ∀ name, Option.Rel (View.HasLayout column) (p.view? name) (c.view? name)
  table? : ∀ name v, p.view? name = some v → c.table? name = none

theorem recorded_of_ordered {vs : List View} (hp : p.Ordered vs) {tl vl : List Layout}
    (htl : ∀ l ∈ tl, l.kind = .table) (hapart : p.Apart ⟨tl⟩)
    (hvl : List.Forall₂ (View.HasLayout column) vs vl) : p.Recorded column ⟨tl ++ vl⟩ := by
  refine ⟨hp.nodup, fun name => ?_, fun name v hv => ?_⟩
  · rw [Catalog.view?_append, view?_of_tables htl, Option.none_or,
      ← find?_of_perm hp.perm hp.nodup]
    exact rel_view? stored_of_hasLayout hvl name
  · obtain ⟨hv, hkey⟩ := view?_eq_some hv
    refine Catalog.table?_eq_none.2 fun l hl hk hs => ?_
    rcases List.mem_append.1 hl with hl | hl
    · exact Catalog.namesTable_eq_false.1 (hapart v hv) l hl hk (hs ▸ hkey.symm)
    · rw [kind_of_stored (hvl.imp stored_of_hasLayout) l hl] at hk
      cases hk

theorem Checked.recorded {vs : List View} {tl vl : List Layout} (h : p.Checked vs tl vl) :
    p.Recorded (Catalog.columnType ⟨tl ++ vl⟩) ⟨tl ++ vl⟩ :=
  recorded_of_ordered h.ordered (kind_of_tables h.tables) h.apart h.views

/-- Each view has its layout in the catalog. -/
theorem Recorded.exists_layout (h : p.Recorded column c) {v : View} (hv : v ∈ p.views) :
    ∃ l, c.layout v.name = .ok l ∧ c.view? v.name = some l ∧ v.HasLayout column l := by
  have hfound := view?_of_mem h.nodup hv rfl
  obtain ⟨l, hview, hl⟩ := exists_of_rel (h.view? v.name) hfound
  exact ⟨l, by simp only [Catalog.layout, h.table? v.name v hfound, hview], hview, hl⟩

/-- The layout of a view is found under every name that stands for the view. -/
theorem Recorded.of_layout (h : p.Recorded column c) {v : View} (hv : v ∈ p.views) {l : Layout}
    (hl : c.layout v.name = .ok l) : v.HasLayout column l ∧
      ∀ name, v.key = Name.normalize name → c.view? name = some l ∧ c.layout name = .ok l := by
  obtain ⟨l', hl', hfound, hlayout⟩ := h.exists_layout hv
  obtain rfl : l' = l := Except.ok.inj (hl'.symm.trans hl)
  refine ⟨hlayout, fun name hname => ?_⟩
  have hview : c.view? name = some l' := by
    rw [← Catalog.view?_normalize, ← hname, View.key, Catalog.view?_normalize, hfound]
  have htable : c.table? name = none := h.table? name v (view?_of_mem h.nodup hv hname)
  exact ⟨hview, by simp only [Catalog.layout, htable, hview]⟩

/-! ## Types of columns -/

theorem Recorded.columnType_of_none (h : p.Recorded column c) {ref : ColumnRef}
    (hfree : ref.column.controllable = false) (hnone : p.view? ref.table = none) :
    c.columnType ref = .ok (.ofKind ref.column.kind) := by
  have hview := isSome_eq_of_rel (h.view? ref.table)
  rw [hnone] at hview
  simp [Catalog.columnType, hfree, Catalog.isView, ← hview]

theorem Recorded.columnType_of_view (h : p.Recorded column c) {ref : ColumnRef}
    (hfree : ref.column.controllable = false) {v : View} (hv : v ∈ p.views)
    (hkey : v.key = Name.normalize ref.table) {l : Layout} (hl : c.layout v.name = .ok l) :
    c.columnType ref =
      match l.field? (Name.normalize ref.column.name) with
      | some f => .ok f.type
      | none => .error (.unknownField v.key ref.column.name) := by
  obtain ⟨hl, hnames⟩ := h.of_layout hv hl
  obtain ⟨hview, hlayout⟩ := hnames ref.table hkey
  simp only [Catalog.columnType, hfree, Bool.false_eq_true, if_false, Catalog.isView, hview,
    Option.isSome_some, if_true, Catalog.typeOf, Catalog.field, hlayout, hl.kind, hl.scope]
  cases l.field? (Name.normalize ref.column.name) <;> rfl

/-- **The catalog and an assignment type a column alike** if they agree on its view. -/
theorem Recorded.columnType_eq (h : p.Recorded column c) {A : Assignment} {ref : ColumnRef}
    (hA : ∀ v ∈ p.views, v.key = Name.normalize ref.table → A.Agrees c v) :
    c.columnType ref = p.columnType A ref := by
  unfold Program.columnType
  cases hfree : ref.column.controllable with
  | true => simp [Catalog.columnType, hfree]
  | false =>
    cases hfound : p.view? ref.table with
    | none => rw [h.columnType_of_none hfree hfound]; rfl
    | some v =>
      obtain ⟨hv, hkey⟩ := view?_eq_some hfound
      obtain ⟨l, hlayout, -, hl⟩ := h.exists_layout hv
      rw [h.columnType_of_view hfree hv hkey hlayout]
      simp only [isSome_eq_of_rel (hl.rel_field? (Name.normalize ref.column.name))]
      cases hf : l.field? (Name.normalize ref.column.name) with
      | none => rfl
      | some f =>
        have hname : f.name = Name.normalize ref.column.name := by simpa using List.find?_some hf
        rw [← hname, hA v hv hkey l hlayout f (List.mem_of_find?_eq_some hf)]
        rfl

/-- An assignment agrees with the catalog on a view if it gives each output its type. -/
theorem Recorded.agrees_iff (h : p.Recorded column c) {A : Assignment} {v : View}
    (hv : v ∈ p.views) : A.Agrees c v ↔ ∀ e ∈ v.select, ∃ name, e.fieldName? = some name ∧
      (e.typing column).result = .ok (A v.key name) := by
  refine ⟨fun hA e he => ?_, fun hA l hlayout f hf => ?_⟩
  · obtain ⟨l, hlayout, -, hl⟩ := h.exists_layout hv
    obtain ⟨f, hf, hname, ht⟩ := exists_mem_right hl.fields he
    exact ⟨f.name, hname, hA l hlayout f hf ▸ ht⟩
  · obtain ⟨e, he, hname, ht⟩ := exists_mem_left (h.of_layout hv hlayout).1.fields hf
    obtain ⟨name, hname', ht'⟩ := hA e he
    obtain rfl : f.name = name := Option.some.inj (hname.symm.trans hname')
    exact Except.ok.inj (ht'.symm.trans ht)

/-- **The recorded types are the only solution.** -/
theorem Recorded.solves_iff (h : p.Recorded c.columnType c) {vs : List View} (hp : p.Ordered vs)
    {A : Assignment} : A.Solves p ↔ ∀ v ∈ p.views, A.Agrees c v := by
  constructor
  · -- along the views that views read: on those the types of the columns agree already
    intro hA
    refine hp.induct fun v hv ih => (h.agrees_iff hv).2 fun e he => ?_
    rw [typing_congr fun ref href => h.columnType_eq fun w hw hkey =>
      ih w ⟨hv, hw, e, he, ref.table, mentions_of_mem_columns href, hkey.symm⟩]
    exact hA v hv e he
  · intro hA v hv e he
    rw [← typing_congr fun ref _ => h.columnType_eq fun w hw _ => hA w hw]
    exact (h.agrees_iff hv).1 (hA v hv) e he

/-! ## The recorded typing -/

/-- **Recorded types are the types of the outputs in the finished catalog, and no others are
consistent.** Each field of a view's layout has the type that the catalog infers for the output at
its position, and an assignment solves the program exactly if it assigns the recorded types. -/
theorem recorded_typing_unique (h : p.check = .ok c) :
    (∀ v ∈ p.views, ∃ l, c.layout v.name = .ok l ∧ l.kind = .view ∧
      l.fields.length = v.select.length ∧
      ∀ (i : Nat) (e : Expr), v.select[i]? = some e → ∃ f, l.fields[i]? = some f ∧
        f.position = i ∧ e.fieldName? = some f.name ∧ c.infer e = .ok f.type) ∧
    ∀ A : Assignment, A.Solves p ↔
      ∀ v ∈ p.views, ∀ l, c.layout v.name = .ok l → ∀ f ∈ l.fields, A v.key f.name = f.type := by
  obtain ⟨vs, tl, vl, hc, rfl⟩ := check_eq_ok.1 h
  refine ⟨fun v hv => ?_, fun A => hc.recorded.solves_iff hc.ordered⟩
  obtain ⟨l, hlayout, -, hl⟩ := hc.recorded.exists_layout hv
  refine ⟨l, hlayout, hl.kind, hl.fields.length_eq.symm, fun i e he => ?_⟩
  obtain ⟨f, hf, hname, ht⟩ := exists_of_rel (rel_getElem? hl.fields i) he
  exact ⟨f, hf, hl.wellFormed.positions i f hf, hname, ht⟩

/-- A total over a view that is declared after it, under another spelling of its name; the summed
column is declared as a plain integer, but holds variables. -/
def totalLoad : Program where
  tables := [⟨"hosts", [⟨"id", .string, false⟩, ⟨"load", .integer, true⟩]⟩]
  views := [
    ⟨"total", [.aliased (.call .sum [.column ⟨"loads", ⟨"Load", .integer, false⟩⟩]) "sum"]⟩,
    ⟨"Loads", [.column ⟨"hosts", ⟨"id", .string, false⟩⟩,
      .column ⟨"hosts", ⟨"load", .integer, true⟩⟩]⟩]

def totalLoadCatalog : Catalog :=
  ⟨[⟨"hosts", .table, [⟨"id", 0, .string⟩, ⟨"load", 1, .intVar⟩]⟩,
    ⟨"LOADS", .view, [⟨"ID", 0, .string⟩, ⟨"LOAD", 1, .intVar⟩]⟩,
    ⟨"TOTAL", .view, [⟨"SUM", 0, .intVar⟩]⟩]⟩

/-- The total holds variables, and no assignment can have it otherwise. -/
theorem recorded_typing_unique_totalLoad :
    totalLoad.check = .ok totalLoadCatalog ∧
      (∃ l, totalLoadCatalog.layout "total" = .ok l ∧ ∀ (i : Nat) (e : Expr),
        totalLoad.views[0].select[i]? = some e →
          ∃ f, l.fields[i]? = some f ∧ totalLoadCatalog.infer e = .ok f.type) ∧
      ∀ A : Assignment, A.Solves totalLoad → A "TOTAL" "SUM" = .intVar := by
  have hcheck : totalLoad.check = .ok totalLoadCatalog := rfl
  have hmem : totalLoad.views[0] ∈ totalLoad.views := List.getElem_mem _
  obtain ⟨htyped, hsolves⟩ := recorded_typing_unique hcheck
  refine ⟨hcheck, ?_, fun A hA => ?_⟩
  · obtain ⟨l, hl, -, -, hfields⟩ := htyped _ hmem
    refine ⟨l, hl, fun i e he => ?_⟩
    obtain ⟨f, hf, -, -, ht⟩ := hfields i e he
    exact ⟨f, hf, ht⟩
  · exact (hsolves A).1 hA _ hmem _ rfl ⟨"SUM", 0, .intVar⟩ (.head _)

end Program

end ViewTyping
