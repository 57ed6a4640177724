import ViewTyping.Proofs.FirstFault
import ViewTyping.Proofs.ReadPaths

/-!
# What a registration comes to

A registration is answered with the types of the new scope's fields, or with the reason why there
is no such scope.

* `registerView_outcome`: a view enters exactly if its name is free and its outputs have names and
  types and different names. Otherwise the first faulty output says why (`firstOutputFault?`).
* `registerTable_outcome`: a table enters exactly if its name is free and its columns have different
  names. From then on a reference to a column has the type that is recorded for it.

In either case the fields are found by their names in every later catalog (`Catalog.Follows`).
-/

set_option autoImplicit false

namespace ViewTyping

/-! ## Faults of outputs -/

/-- The fault of an output that is neither aliased nor a column. -/
def Expr.namingFault? (view : String) (e : Expr) : Option Diagnostic :=
  if e.fieldName?.isSome then none else some (.unaliasedOutputField view e.render)

/-- The fault of an output that has the name of an earlier one. -/
def Expr.repetitionFault? (view : String) (earlier : List Expr) (e : Expr) : Option Diagnostic :=
  e.fieldName?.bind fun name =>
    if name ∈ earlier.filterMap Expr.fieldName? then some (.duplicateField view name) else none

theorem Expr.outputName_of_none {view : String} {e : Expr} (h : e.fieldName? = none) :
    e.outputName view = .error (.unaliasedOutputField view e.render) := by
  cases e with
  | column ref => cases h
  | aliased e name => cases h
  | _ => rfl

theorem Layout.faultOf_addField (l : Layout) (name : String) (t : ValueType) :
    faultOf (l.addField (.ok (name, t))) =
      if name ∈ l.fields.map Field.name then some (.duplicateField l.scope name) else none := by
  unfold addField push?
  by_cases hmem : name ∈ l.fields.map Field.name
  · rw [if_pos hmem]
    simp [Except.bind, field?_isSome.2 hmem, faultOf]
  · have hnone : l.field? name = none := by
      rw [← Option.not_isSome_iff_eq_none, field?_isSome]
      exact hmem
    rw [if_neg hmem]
    simp [Except.bind, hnone, faultOf]

namespace Catalog

variable {c c' : Catalog} {l : Layout}

/-- What is wrong with an output that stands behind others: it has no name, or else no type, or else
the name of one before it. -/
def outputFault? (c : Catalog) (view : String) (earlier : List Expr) (e : Expr) :
    Option Diagnostic :=
  (e.namingFault? view).or ((faultOf (c.infer e)).or (e.repetitionFault? view earlier))

/-- The fault of the first output that has one. -/
def firstOutputFault? (c : Catalog) (view : String) (select : List Expr) : Option Diagnostic :=
  select.zipIdx.findSome? fun x => c.outputFault? view (select.take x.2) x.1

theorem faultOf_addOutput {earlier : List Expr}
    (hnames : l.fields.map Field.name = earlier.filterMap Expr.fieldName?) (e : Expr) :
    faultOf (c.addOutput l e).result = c.outputFault? l.scope earlier e := by
  rw [result_addOutput]
  unfold Expr.outputField outputFault? Expr.namingFault? Expr.repetitionFault?
  cases hname : e.fieldName? with
  | none =>
    rw [Expr.outputName_of_none hname]
    rfl
  | some name =>
    rw [Expr.outputName_eq_ok.2 hname, ← hnames, infer, typing]
    cases (e.typing c.columnType).result with
    | error d => rfl
    | ok t => exact l.faultOf_addField name t

/-- The fields so far are those of the outputs so far. -/
theorem faultOf_foldlM_addOutput : ∀ (select earlier : List Expr) {l : Layout},
    l.fields.map Field.name = earlier.filterMap Expr.fieldName? →
    faultOf (select.foldlM c.addOutput l).result =
      (select.zipIdx earlier.length).findSome? fun x =>
        c.outputFault? l.scope ((earlier ++ select).take x.2) x.1
  | [], _, _, _ => rfl
  | e :: select, earlier, l, hnames => by
    have hfault := faultOf_addOutput (c := c) hnames e
    rw [List.foldlM_cons, Logged.result_bind, List.zipIdx_cons, List.findSome?_cons,
      List.take_left, ← hfault]
    cases h : (c.addOutput l e).result with
    | error d => rfl
    | ok l' =>
      rw [result_addOutput] at h
      obtain ⟨name, t, hfield, -, rfl⟩ := Layout.addField_iff.1 h
      have hname : e.fieldName? = some name := (Expr.outputField_eq_ok.1 hfield).1
      have ih := faultOf_foldlM_addOutput select (earlier ++ [e])
        (l := { l with fields := l.fields ++ [⟨name, l.fields.length, t⟩] })
        (by simp [hnames, hname])
      rw [List.append_assoc, List.length_append] at ih
      exact ih

/-! ## Answers -/

/-- The name is that of a view or, but for case, that of a table. -/
def Taken (c : Catalog) (name : String) : Prop :=
  (∃ l ∈ c.layouts, l.kind = .view ∧ l.scope = Name.normalize name) ∨
    ∃ l ∈ c.layouts, l.kind = .table ∧ Name.normalize l.scope = Name.normalize name

instance (c : Catalog) (name : String) : Decidable (c.Taken name) :=
  inferInstanceAs (Decidable (_ ∨ _))

theorem taken_iff {name : String} :
    c.Taken name ↔ c.isView name = true ∨ c.namesTable name = true := by
  rw [Taken, isView_iff, namesTable, List.any_eq_true]
  simp

theorem answer_enter_eq_tuple {layout : Logged Layout} {types : List ValueType} :
    (c.enter layout).answer = .tuple types ↔ ∃ l, layout.result = .ok l ∧ l.types = types := by
  unfold enter
  cases layout.result <;> simp [Answer.ofResult]

theorem exists_answer_enter {layout : Logged Layout} :
    (∃ types, (c.enter layout).answer = .tuple types) ↔ ∃ l, layout.result = .ok l := by
  simp only [answer_enter_eq_tuple]
  exact ⟨fun ⟨_, l, hl, _⟩ => ⟨l, hl⟩, fun ⟨l, hl⟩ => ⟨_, l, hl, rfl⟩⟩

theorem answer_enter_eq_refused {layout : Logged Layout} {d : Diagnostic} :
    (c.enter layout).answer = .refused d ↔ layout.result = .error d := by
  unfold enter
  cases layout.result <;> simp [Answer.ofResult]

theorem exists_viewLayout_iff {name : String} {select : List Expr} :
    (∃ l, (c.viewLayout name select).result = .ok l) ↔ ¬ c.Taken name ∧
      (∀ e ∈ select, (∃ e' name', e = .aliased e' name') ∨ ∃ ref, e = .column ref) ∧
      (∀ e ∈ select, ∃ t, c.infer e = .ok t) ∧ (select.filterMap Expr.fieldName?).Nodup := by
  have hfree : ¬ c.Taken name ↔ c.isView name = false ∧ c.namesTable name = false := by
    rw [taken_iff, not_or, Bool.not_eq_true, Bool.not_eq_true]
  have hlayout := @View.exists_layout_iff c.columnType ⟨name, select⟩
  simp only [Expr.fieldName?_isSome] at hlayout
  simp only [viewLayout_iff (v := ⟨name, select⟩), exists_and_left, hlayout, hfree, and_assoc]
  exact and_congr_right fun _ => and_congr_right fun _ => and_congr_right fun _ => and_comm

/-- A view whose name is free is refused for its first faulty output. -/
theorem viewLayout_eq_error {name : String} {select : List Expr} {d : Diagnostic} :
    (c.viewLayout name select).result = .error d ↔
      c.Taken name ∧ d = .scopeAlreadyRegistered (Name.normalize name) ∨
        ¬ c.Taken name ∧ c.firstOutputFault? (Name.normalize name) select = some d := by
  have hguard : (c.isView name || c.namesTable name) = true ↔ c.Taken name := by
    rw [Bool.or_eq_true, taken_iff]
  rw [result_viewLayout c ⟨name, select⟩]
  by_cases htaken : c.Taken name
  · rw [if_pos (hguard.2 htaken)]
    simp only [htaken, not_true_eq_false, true_and, false_and, or_false, Except.error.injEq]
    exact eq_comm
  · rw [if_neg (mt hguard.1 htaken), ← faultOf_eq_some, faultOf_foldlM_addOutput select [] rfl]
    simp only [htaken, not_false_eq_true, true_and, false_and, false_or]
    rfl

theorem inferTuple_of_forall₂ {es : List Expr} {types : List ValueType}
    (h : List.Forall₂ (fun e t => c.infer e = .ok t) es types) : c.inferTuple es = .ok types := by
  unfold inferTuple tupleTyping
  induction h with
  | nil => rfl
  | @cons e t es types he _ ih =>
    rw [List.mapM_cons, Logged.result_bind, show (c.typing e).result = .ok t from he]
    show (es.mapM c.typing >>= fun ts => pure (t :: ts) : Logged (List ValueType)).result = _
    rw [Logged.result_bind, ih]
    rfl

/-! ## Later catalogs -/

/-- Further calls lead from the one catalog to the other. -/
def Follows (c' c : Catalog) : Prop := ∃ calls, c' = c.after calls

theorem Follows.reachable (h : c'.Follows c) (hc : c.Reachable) : c'.Reachable := by
  obtain ⟨calls, rfl⟩ := h
  exact hc.after calls

theorem Follows.mem (h : c'.Follows (c.push l)) : l ∈ c'.layouts := by
  obtain ⟨calls, rfl⟩ := h
  have hpush : l ∈ (c.push l).layouts := by simp [push]
  exact (layouts_prefix_after (c.push l) calls).subset hpush

/-- A field is found in every spelling that comes to the keys of its scope and its name. -/
theorem Consistent.find_field (hc : c.Consistent) (hl : l ∈ c.layouts) {i : Nat} {f : Field}
    (hf : l.fields[i]? = some f) {scope name : String} (hscope : l.scope = l.kind.key scope)
    (hname : f.name = l.kind.key name) :
    c.typeOf scope name = .ok f.type ∧ c.positionOf scope name = .ok i := by
  refine (hc.lookup_iff (hc.layout_eq_ok_iff.2 ⟨hl, hscope⟩)).2 ?_
  have hposition : f.position = i := (hc.wellFormed l hl).positions i f hf
  rw [hf, ← hname, ← hposition]

/-! ## Views -/

/-- An output of a view that has been registered is recorded with the type that it has, and found
under its name from then on. -/
theorem Reachable.find_output (h : c.Reachable) {name : String} {select : List Expr}
    {types : List ValueType}
    (htypes : (c.perform (.registerView name select)).answer = .tuple types)
    {i : Nat} {e : Expr} (he : select[i]? = some e) :
    ∃ field t, e.fieldName? = some field ∧ c.infer e = .ok t ∧ types[i]? = some t ∧
      ∀ (c' : Catalog) (name' field' : String),
        c'.Follows (c.perform (.registerView name select)).catalog →
        Name.normalize name' = Name.normalize name → Name.normalize field' = field →
        c'.typeOf name' field' = .ok t ∧ c'.positionOf name' field' = .ok i := by
  obtain ⟨l, hl, rfl⟩ := answer_enter_eq_tuple.1 htypes
  obtain ⟨-, -, hview⟩ := (viewLayout_iff (v := ⟨name, select⟩)).1 hl
  obtain ⟨f, hf, hname, ht⟩ := exists_of_rel (rel_getElem? hview.fields i) he
  have htype : l.types[i]? = some f.type := by simp [Layout.types, hf]
  refine ⟨f.name, f.type, hname, ht, htype, fun c' name' field' hc' hname' hfield' => ?_⟩
  have hcatalog : (c.perform (.registerView name select)).catalog = c.push l := (enter_ok hl).1
  rw [hcatalog] at hc'
  have hreach : (c.push l).Reachable := h.push (.view ⟨name, select⟩ hl)
  refine (hc'.reachable hreach).consistent.find_field hc'.mem hf ?_ ?_
  · rw [hview.kind, hview.scope]
    exact hname'.symm
  · rw [hview.kind]
    exact hfield'.symm

/-- **What the registration of a view comes to.** It enters exactly if its name is free and its
outputs have names and types; it is refused for its name before any output, and then for the first
faulty one. -/
theorem registerView_outcome (h : c.Reachable) (name : String) (select : List Expr) :
    ((∃ types, (c.perform (.registerView name select)).answer = .tuple types) ↔
      ¬ c.Taken name ∧
      (∀ e ∈ select, (∃ e' name', e = .aliased e' name') ∨ ∃ ref, e = .column ref) ∧
      (∀ e ∈ select, ∃ t, c.infer e = .ok t) ∧ (select.filterMap Expr.fieldName?).Nodup) ∧
    (∀ types, (c.perform (.registerView name select)).answer = .tuple types →
      c.inferTuple select = .ok types ∧
      ∀ (i : Nat) (e : Expr), select[i]? = some e →
        ∃ field t, e.fieldName? = some field ∧ types[i]? = some t ∧
        ∀ (c' : Catalog) (name' field' : String),
          c'.Follows (c.perform (.registerView name select)).catalog →
          Name.normalize name' = Name.normalize name → Name.normalize field' = field →
          c'.typeOf name' field' = .ok t ∧ c'.positionOf name' field' = .ok i) ∧
    ∀ d, (c.perform (.registerView name select)).answer = .refused d ↔
      c.Taken name ∧ d = .scopeAlreadyRegistered (Name.normalize name) ∨
        ¬ c.Taken name ∧ c.firstOutputFault? (Name.normalize name) select = some d := by
  refine ⟨exists_answer_enter.trans exists_viewLayout_iff, fun types htypes => ⟨?_, ?_⟩,
    fun d => answer_enter_eq_refused.trans viewLayout_eq_error⟩
  · obtain ⟨l, hl, rfl⟩ := answer_enter_eq_tuple.1 htypes
    obtain ⟨-, -, hview⟩ := (viewLayout_iff (v := ⟨name, select⟩)).1 hl
    apply inferTuple_of_forall₂
    exact List.forall₂_map_right_iff.2 (hview.fields.imp fun _ _ hf => hf.2)
  · intro i e he
    obtain ⟨field, t, hname, -, ht, hfind⟩ := h.find_output htypes he
    exact ⟨field, t, hname, ht, hfind⟩

def flagOutputs : List Expr :=
  [.aliased (.column ⟨"ids", ⟨"Ready", .long, false⟩⟩) "up",
    .column ⟨"node", ⟨"id", .string, false⟩⟩]

/-- Three faulty outputs behind one that is not: the first of them has no type and a name that is
there already, the second no name, the third no name and no type. -/
def faultyOutputs : List Expr :=
  [.column ⟨"node", ⟨"id", .string, false⟩⟩, .aliased (.literal .null) "Id",
    .unary .minus (.literal (.int 1)), .literal .null]

/-- The outputs of the first list are found in any case, those of the second list are refused for
what has no type. -/
theorem registerView_outcome_flags :
    nodeCatalog.Reachable ∧
      (∃ types, (nodeCatalog.perform (.registerView "flags" flagOutputs)).answer = .tuple types) ∧
      (nodeCatalog.perform (.registerView "flags" flagOutputs)).catalog.positionOf "FLAGS" "iD" =
        .ok 1 ∧
      (nodeCatalog.perform (.registerView "flags" faultyOutputs)).answer =
        .refused (.unsupportedLiteral "NULL") := by
  have hreach : nodeCatalog.Reachable := ⟨nodeCalls, rfl⟩
  obtain ⟨haccepted, hrecorded, -⟩ := registerView_outcome hreach "flags" flagOutputs
  obtain ⟨-, -, hrefused⟩ := registerView_outcome hreach "flags" faultyOutputs
  have htypes : ∃ types,
      (nodeCatalog.perform (.registerView "flags" flagOutputs)).answer = .tuple types := by
    refine haccepted.2 ⟨by decide, ?_, ?_, by decide⟩
    · simp [flagOutputs]
    · intro e he
      rcases List.mem_pair.1 he with rfl | rfl
      · exact ⟨.bool, by decide⟩
      · exact ⟨.string, by decide⟩
  refine ⟨hreach, htypes, ?_, (hrefused _).2 (.inr (by decide))⟩
  obtain ⟨types, htuple⟩ := htypes
  obtain ⟨field, t, hfield, -, hfind⟩ := (hrecorded types htuple).2 1 _ rfl
  exact (hfind _ "FLAGS" "iD" ⟨[], rfl⟩ (by decide) (Option.some.inj hfield)).2

/-! ## Tables -/

theorem exists_tableLayout_iff {t : Table} : (∃ l, (c.tableLayout t).result = .ok l) ↔
    (∀ l ∈ c.layouts, l.kind = .table → l.scope ≠ t.name) ∧
    (∀ l ∈ c.layouts, l.kind = .view → l.scope ≠ Name.normalize t.name) ∧
    (t.columns.map Column.name).Nodup := by
  simp only [tableLayout_iff, exists_and_left, Table.exists_layout_iff, table?_eq_none,
    isView_eq_false, view?_eq_none]

/-- **A reference to a table's column has the type of the column**: no view is in the way of the
table. -/
theorem Consistent.columnType_of_table (hc : c.Consistent) (hl : l ∈ c.layouts)
    (hk : l.kind = .table) (column : Column) :
    c.columnType ⟨l.scope, column⟩ = .ok (.ofColumn column) := by
  have htable : c.table? l.scope = some l := hc.table?_eq_some_iff.2 ⟨hl, hk, rfl⟩
  have hview : c.view? l.scope = none := by
    cases hv : c.view? l.scope with
    | none => rfl
    | some v =>
      rw [hc.table?_of_view? hv] at htable
      cases htable
  unfold columnType ValueType.ofColumn
  rw [isView_eq_false.2 hview]
  split <;> rfl

/-- **What the registration of a table comes to.** It enters exactly if its name is free and its
columns have different names, and a column then has one type wherever it is asked for. -/
theorem registerTable_outcome (h : c.Reachable) (t : Table) :
    ((∃ types, (c.perform (.registerTable t)).answer = .tuple types) ↔
      (∀ l ∈ c.layouts, l.kind = .table → l.scope ≠ t.name) ∧
      (∀ l ∈ c.layouts, l.kind = .view → l.scope ≠ Name.normalize t.name) ∧
      (t.columns.map Column.name).Nodup) ∧
    ∀ types, (c.perform (.registerTable t)).answer = .tuple types →
      ∀ c' : Catalog, c'.Follows (c.perform (.registerTable t)).catalog →
      ∀ (i : Nat) (column : Column), t.columns[i]? = some column →
        c'.infer (.column ⟨t.name, column⟩) = .ok (.ofColumn column) ∧
        c'.typeOf t.name column.name = .ok (.ofColumn column) ∧
        c'.positionOf t.name column.name = .ok i ∧
        ∀ (view name : String) (select : List Expr) (j : Nat) (types' : List ValueType),
          select[j]? = some (.aliased (.column ⟨t.name, column⟩) name) →
          (c'.perform (.registerView view select)).answer = .tuple types' →
          types'[j]? = some (.ofColumn column) ∧
          ∀ c'' : Catalog, c''.Follows (c'.perform (.registerView view select)).catalog →
            c''.typeOf view name = .ok (.ofColumn column) := by
  refine ⟨exists_answer_enter.trans exists_tableLayout_iff, ?_⟩
  intro types htypes c' hc' i column hi
  obtain ⟨l, hl, -⟩ := answer_enter_eq_tuple.1 htypes
  obtain ⟨-, -, htable⟩ := tableLayout_iff.1 hl
  have hcatalog : (c.perform (.registerTable t)).catalog = c.push l := (enter_ok hl).1
  rw [hcatalog] at hc'
  have hreach : c'.Reachable := hc'.reachable (h.push (.table t hl))
  have hcolumn : c'.columnType ⟨t.name, column⟩ = .ok (.ofColumn column) :=
    htable.scope ▸ hreach.consistent.columnType_of_table hc'.mem htable.kind column
  obtain ⟨f, hf, hname, htype⟩ := exists_of_rel (rel_getElem? htable.fields i) hi
  have hfind : c'.typeOf t.name column.name = .ok (.ofColumn column) ∧
      c'.positionOf t.name column.name = .ok i := by
    rw [← htype]
    apply hreach.consistent.find_field hc'.mem hf
    · rw [htable.kind, htable.scope]
      rfl
    · rw [htable.kind, hname]
      rfl
  refine ⟨hcolumn, hfind.1, hfind.2, ?_⟩
  intro view name select j types' hj htypes'
  obtain ⟨field, t', hfield, ht', hlisted, hlater⟩ := hreach.find_output htypes' hj
  obtain rfl : t' = .ofColumn column := Except.ok.inj (ht'.symm.trans hcolumn)
  exact ⟨hlisted, fun c'' hc'' => (hlater c'' view name hc'' rfl (Option.some.inj hfield)).1⟩

def podTable : Table := ⟨"pods", [⟨"cpu", .long, false⟩, ⟨"host", .string, true⟩]⟩

/-- The table has been registered, and a view that would have taken its name in another case has
been refused. -/
def podTableCatalog : Catalog :=
  (nodeCatalog.perform (.registerTable podTable)).catalog.after
    [.registerView "Pods" [.aliased (.literal (.bool true)) "cpu"]]

def hostOutputs : List Expr :=
  [.aliased (.literal (.int 1)) "one", .aliased (.column ⟨"pods", ⟨"host", .string, true⟩⟩) "h"]

/-- A reference to the table is not taken for one to the view, and the controllable column is an
integer variable in a later view too. -/
theorem registerTable_outcome_pods :
    nodeCatalog.Reachable ∧
      (∃ types, (nodeCatalog.perform (.registerTable podTable)).answer = .tuple types) ∧
      podTableCatalog.infer (.column ⟨"pods", ⟨"cpu", .long, false⟩⟩) = .ok .long ∧
      (podTableCatalog.perform (.registerView "hosts" hostOutputs)).catalog.typeOf "hosts" "h" =
        .ok .intVar := by
  have hreach : nodeCatalog.Reachable := ⟨nodeCalls, rfl⟩
  obtain ⟨haccepted, hcolumns⟩ := registerTable_outcome hreach podTable
  have htypes : ∃ types,
      (nodeCatalog.perform (.registerTable podTable)).answer = .tuple types :=
    haccepted.2 (by decide)
  refine ⟨hreach, htypes, ?_⟩
  obtain ⟨types, htuple⟩ := htypes
  have hlater : podTableCatalog.Follows (nodeCatalog.perform (.registerTable podTable)).catalog :=
    ⟨_, rfl⟩
  have hview : (podTableCatalog.perform (.registerView "hosts" hostOutputs)).answer =
      .tuple [.integer, .intVar] := by decide +kernel
  obtain ⟨hcpu, -⟩ := hcolumns types htuple _ hlater 0 _ rfl
  obtain ⟨-, -, -, hhost⟩ := hcolumns types htuple _ hlater 1 _ rfl
  exact ⟨hcpu, (hhost "hosts" "h" hostOutputs 1 _ rfl hview).2 _ ⟨[], rfl⟩⟩

end Catalog

end ViewTyping
