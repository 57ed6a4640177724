import Mathlib.Data.List.Nodup
import Mathlib.Data.List.Pairwise
import ViewTyping.Catalog.Call
import ViewTyping.Proofs.Registration

/-!
# Catalogs and their histories

A catalog is empty at first and is changed by calls, some of which are refused
(`Catalog.after`, `Catalog.Reachable`). All that a call can do to it is to enter one more layout at
the end (`catalog_perform`), so what is kept when a layout enters is kept by every history
(`after_induct`).

Tables and views guard their names in different ways: a table looks for its name as written among
tables and for its normalized name among views, a view for its normalized name among both. In a
consistent catalog (`Catalog.Consistent`) both guards come to one condition: no scope clashes with
the new one (`Layout.Clashes`, `tableLayout_iff_free`, `viewLayout_iff_free`).

* `Reachable.consistent`: every history leaves a consistent catalog.
* `layout_eq_ok_iff`: a consistent catalog finds a scope exactly if it is listed under that name;
  which scope is found does not depend on the order of the layouts.
* `Reachable.answers_kept`: later calls leave every answer that has been given.
-/

set_option autoImplicit false

namespace ViewTyping

theorem exceptMap_eq_ok {ε α β : Type} {x : Except ε α} {f : α → β} {b : β} :
    x.map f = .ok b ↔ ∃ a, x = .ok a ∧ f a = b := by
  cases x <;> simp [Except.map]

theorem find?_eq_some_of_unique {α : Type} {q : α → Bool} {xs : List α} {x : α} (hx : x ∈ xs)
    (hq : q x = true) (hunique : ∀ y ∈ xs, q y = true → y = x) : xs.find? q = some x := by
  cases h : xs.find? q with
  | none => exact absurd hq (List.find?_eq_none.1 h x hx)
  | some y => rw [hunique y (List.mem_of_find?_eq_some h) (List.find?_some h)]

/-- Outputs are named by normalized names. -/
theorem Expr.normalize_fieldName {e : Expr} {name : String} (h : e.fieldName? = some name) :
    Name.normalize name = name := by
  cases e with
  | aliased e name => cases h; exact normalize_normalize _
  | column ref => cases h; exact normalize_normalize _
  | _ => cases h

/-- The form in which a scope and its fields are stored: tables and their columns as written,
views and their fields normalized. -/
def ScopeKind.key : ScopeKind → String → String
  | table, name => name
  | view, name => Name.normalize name

/-! ## Scopes that clash -/

namespace Layout

variable {l l' : Layout}

/-- Scopes that cannot both be in a catalog: two of a kind that are stored under one name, or a
table and a view whose names differ at most by case. -/
def Clashes (l l' : Layout) : Prop :=
  if l.kind = l'.kind then l.scope = l'.scope
  else Name.normalize l.scope = Name.normalize l'.scope

theorem clashes_iff_of_eq (h : l.kind = l'.kind) : l.Clashes l' ↔ l.scope = l'.scope := by
  rw [Clashes, if_pos h]

theorem clashes_iff_of_ne (h : l.kind ≠ l'.kind) :
    l.Clashes l' ↔ Name.normalize l.scope = Name.normalize l'.scope := by
  rw [Clashes, if_neg h]

theorem Clashes.symm (h : l.Clashes l') : l'.Clashes l := by
  by_cases hk : l.kind = l'.kind
  · exact (clashes_iff_of_eq hk.symm).2 ((clashes_iff_of_eq hk).1 h).symm
  · exact (clashes_iff_of_ne (Ne.symm hk)).2 ((clashes_iff_of_ne hk).1 h).symm

instance : Std.Symm fun l l' : Layout => ¬ l.Clashes l' := ⟨fun _ _ h h' => h h'.symm⟩

/-- The scope and its fields are stored under keys. -/
structure Normalized (l : Layout) : Prop where
  scope : l.kind.key l.scope = l.scope
  fields : ∀ f ∈ l.fields, l.kind.key f.name = f.name

theorem Normalized.view (h : l.Normalized) (hk : l.kind = .view) :
    Name.normalize l.scope = l.scope := by
  have := h.scope
  rwa [hk] at this

/-- The types of a scope's fields, by name. -/
def type? (l : Layout) (name : String) : Option ValueType := (l.field? name).map Field.type

/-- The field that is found under a name is the one that is listed, at its position. -/
theorem WellFormed.field?_eq_some_iff (hl : l.WellFormed) {name : String} {f : Field} :
    l.field? name = some f ↔ l.fields[f.position]? = some f ∧ f.name = name := by
  constructor
  · intro h
    obtain ⟨i, hi⟩ := List.mem_iff_getElem?.1 (List.mem_of_find?_eq_some h)
    obtain rfl := hl.positions i f hi
    exact ⟨hi, by simpa using List.find?_some h⟩
  · rintro ⟨hf, rfl⟩
    exact hl.field?_eq (List.mem_of_getElem? hf)

end Layout

theorem Table.HasLayout.normalized {t : Table} {l : Layout} (h : t.HasLayout l) :
    l.Normalized := by
  constructor
  · rw [h.kind]; rfl
  · intro f _
    rw [h.kind]
    rfl

theorem View.HasLayout.normalized {column : ColumnRef → Except Diagnostic ValueType} {v : View}
    {l : Layout} (h : v.HasLayout column l) : l.Normalized := by
  constructor
  · rw [h.kind, h.scope]
    exact normalize_normalize v.name
  · intro f hf
    obtain ⟨e, -, hname, -⟩ := exists_mem_left h.fields hf
    rw [h.kind]
    exact e.normalize_fieldName hname

namespace Catalog

variable {c c' : Catalog} {l : Layout}

/-! ## Consistent catalogs -/

/-- Every scope is well formed and stored under keys, and no two clash. -/
structure Consistent (c : Catalog) : Prop where
  wellFormed : ∀ l ∈ c.layouts, l.WellFormed
  normalized : ∀ l ∈ c.layouts, l.Normalized
  apart : c.layouts.Pairwise fun l l' => ¬ l.Clashes l'

/-- No scope of the catalog clashes with the layout. -/
def Free (c : Catalog) (l : Layout) : Prop := ∀ l' ∈ c.layouts, ¬ l'.Clashes l

theorem consistent_empty : Consistent {} :=
  ⟨fun _ h => (by cases h), fun _ h => (by cases h), .nil⟩

theorem Consistent.push (hc : c.Consistent) (hwf : l.WellFormed) (hn : l.Normalized)
    (hfree : c.Free l) : (c.push l).Consistent := by
  refine ⟨fun l' hl' => ?_, fun l' hl' => ?_, ?_⟩
  · rcases List.mem_append.1 hl' with hl' | hl'
    · exact hc.wellFormed l' hl'
    · exact List.mem_singleton.1 hl' ▸ hwf
  · rcases List.mem_append.1 hl' with hl' | hl'
    · exact hc.normalized l' hl'
    · exact List.mem_singleton.1 hl' ▸ hn
  · refine List.pairwise_append.2 ⟨hc.apart, List.pairwise_singleton _ _, fun l₁ hl₁ l₂ hl₂ => ?_⟩
    rw [List.mem_singleton.1 hl₂]
    exact hfree l₁ hl₁

theorem Consistent.eq_of_clashes (hc : c.Consistent) {l' : Layout} (hl : l ∈ c.layouts)
    (hl' : l' ∈ c.layouts) (h : l.Clashes l') : l = l' := by
  by_contra hne
  exact hc.apart.forall hl hl' hne h

/-! ### What the guards come to -/

theorem free_iff : c.Free l ↔
    (∀ l' ∈ c.layouts, l'.kind = l.kind → l'.scope ≠ l.scope) ∧
      ∀ l' ∈ c.layouts, l'.kind ≠ l.kind → Name.normalize l'.scope ≠ Name.normalize l.scope := by
  constructor
  · intro h
    exact ⟨fun l' hl' hk hs => h l' hl' ((Layout.clashes_iff_of_eq hk).2 hs),
      fun l' hl' hk hs => h l' hl' ((Layout.clashes_iff_of_ne hk).2 hs)⟩
  · rintro ⟨hsame, hother⟩ l' hl' hclash
    by_cases hk : l'.kind = l.kind
    · exact hsame l' hl' hk ((Layout.clashes_iff_of_eq hk).1 hclash)
    · exact hother l' hl' hk ((Layout.clashes_iff_of_ne hk).1 hclash)

theorem Consistent.free_iff_of_table (hc : c.Consistent) (hk : l.kind = .table) :
    c.Free l ↔ c.table? l.scope = none ∧ c.isView l.scope = false := by
  rw [free_iff, table?_eq_none, isView_eq_false, view?_eq_none, hk]
  refine and_congr_right fun _ => forall₂_congr fun l' hl' => ?_
  cases hk' : l'.kind with
  | table => simp
  | view =>
    -- the key of a view is normalized already, so it is compared as it is
    rw [(hc.normalized l' hl').view hk']
    simp

theorem free_iff_of_view (hk : l.kind = .view) (hn : l.Normalized) :
    c.Free l ↔ c.isView l.scope = false ∧ c.namesTable l.scope = false := by
  rw [free_iff, isView_eq_false, view?_eq_none, namesTable_eq_false, hn.view hk, hk]
  refine and_congr_right fun _ => forall₂_congr fun l' _ => ?_
  cases hk' : l'.kind <;> simp

/-- **A table enters exactly if no scope clashes with it.** -/
theorem Consistent.tableLayout_iff_free (hc : c.Consistent) {t : Table} :
    (c.tableLayout t).result = .ok l ↔ t.HasLayout l ∧ c.Free l := by
  rw [tableLayout_iff]
  constructor
  · rintro ⟨htable, hview, hl⟩
    exact ⟨hl, (hc.free_iff_of_table hl.kind).2 (hl.scope ▸ ⟨htable, hview⟩)⟩
  · rintro ⟨hl, hfree⟩
    obtain ⟨htable, hview⟩ := (hc.free_iff_of_table hl.kind).1 hfree
    exact ⟨hl.scope ▸ htable, hl.scope ▸ hview, hl⟩

/-- **A view enters exactly if no scope clashes with it.** -/
theorem viewLayout_iff_free {v : View} :
    (c.viewLayout v.name v.select).result = .ok l ↔ v.HasLayout c.columnType l ∧ c.Free l := by
  have hguard (hl : v.HasLayout c.columnType l) :
      c.Free l ↔ c.isView v.name = false ∧ c.namesTable v.name = false := by
    rw [free_iff_of_view hl.kind hl.normalized, hl.scope, View.key, isView_normalize,
      namesTable_normalize]
  rw [viewLayout_iff]
  constructor
  · rintro ⟨hview, htable, hl⟩
    exact ⟨hl, (hguard hl).2 ⟨hview, htable⟩⟩
  · rintro ⟨hl, hfree⟩
    obtain ⟨hview, htable⟩ := (hguard hl).1 hfree
    exact ⟨hview, htable, hl⟩

/-! ### Look-ups -/

theorem Consistent.table?_eq_some_iff (hc : c.Consistent) {name : String} :
    c.table? name = some l ↔ l ∈ c.layouts ∧ l.kind = .table ∧ l.scope = name := by
  constructor
  · intro h
    have hfound := List.find?_some h
    simp only [Bool.and_eq_true, beq_iff_eq] at hfound
    exact ⟨List.mem_of_find?_eq_some h, hfound⟩
  · rintro ⟨hl, hk, rfl⟩
    refine find?_eq_some_of_unique hl (by simp [hk]) fun l' hl' hfound => ?_
    simp only [Bool.and_eq_true, beq_iff_eq] at hfound
    exact hc.eq_of_clashes hl' hl ((Layout.clashes_iff_of_eq (hfound.1.trans hk.symm)).2 hfound.2)

theorem Consistent.view?_eq_some_iff (hc : c.Consistent) {name : String} :
    c.view? name = some l ↔ l ∈ c.layouts ∧ l.kind = .view ∧ l.scope = Name.normalize name := by
  refine ⟨view?_eq_some, fun ⟨hl, hk, hs⟩ => ?_⟩
  refine find?_eq_some_of_unique hl (by simp [hk, hs]) fun l' hl' hfound => ?_
  simp only [Bool.and_eq_true, beq_iff_eq] at hfound
  exact hc.eq_of_clashes hl' hl
    ((Layout.clashes_iff_of_eq (hfound.1.trans hk.symm)).2 (hfound.2.trans hs.symm))

/-- No table is in the way of a view. -/
theorem Consistent.table?_of_view? (hc : c.Consistent) {name : String}
    (h : c.view? name = some l) : c.table? name = none := by
  obtain ⟨hl, hk, hs⟩ := view?_eq_some h
  refine table?_eq_none.2 fun t ht hk' hs' => ?_
  have hclash : t.Clashes l := by
    refine (Layout.clashes_iff_of_ne (by simp [hk, hk'])).2 ?_
    rw [hs, hs', normalize_normalize]
  have := hc.eq_of_clashes ht hl hclash
  rw [this, hk] at hk'
  cases hk'

/-- **A scope is found exactly if it is listed**, under its key. -/
theorem Consistent.layout_eq_ok_iff (hc : c.Consistent) {scope : String} :
    c.layout scope = .ok l ↔ l ∈ c.layouts ∧ l.scope = l.kind.key scope := by
  constructor
  · intro h
    unfold layout at h
    cases ht : c.table? scope with
    | some t =>
      rw [ht] at h
      cases h
      obtain ⟨hl, hk, hs⟩ := hc.table?_eq_some_iff.1 ht
      rw [hk]
      exact ⟨hl, hs⟩
    | none =>
      rw [ht] at h
      cases hv : c.view? scope with
      | none => rw [hv] at h; cases h
      | some v =>
        rw [hv] at h
        cases h
        obtain ⟨hl, hk, hs⟩ := view?_eq_some hv
        rw [hk]
        exact ⟨hl, hs⟩
  · rintro ⟨hl, hkey⟩
    cases hk : l.kind with
    | table =>
      rw [hk] at hkey
      have ht : c.table? scope = some l := hc.table?_eq_some_iff.2 ⟨hl, hk, hkey⟩
      simp only [layout, ht]
    | view =>
      rw [hk] at hkey
      have hv : c.view? scope = some l := hc.view?_eq_some_iff.2 ⟨hl, hk, hkey⟩
      simp only [layout, hc.table?_of_view? hv, hv]

theorem Consistent.layout_of_mem (hc : c.Consistent) (hl : l ∈ c.layouts) :
    c.layout l.scope = .ok l :=
  hc.layout_eq_ok_iff.2 ⟨hl, (hc.normalized l hl).scope.symm⟩

/-- A field is found exactly if its scope is and lists it, under its key. -/
theorem field_eq_ok_iff {scope name : String} {f : Field} : c.field scope name = .ok f ↔
    ∃ l, c.layout scope = .ok l ∧ l.field? (l.kind.key name) = some f := by
  have hkey (l : Layout) : (if l.kind = .view then Name.normalize name else name) =
      l.kind.key name := by
    cases hk : l.kind <;> simp [ScopeKind.key]
  unfold field
  cases c.layout scope with
  | error d => simp
  | ok l =>
    simp only [hkey, Except.ok.injEq, exists_eq_left']
    cases l.field? (l.kind.key name) <;> simp

theorem typeOf_eq_ok_iff {scope name : String} {t : ValueType} : c.typeOf scope name = .ok t ↔
    ∃ f, c.field scope name = .ok f ∧ f.type = t :=
  exceptMap_eq_ok

theorem positionOf_eq_ok_iff {scope name : String} {i : Nat} :
    c.positionOf scope name = .ok i ↔ ∃ f, c.field scope name = .ok f ∧ f.position = i :=
  exceptMap_eq_ok

theorem isView_iff {name : String} : c.isView name = true ↔
    ∃ l ∈ c.layouts, l.kind = .view ∧ l.scope = Name.normalize name := by
  rw [isView, view?, List.find?_isSome]
  simp

/-- A field of a view has the type that the view's layout gives to its name. -/
theorem Consistent.typeOf_of_view? (hc : c.Consistent) {scope : String}
    (h : c.view? scope = some l) (name : String) : c.typeOf scope name =
      (l.type? (Name.normalize name)).elim
        (.error (.unknownField (Name.normalize scope) name)) .ok := by
  obtain ⟨-, hk, hs⟩ := view?_eq_some h
  unfold typeOf field layout Layout.type?
  simp only [hc.table?_of_view? h, h, hk, if_true, hs]
  cases l.field? (Name.normalize name) <;> rfl

/-- **The type of a column depends on the view of its table's name only**, and of that on the types
of the fields: a table of that name is looked for first, but is never there if the view is. -/
theorem Consistent.columnType_eq_of_types (hc : c.Consistent) (hc' : c'.Consistent)
    {ref : ColumnRef}
    (h : (c.view? ref.table).map Layout.type? = (c'.view? ref.table).map Layout.type?) :
    c.columnType ref = c'.columnType ref := by
  unfold columnType isView
  cases hv : c.view? ref.table with
  | none =>
    rw [hv] at h
    rw [Option.map_eq_none_iff.1 h.symm]
    rfl
  | some l =>
    rw [hv] at h
    obtain ⟨l', hv', htypes⟩ := Option.map_eq_some_iff.1 h.symm
    rw [hv', hc.typeOf_of_view? hv, hc'.typeOf_of_view? hv', htypes]
    rfl

theorem Consistent.columnType_eq_of_view? (hc : c.Consistent) (hc' : c'.Consistent)
    {ref : ColumnRef} (hv : c.view? ref.table = c'.view? ref.table) :
    c.columnType ref = c'.columnType ref :=
  hc.columnType_eq_of_types hc' (congrArg _ hv)

/-! ## Histories -/

/-- The catalog after calls that are made one after the other. -/
def after (c : Catalog) (calls : List Call) : Catalog :=
  calls.foldl (fun c call => (c.perform call).catalog) c

/-- A catalog that calls lead to from the empty one. -/
def Reachable (c : Catalog) : Prop := ∃ calls, c = ({} : Catalog).after calls

theorem after_append (c : Catalog) (calls calls' : List Call) :
    c.after (calls ++ calls') = (c.after calls).after calls' := List.foldl_append

theorem Reachable.after (h : c.Reachable) (calls : List Call) : (c.after calls).Reachable := by
  obtain ⟨calls₀, rfl⟩ := h
  exact ⟨calls₀ ++ calls, (after_append _ _ _).symm⟩

/-- The layout is one that the catalog gives to a table or to a view. -/
inductive Grants (c : Catalog) (l : Layout) : Prop
  | table (t : Table) (h : (c.tableLayout t).result = .ok l)
  | view (v : View) (h : (c.viewLayout v.name v.select).result = .ok l)

/-- **All that a call can do to a catalog.** -/
theorem catalog_perform (c : Catalog) (call : Call) :
    (c.perform call).catalog = c ∨
      ∃ l, c.Grants l ∧ (c.perform call).catalog = c.push l := by
  cases call with
  | registerTable t =>
    simp only [perform, enter]
    cases h : (c.tableLayout t).result with
    | error d => exact .inl rfl
    | ok l => exact .inr ⟨l, .table t h, rfl⟩
  | registerView name select =>
    simp only [perform, enter]
    cases h : (c.viewLayout name select).result with
    | error d => exact .inl rfl
    | ok l => exact .inr ⟨l, .view ⟨name, select⟩ h, rfl⟩
  | _ => exact .inl rfl

/-- A layout that is granted is entered, and its types are the answer. -/
theorem enter_ok {layout : Logged Layout} (h : layout.result = .ok l) :
    (c.enter layout).catalog = c.push l ∧ (c.enter layout).answer = .tuple l.types := by
  simp [enter, h, afterRegistration, Answer.ofResult]

theorem Reachable.push (h : c.Reachable) (hl : c.Grants l) : (c.push l).Reachable := by
  cases hl with
  | table t hl =>
    have hcall : c.after [.registerTable t] = c.push l := (enter_ok hl).1
    exact hcall ▸ h.after _
  | view v hl =>
    have hcall : c.after [.registerView v.name v.select] = c.push l := (enter_ok hl).1
    exact hcall ▸ h.after _

/-- **What is kept when a layout enters is kept by every history.** -/
theorem after_induct {P : Catalog → Prop} (hpush : ∀ c l, P c → c.Grants l → P (c.push l)) :
    ∀ (calls : List Call) {c : Catalog}, P c → P (c.after calls)
  | [], _, hc => hc
  | call :: calls, c, hc => by
    have hstep : P (c.perform call).catalog := by
      rcases catalog_perform c call with h | ⟨l, hl, h⟩
      · rwa [h]
      · rw [h]
        exact hpush c l hc hl
    exact after_induct hpush calls hstep

theorem Consistent.grants (hc : c.Consistent) (h : c.Grants l) :
    l.WellFormed ∧ l.Normalized ∧ c.Free l := by
  cases h with
  | table t h =>
    obtain ⟨hl, hfree⟩ := hc.tableLayout_iff_free.1 h
    exact ⟨hl.wellFormed, hl.normalized, hfree⟩
  | view v h =>
    obtain ⟨hl, hfree⟩ := viewLayout_iff_free.1 h
    exact ⟨hl.wellFormed, hl.normalized, hfree⟩

/-- **Every history leaves a consistent catalog.** -/
theorem Reachable.consistent (h : c.Reachable) : c.Consistent := by
  obtain ⟨calls, rfl⟩ := h
  refine after_induct (fun c l hc hl => ?_) calls consistent_empty
  obtain ⟨hwf, hn, hfree⟩ := hc.grants hl
  exact hc.push hwf hn hfree

theorem layouts_prefix_after (c : Catalog) (calls : List Call) :
    c.layouts <+: (c.after calls).layouts :=
  after_induct (P := fun c' => c.layouts <+: c'.layouts)
    (fun _ _ h _ => h.trans (List.prefix_append _ _)) calls List.prefix_rfl

/-- The kinds and keys of the scopes, in the order in which they were registered. -/
def order (c : Catalog) : List (ScopeKind × String) := c.layouts.map fun l => (l.kind, l.scope)

theorem mem_order {kind : ScopeKind} {key : String} :
    (kind, key) ∈ c.order ↔ ∃ l ∈ c.layouts, l.kind = kind ∧ l.scope = key := by
  simp [order]

theorem Consistent.nodup_order (hc : c.Consistent) : c.order.Nodup := by
  refine List.pairwise_map.2 (hc.apart.imp fun hclash heq => hclash ?_)
  obtain ⟨hk, hs⟩ := Prod.mk.inj heq
  exact (Layout.clashes_iff_of_eq hk).2 hs

/-- Calls of which some are refused: a view that has the name of a table in another case, a view of
which two fields have one name, and a table that has the name of a view in another case. Two tables
whose names differ by case only are not. -/
def nodeCalls : List Call :=
  [.registerTable ⟨"node", [⟨"id", .string, false⟩, ⟨"ID", .bool, true⟩]⟩,
    .registerTable ⟨"Node", [⟨"id", .long, false⟩]⟩,
    .registerView "NODE" [.aliased (.literal (.int 1)) "one"],
    .registerView "ids" [.column ⟨"node", ⟨"id", .string, false⟩⟩,
      .aliased (.literal (.bool true)) "Id"],
    .registerView "ids" [.column ⟨"node", ⟨"id", .string, false⟩⟩,
      .aliased (.literal (.bool true)) "ready"],
    .registerTable ⟨"Ids", [⟨"id", .long, false⟩]⟩]

def nodeCatalog : Catalog :=
  ⟨[⟨"node", .table, [⟨"id", 0, .string⟩, ⟨"ID", 1, .intVar⟩]⟩,
    ⟨"Node", .table, [⟨"id", 0, .long⟩]⟩,
    ⟨"IDS", .view, [⟨"ID", 0, .string⟩, ⟨"READY", 1, .bool⟩]⟩]⟩

/-! ## Later calls -/

/-- A larger catalog finds every scope that is found, and the same one. -/
theorem Consistent.layout_of_subset (hc : c.Consistent) (hc' : c'.Consistent)
    (hsub : c.layouts ⊆ c'.layouts) {scope : String} (h : c.layout scope = .ok l) :
    c'.layout scope = .ok l := by
  obtain ⟨hl, hkey⟩ := hc.layout_eq_ok_iff.1 h
  exact hc'.layout_eq_ok_iff.2 ⟨hsub hl, hkey⟩

theorem field_of_layout (hlayout : ∀ scope l, c.layout scope = .ok l → c'.layout scope = .ok l)
    {scope name : String} {f : Field} (h : c.field scope name = .ok f) :
    c'.field scope name = .ok f := by
  obtain ⟨l, hl, hf⟩ := field_eq_ok_iff.1 h
  exact field_eq_ok_iff.2 ⟨l, hlayout scope l hl, hf⟩

/-- **Later calls leave every answer that has been given**, under whatever spelling it was asked
for: no scope that is added takes the place of one that is found. -/
theorem Reachable.answers_kept (h : c.Reachable) (calls : List Call) :
    c.layouts <+: (c.after calls).layouts ∧
    (∀ scope l, c.layout scope = .ok l → (c.after calls).layout scope = .ok l) ∧
    (∀ scope name t, c.typeOf scope name = .ok t → (c.after calls).typeOf scope name = .ok t) ∧
    (∀ scope name i, c.positionOf scope name = .ok i →
      (c.after calls).positionOf scope name = .ok i) ∧
    ∀ name, c.isView name = true → (c.after calls).isView name = true := by
  have hpre := layouts_prefix_after c calls
  have hlayout : ∀ scope l, c.layout scope = .ok l → (c.after calls).layout scope = .ok l :=
    fun scope l => h.consistent.layout_of_subset (h.after calls).consistent hpre.subset
  refine ⟨hpre, hlayout, fun scope name t ht => ?_, fun scope name i hi => ?_, fun name hv => ?_⟩
  · obtain ⟨f, hf, rfl⟩ := typeOf_eq_ok_iff.1 ht
    exact typeOf_eq_ok_iff.2 ⟨f, field_of_layout hlayout hf, rfl⟩
  · obtain ⟨f, hf, rfl⟩ := positionOf_eq_ok_iff.1 hi
    exact positionOf_eq_ok_iff.2 ⟨f, field_of_layout hlayout hf, rfl⟩
  · obtain ⟨l, hl, hk, hs⟩ := isView_iff.1 hv
    exact isView_iff.2 ⟨l, hpre.subset hl, hk, hs⟩

end Catalog

end ViewTyping
