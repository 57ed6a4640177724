import ViewTyping.Proofs.Assignment

/-!
# Unfolding views

An expression over views is unfolded by putting the outputs that define its columns in their
place, and unfolding these in turn. `Program.Unfolds` is inductive, so an expression that unfolds
to another does so in finitely many replacements.

* `typing_subst`: replacing columns by expressions of the same types keeps the type.
* `Unfolds.unique`, `Unfolds.complete`: there is at most one unfolding, and it has no column left
  that could be replaced.
* `Ordered.exists_unfolding`: what views select unfolds, as no view reads itself.
-/

set_option autoImplicit false

namespace ViewTyping

/-! ## Substitution for columns -/

mutual

/-- The expression with other expressions in place of its columns. The columns of a grouping can
only be columns and stay. -/
def Expr.subst (σ : ColumnRef → Expr) : Expr → Expr
  | .column ref => σ ref
  | .literal value => .literal value
  | .unary op arg => .unary op (arg.subst σ)
  | .binary op left right => .binary op (left.subst σ) (right.subst σ)
  | .call function args => .call function (substExprs σ args)
  | .test t arg => .test t (arg.subst σ)
  | .subquery select qualifiers groupBy =>
    .subquery (substExprs σ select) (substQualifiers σ qualifiers) groupBy
  | .aliased e name => .aliased (e.subst σ) name

def substExprs (σ : ColumnRef → Expr) : List Expr → List Expr
  | [] => []
  | e :: es => e.subst σ :: substExprs σ es

def Qualifier.subst (σ : ColumnRef → Expr) : Qualifier → Qualifier
  | .source table => .source table
  | .filter e => .filter (e.subst σ)
  | .join e => .join (e.subst σ)

def substQualifiers (σ : ColumnRef → Expr) : List Qualifier → List Qualifier
  | [] => []
  | q :: qs => q.subst σ :: substQualifiers σ qs

end

theorem substExprs_eq (σ : ColumnRef → Expr) (es : List Expr) :
    substExprs σ es = es.map (Expr.subst σ) := by
  induction es with
  | nil => rfl
  | cons e es ih => rw [substExprs, ih, List.map_cons]

theorem substQualifiers_eq (σ : ColumnRef → Expr) (qs : List Qualifier) :
    substQualifiers σ qs = qs.map (Qualifier.subst σ) := by
  induction qs with
  | nil => rfl
  | cons q qs ih => rw [substQualifiers, ih, List.map_cons]

theorem length_substExprs (σ : ColumnRef → Expr) (es : List Expr) :
    (substExprs σ es).length = es.length := by
  rw [substExprs_eq, List.length_map]

theorem substExprs_ne_singleton {σ : ColumnRef → Expr} {es : List Expr}
    (h : ∀ e, es = [e] → False) (e : Expr) (he : substExprs σ es = [e]) : False := by
  have hlen := length_substExprs σ es
  rw [he] at hlen
  obtain ⟨e', he'⟩ := List.length_eq_one_iff.1 hlen.symm
  exact h e' he'

theorem Logged.result_bind_eq_ok {α β : Type} {x : Logged α} {f : α → Logged β} {b : β} :
    (x >>= f).result = .ok b ↔ ∃ a, x.result = .ok a ∧ (f a).result = .ok b := by
  rw [Logged.result_bind]
  cases x.result with
  | error d => exact ⟨fun h => (by cases h), fun ⟨_, h, _⟩ => (by cases h)⟩
  | ok a => exact ⟨fun h => ⟨a, rfl, h⟩, fun ⟨_, h, hb⟩ => by cases h; exact hb⟩

/-- **Substitution lemma.** Columns that have a type may be replaced by expressions of that type.
Nothing is asked of columns without a type: typing does not get to them. -/
theorem typing_subst {f g : ColumnRef → Except Diagnostic ValueType} {σ : ColumnRef → Expr}
    {e : Expr} (h : ∀ ref ∈ e.columns, ∀ t, f ref = .ok t → ((σ ref).typing g).result = .ok t)
    {t : ValueType} (ht : (e.typing f).result = .ok t) : ((e.subst σ).typing g).result = .ok t := by
  induction e using Expr.typing.induct generalizing t with
  | case1 ref =>
    rw [Expr.typing] at ht
    exact h ref (by simp [Expr.columns]) t ht
  | case2 value =>
    rw [Expr.typing] at ht
    rw [Expr.subst, Expr.typing, ht]
  | case3 op arg ih =>
    rw [Expr.typing, Logged.result_bind_eq_ok] at ht
    obtain ⟨a, ha, hb⟩ := ht
    rw [Expr.subst, Expr.typing]
    exact Logged.result_bind_eq_ok.2 ⟨a, ih h ha, hb⟩
  | case4 op left right ihl ihr =>
    simp only [Expr.columns, List.mem_append] at h
    simp only [Expr.typing, Logged.result_bind_eq_ok] at ht
    obtain ⟨a, ha, b, hb, hr⟩ := ht
    simp only [Expr.subst, Expr.typing, Logged.result_bind_eq_ok]
    exact ⟨a, ihl (fun ref href => h ref (.inl href)) ha, b,
      ihr (fun ref href => h ref (.inr href)) hb, hr⟩
  | case5 function arg ih =>
    simp only [Expr.columns, columnsOfExprs, List.append_nil] at h
    simp only [Expr.typing, Logged.result_bind_eq_ok] at ht
    obtain ⟨a, ha, hr⟩ := ht
    simp only [Expr.subst, substExprs, Expr.typing, Logged.result_bind_eq_ok]
    refine ⟨a, ih h ha, ?_⟩
    cases hagg : function.aggregateType? a with
    | none => rw [hagg] at hr; cases hr
    | some t' => rw [hagg] at hr; exact hr
  | case6 function args hne t' ht' =>
    rw [Expr.typing, ht'] at ht
    · rw [Expr.subst, Expr.typing, length_substExprs, ht']
      · exact ht
      · exact substExprs_ne_singleton hne
    · exact hne
  | case7 function args hne hnone =>
    rw [Expr.typing, hnone] at ht
    · cases ht
    · exact hne
  | case8 t' arg ih =>
    rw [Expr.typing, Logged.result_bind_eq_ok] at ht
    obtain ⟨a, ha, hb⟩ := ht
    rw [Expr.subst, Expr.typing]
    exact Logged.result_bind_eq_ok.2 ⟨a, ih h ha, hb⟩
  | case9 e qualifiers groupBy ih =>
    simp only [Expr.columns, columnsOfExprs, List.append_nil, List.mem_append] at h
    simp only [Expr.typing, Logged.result_bind_eq_ok] at ht
    obtain ⟨a, ha, -, -, hr⟩ := ht
    simp only [Expr.subst, substExprs, Expr.typing, Logged.result_bind_eq_ok]
    exact ⟨a, ih (fun ref href => h ref (.inr href)) ha, (), rfl, hr⟩
  | case10 select qualifiers groupBy hne =>
    rw [Expr.typing] at ht
    · cases ht
    · exact hne
  | case11 e name ih =>
    rw [Expr.typing] at ht
    rw [Expr.subst, Expr.typing]
    exact ih h ht

theorem subst_congr {σ τ : ColumnRef → Expr} {e : Expr} (h : ∀ ref ∈ e.columns, σ ref = τ ref) :
    e.subst σ = e.subst τ := by
  induction e using Expr.induct with
  | column ref => exact h ref (by simp [Expr.columns])
  | literal value => rfl
  | unary op arg ih => rw [Expr.subst, Expr.subst, ih h]
  | binary op left right ihl ihr =>
    simp only [Expr.columns, List.mem_append] at h
    rw [Expr.subst, Expr.subst, ihl fun ref href => h ref (.inl href),
      ihr fun ref href => h ref (.inr href)]
  | call function args ih =>
    simp only [Expr.columns, columnsOfExprs_eq, List.mem_flatMap] at h
    rw [Expr.subst, Expr.subst, substExprs_eq, substExprs_eq,
      List.map_congr_left fun a ha => ih a ha fun ref href => h ref ⟨a, ha, href⟩]
  | test t arg ih => rw [Expr.subst, Expr.subst, ih h]
  | subquery select qualifiers groupBy ihs ihq =>
    simp only [Expr.columns, columnsOfExprs_eq, columnsOfQualifiers_eq, List.mem_append,
      List.mem_flatMap] at h
    have hq : ∀ q ∈ qualifiers, q.subst σ = q.subst τ := by
      intro q hq
      have hcols : ∀ ref ∈ q.columns, σ ref = τ ref := fun ref href => h ref (.inl ⟨q, hq, href⟩)
      cases q with
      | source table => rfl
      | filter e => rw [Qualifier.subst, Qualifier.subst, ihq _ hq e rfl hcols]
      | join e => rw [Qualifier.subst, Qualifier.subst, ihq _ hq e rfl hcols]
    rw [Expr.subst, Expr.subst, substExprs_eq, substExprs_eq, substQualifiers_eq,
      substQualifiers_eq, List.map_congr_left hq,
      List.map_congr_left fun e he => ihs e he fun ref href => h ref (.inr ⟨e, he, href⟩)]
  | aliased e name ih => rw [Expr.subst, Expr.subst, ih h]

theorem columns_subst {σ : ColumnRef → Expr} (e : Expr) :
    (e.subst σ).columns = e.columns.flatMap fun ref => (σ ref).columns := by
  induction e using Expr.induct with
  | column ref => simp [Expr.subst, Expr.columns]
  | literal value => rfl
  | unary op arg ih => exact ih
  | binary op left right ihl ihr =>
    rw [Expr.subst, Expr.columns, ihl, ihr, Expr.columns, List.flatMap_append]
  | call function args ih =>
    rw [Expr.subst, Expr.columns, Expr.columns, columnsOfExprs_eq, columnsOfExprs_eq,
      substExprs_eq, List.flatMap_map, List.flatMap_assoc]
    exact List.flatMap_congr ih
  | test t arg ih => exact ih
  | subquery select qualifiers groupBy ihs ihq =>
    have hq : ∀ q ∈ qualifiers,
        (q.subst σ).columns = q.columns.flatMap fun ref => (σ ref).columns := by
      intro q hq
      cases q with
      | source table => rfl
      | filter e => exact ihq _ hq e rfl
      | join e => exact ihq _ hq e rfl
    rw [Expr.subst, Expr.columns, Expr.columns, columnsOfExprs_eq, columnsOfExprs_eq,
      columnsOfQualifiers_eq, columnsOfQualifiers_eq, substExprs_eq, substQualifiers_eq,
      List.flatMap_map, List.flatMap_map, List.flatMap_append, List.flatMap_assoc,
      List.flatMap_assoc, List.flatMap_congr ihs, List.flatMap_congr hq]
  | aliased e name ih => exact ih

/-! ## Unfolding -/

namespace Program

/-- The output that defines a column: none for a controllable column, and for one that is no field
of a view. -/
def definition? (p : Program) (ref : ColumnRef) : Option Expr :=
  if ref.column.controllable then none
  else (p.view? ref.table).bind fun v => v.output? (Name.normalize ref.column.name)

/-- Unfolding puts the unfolded definitions in the place of the columns that have one. -/
inductive Unfolds (p : Program) : Expr → Expr → Prop
  | subst {e : Expr} (σ : ColumnRef → Expr)
      (kept : ∀ ref ∈ e.columns, p.definition? ref = none → σ ref = .column ref)
      (defined : ∀ ref ∈ e.columns, ∀ d, p.definition? ref = some d → Unfolds p d (σ ref)) :
      Unfolds p e (e.subst σ)

variable {p : Program}

theorem Unfolds.unique {e u u' : Expr} (h : p.Unfolds e u) (h' : p.Unfolds e u') : u = u' := by
  induction h generalizing u' with
  | @subst e σ kept defined ih =>
    cases h' with
    | subst τ kept' defined' =>
      refine subst_congr fun ref href => ?_
      cases hd : p.definition? ref with
      | none => rw [kept ref href hd, kept' ref href hd]
      | some d => exact ih ref href d hd (defined' ref href d hd)

/-- Nothing is left to be unfolded. -/
theorem Unfolds.complete {e u : Expr} (h : p.Unfolds e u) :
    ∀ ref ∈ u.columns, p.definition? ref = none := by
  induction h with
  | @subst e σ kept defined ih =>
    intro ref href
    rw [columns_subst, List.mem_flatMap] at href
    obtain ⟨r, hr, href⟩ := href
    cases hd : p.definition? r with
    | none =>
      rw [kept r hr hd] at href
      obtain rfl : ref = r := by simpa [Expr.columns] using href
      exact hd
    | some d => exact ih r hr d hd ref href

theorem definition?_eq_some {ref : ColumnRef} {d : Expr} (h : p.definition? ref = some d) :
    ref.column.controllable = false ∧ ∃ v ∈ p.views, v.key = Name.normalize ref.table ∧
      v.output? (Name.normalize ref.column.name) = some d := by
  unfold definition? at h
  split at h
  · cases h
  · rename_i hfree
    obtain ⟨v, hv, hd⟩ := Option.bind_eq_some_iff.1 h
    obtain ⟨hv, hkey⟩ := view?_eq_some hv
    exact ⟨by simpa using hfree, v, hv, hkey, hd⟩

variable {c : Catalog} {column : ColumnRef → Except Diagnostic ValueType}

/-- A column that has a definition has the type of its definition. -/
theorem Recorded.columnType_of_definition (h : p.Recorded c.columnType c) {ref : ColumnRef}
    {d : Expr} (hd : p.definition? ref = some d) : c.columnType ref = c.infer d := by
  obtain ⟨hfree, v, hv, hkey, hd⟩ := definition?_eq_some hd
  obtain ⟨l, hlayout, -, hl⟩ := h.exists_layout hv
  obtain ⟨f, hf, -, ht⟩ := exists_of_rel (hl.rel_field? _) hd
  rw [h.columnType_of_view hfree hv hkey hlayout, hf]
  exact ht.symm

/-- A column that has none but has a type has it without any catalog. -/
theorem Recorded.columnType_of_undefined (h : p.Recorded column c) {ref : ColumnRef}
    (hd : p.definition? ref = none) {t : ValueType} (ht : c.columnType ref = .ok t) :
    Catalog.columnType {} ref = .ok t := by
  cases hfree : ref.column.controllable with
  | true => simpa [Catalog.columnType, hfree] using ht
  | false =>
    cases hfound : p.view? ref.table with
    | none =>
      rw [h.columnType_of_none hfree hfound] at ht
      rw [← ht]
      simp [Catalog.columnType, hfree, Catalog.isView, Catalog.view?]
    | some v =>
      -- a view without that field: the column has no type
      obtain ⟨hv, hkey⟩ := view?_eq_some hfound
      obtain ⟨l, hlayout, -, hl⟩ := h.exists_layout hv
      have houtput : v.output? (Name.normalize ref.column.name) = none := by
        simpa [definition?, hfree, hfound] using hd
      have hf := isSome_eq_of_rel (hl.rel_field? (Name.normalize ref.column.name))
      rw [houtput, Option.isSome_none, eq_comm, Option.isSome_eq_false_iff,
        Option.isNone_iff_eq_none] at hf
      rw [h.columnType_of_view hfree hv hkey hlayout, hf] at ht
      cases ht

/-- **What a view selects unfolds**, to an expression that has the same type without a catalog. -/
theorem Ordered.exists_unfolding {vs : List View} (hp : p.Ordered vs)
    (h : p.Recorded c.columnType c) : ∀ v ∈ p.views, ∀ e ∈ v.select,
    ∃ u, p.Unfolds e u ∧ ∀ t, c.infer e = .ok t → Catalog.infer {} u = .ok t := by
  refine hp.induct fun v hv ih e he => ?_
  have hcolumn : ∀ ref, ∃ u, ref ∈ e.columns →
      (p.definition? ref = none → u = .column ref) ∧
      (∀ d, p.definition? ref = some d → p.Unfolds d u) ∧
      ∀ t, c.columnType ref = .ok t → Catalog.infer {} u = .ok t := by
    intro ref
    by_cases href : ref ∈ e.columns
    · cases hd : p.definition? ref with
      | none =>
        exact ⟨.column ref, fun _ => ⟨fun _ => rfl, fun d h => (by cases h),
          fun t ht => h.columnType_of_undefined hd ht⟩⟩
      | some d =>
        obtain ⟨-, w, hw, hkey, houtput⟩ := definition?_eq_some hd
        obtain ⟨u, hu, ht⟩ := ih w
          ⟨hv, hw, e, he, ref.table, mentions_of_mem_columns href, hkey.symm⟩ d
          (List.mem_of_find?_eq_some houtput)
        refine ⟨u, fun _ => ⟨fun h => (by cases h), fun d' h => (by cases h; exact hu), ?_⟩⟩
        rw [h.columnType_of_definition hd]
        exact ht
    · exact ⟨.column ref, fun h => absurd h href⟩
  choose σ hσ using hcolumn
  refine ⟨e.subst σ, .subst σ (fun ref href => (hσ ref href).1)
    (fun ref href => (hσ ref href).2.1), fun t ht => ?_⟩
  exact typing_subst (fun ref href => (hσ ref href).2.2) ht

/-- **Unfolding views preserves types.** Every output of every view of an accepted program has one
unfolding, in which no column of a view is left to be replaced and which has, in the empty catalog,
the type that is recorded for the output. -/
theorem unfolding_preserves_types (h : p.check = .ok c) {v : View} (hv : v ∈ p.views) {i : Nat}
    {e : Expr} (he : v.select[i]? = some e) :
    ∃ l f u, c.layout v.name = .ok l ∧ l.fields[i]? = some f ∧ e.fieldName? = some f.name ∧
      p.Unfolds e u ∧ (∀ u', p.Unfolds e u' → u' = u) ∧
      (∀ ref ∈ u.columns, p.definition? ref = none) ∧ Catalog.infer {} u = .ok f.type := by
  obtain ⟨vs, tl, vl, hc, rfl⟩ := check_eq_ok.1 h
  obtain ⟨l, hlayout, -, hl⟩ := hc.recorded.exists_layout hv
  obtain ⟨f, hf, hname, ht⟩ := exists_of_rel (rel_getElem? hl.fields i) he
  obtain ⟨u, hu, htu⟩ := hc.ordered.exists_unfolding hc.recorded v hv e (List.mem_of_getElem? he)
  exact ⟨l, f, u, hlayout, hf, hname, hu, fun u' hu' => hu'.unique hu, hu.complete, htu _ ht⟩

/-- The total over a view unfolds to a total over the table, which holds variables by itself. -/
theorem unfolding_preserves_types_totalLoad :
    totalLoad.check = .ok totalLoadCatalog ∧
      totalLoadCatalog.layout "total" = .ok ⟨"TOTAL", .view, [⟨"SUM", 0, .intVar⟩]⟩ ∧
      ∃ u, totalLoad.Unfolds
          (.aliased (.call .sum [.column ⟨"loads", ⟨"Load", .integer, false⟩⟩]) "sum") u ∧
        Catalog.infer {} u = .ok .intVar := by
  have hcheck : totalLoad.check = .ok totalLoadCatalog := rfl
  have hmem : totalLoad.views[0] ∈ totalLoad.views := List.getElem_mem _
  have hselect : totalLoad.views[0].select[0]? =
      some (.aliased (.call .sum [.column ⟨"loads", ⟨"Load", .integer, false⟩⟩]) "sum") := rfl
  have hlayout : totalLoadCatalog.layout "total" =
      .ok ⟨"TOTAL", .view, [⟨"SUM", 0, .intVar⟩]⟩ := rfl
  obtain ⟨l, f, u, hl, hf, -, hu, -, -, ht⟩ := unfolding_preserves_types hcheck hmem hselect
  obtain rfl := Except.ok.inj (hlayout.symm.trans hl)
  cases hf
  exact ⟨hcheck, hlayout, u, hu, ht⟩

end Program

end ViewTyping
