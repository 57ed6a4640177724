import ViewTyping.Proofs.CatalogHistory
import ViewTyping.Registry.Call

/-!
# A registry holds what a catalog lists

A catalog keeps one list of layouts, a registry several stores. A registry represents a catalog
(`Registry.Represents`) if its maps hold under each key the scope of the layout of that key, and its
order names the layouts. All that can be asked then has the same answer, and no map lacks a name
that is taken to be there (`Represents.layouts`, `Represents.positionOf`).

The fields of a new scope are added by an action on the session, those of a new layout by a logged
computation. The action follows the computation (`Action.Follows`): it stops where the computation
fails, with the same events, and at every stop the registry is as it was.

* `Represents.perform`: each call has the same answer and the same events on both, and what it
  leaves behind is represented again.
* `Reachable.represents`: so a registry that calls lead to represents the catalog that they lead to.
-/

set_option autoImplicit false

namespace ViewTyping

theorem mapM_eq_ok_of_forall₂ {ε α β : Type} {f : α → Except ε β} {xs : List α} {ys : List β}
    (h : List.Forall₂ (fun x y => f x = .ok y) xs ys) : xs.mapM f = .ok ys := by
  induction h with
  | nil => rfl
  | cons hxy _ ih => rw [List.mapM_cons, hxy, ih]; rfl

theorem Layout.push?_eq_some {l l' : Layout} {name : String} {t : ValueType} :
    l.push? name t = some l' ↔ l.field? name = none ∧
      l' = { l with fields := l.fields ++ [⟨name, l.fields.length, t⟩] } := by
  unfold push?
  cases l.field? name <;> simp [eq_comm]

theorem Layout.push?_eq_none {l : Layout} {name : String} {t : ValueType} :
    l.push? name t = none ↔ (l.field? name).isSome = true := by
  unfold push?
  cases l.field? name <;> simp

/-! ## Scopes -/

/-- The scope has the fields of the layout, and under their names their types and positions. -/
structure Scope.Represents (s : Scope) (l : Layout) : Prop where
  wellFormed : l.WellFormed
  fields : s.fields = l.fields.map Field.name
  types : ∀ name, s.types.get? name = (l.field? name).map Field.type
  positions : ∀ name, s.positions.get? name = (l.field? name).map Field.position

namespace Scope.Represents

variable {s : Scope} {l l' : Layout} {name : String} {t : ValueType} {f : Field}

theorem empty (key : String) (kind : ScopeKind) : ({} : Scope).Represents ⟨key, kind, []⟩ :=
  ⟨wellFormed_empty key kind, rfl, fun _ => rfl, fun _ => rfl⟩

theorem contains (h : s.Represents l) (name : String) :
    s.types.contains name = (l.field? name).isSome := by
  rw [NameMap.contains, h.types, Option.isSome_map]

theorem push_of_some (h : s.Represents l) (hpush : l.push? name t = some l') :
    ∃ s', s.push name t = (true, s') ∧ s'.Represents l' := by
  obtain ⟨hnew, rfl⟩ := Layout.push?_eq_some.1 hpush
  have hname : name ∉ l.fields.map Field.name := fun hmem => by
    simpa [hnew] using Layout.field?_isSome.2 hmem
  have hfield (key : String) :
      Layout.field? { l with fields := l.fields ++ [⟨name, l.fields.length, t⟩] } key =
        if key = name then some ⟨name, l.fields.length, t⟩ else l.field? key := by
    unfold Layout.field? at hnew ⊢
    rw [List.find?_append]
    by_cases hkey : key = name
    · simp [hkey, hnew]
    · simp [hkey, Ne.symm hkey]
  refine ⟨_, if_neg (by simp [h.contains, hnew]), h.wellFormed.push hname, ?_, fun key => ?_,
    fun key => ?_⟩
  · simp [h.fields]
  · rw [NameMap.get?_insert, hfield, h.types]
    split <;> rfl
  · rw [NameMap.get?_insert, hfield, h.positions, h.fields, List.length_map]
    split <;> rfl

theorem push_of_none (h : s.Represents l) (hpush : l.push? name t = none) :
    s.push name t = (false, s) :=
  if_pos (by rw [h.contains, Layout.push?_eq_none.1 hpush])

theorem lookUp_type (h : s.Represents l) (hf : f ∈ l.fields) :
    s.types.lookUp f.name = .ok f.type := by
  simp [NameMap.lookUp, h.types, h.wellFormed.field?_eq hf]

theorem tupleType (h : s.Represents l) : s.tupleType = .ok l.types := by
  refine mapM_eq_ok_of_forall₂ ?_
  rw [h.fields, Layout.types, List.forall₂_map_left_iff, List.forall₂_map_right_iff,
    List.forall₂_same]
  exact fun f hf => h.lookUp_type hf

theorem zipIdx_fields (h : s.Represents l) :
    s.fields.zipIdx = l.fields.map fun f => (f.name, f.position) := by
  refine List.ext_getElem? fun i => ?_
  rw [List.getElem?_zipIdx, h.fields, List.getElem?_map, List.getElem?_map]
  cases hi : l.fields[i]? with
  | none => rfl
  | some f => simp [h.wellFormed.positions i f hi]

theorem layout (h : s.Represents l) : s.layout l.scope l.kind = .ok l := by
  have hfields : s.fields.zipIdx.mapM (fun field =>
      (s.types.lookUp field.1).map fun type => Field.mk field.1 field.2 type) = .ok l.fields := by
    refine mapM_eq_ok_of_forall₂ ?_
    rw [h.zipIdx_fields, List.forall₂_map_left_iff, List.forall₂_same]
    intro f hf
    rw [h.lookUp_type hf]
    rfl
  unfold Scope.layout
  rw [hfields]
  rfl

end Scope.Represents

/-! ## Registries -/

/-- The layout of a kind that is listed under a key. -/
def Catalog.stored? (c : Catalog) (kind : ScopeKind) (key : String) : Option Layout :=
  c.layouts.find? fun l => l.kind == kind && l.scope == key

theorem Catalog.stored?_isSome {c : Catalog} {kind : ScopeKind} {key : String} :
    (c.stored? kind key).isSome = true ↔ ∃ l ∈ c.layouts, l.kind = kind ∧ l.scope = key := by
  simp [stored?]

theorem Catalog.stored?_eq_some {c : Catalog} {kind : ScopeKind} {key : String} {l : Layout}
    (h : c.stored? kind key = some l) : l.kind = kind ∧ l.scope = key := by
  simpa using List.find?_some h

theorem Catalog.Consistent.stored?_of_mem {c : Catalog} {l : Layout} (hc : c.Consistent)
    (hl : l ∈ c.layouts) : c.stored? l.kind l.scope = some l := by
  refine find?_eq_some_of_unique hl (by simp) fun l' hl' hfound => ?_
  simp only [Bool.and_eq_true, beq_iff_eq] at hfound
  exact hc.eq_of_clashes hl' hl ((Layout.clashes_iff_of_eq hfound.1).2 hfound.2)

theorem Catalog.Free.stored?_eq_none {c : Catalog} {l : Layout} (h : c.Free l) :
    c.stored? l.kind l.scope = none := by
  refine List.find?_eq_none.2 fun l' hl' hfound => h l' hl' ?_
  simp only [Bool.and_eq_true, beq_iff_eq] at hfound
  exact (Layout.clashes_iff_of_eq hfound.1).2 hfound.2

namespace Registry

variable {m : Registry} {c : Catalog} {s : Scope} {l : Layout}

/-- The registry stores the scopes of the catalog's layouts, and no others, in their order. -/
structure Represents (m : Registry) (c : Catalog) : Prop where
  scopes : ∀ kind key,
    Option.Rel Scope.Represents ((m.scopes kind).get? key) (c.stored? kind key)
  order : m.order = c.order

theorem represents_empty : Represents {} {} := by
  refine ⟨fun kind key => ?_, rfl⟩
  cases kind <;> exact .none

theorem get?_store (m : Registry) (kind kind' : ScopeKind) (key key' : String) (s : Scope) :
    ((m.store kind key s).scopes kind').get? key' =
      if kind' = kind ∧ key' = key then some s else (m.scopes kind').get? key' := by
  cases kind <;> cases kind' <;> simp [store, scopes, NameMap.get?_insert]

/-- A scope that is stored under a new key is one more layout. -/
theorem Represents.store (h : m.Represents c) (hs : s.Represents l)
    (hnew : c.stored? l.kind l.scope = none) :
    Represents { m.store l.kind l.scope s with order := m.order ++ [(l.kind, l.scope)] }
      (c.push l) := by
  refine ⟨fun kind key => ?_, ?_⟩
  · show Option.Rel _ (((m.store l.kind l.scope s).scopes kind).get? key) _
    have hpush : (c.push l).stored? kind key =
        if kind = l.kind ∧ key = l.scope then some l else c.stored? kind key := by
      unfold Catalog.stored? at hnew ⊢
      rw [Catalog.push, List.find?_append]
      by_cases hkey : kind = l.kind ∧ key = l.scope
      · simp [hkey.1, hkey.2, hnew]
      · have hother : (l.kind == kind && l.scope == key) = false := by
          rw [Bool.eq_false_iff]
          intro hfound
          simp only [Bool.and_eq_true, beq_iff_eq] at hfound
          exact hkey ⟨hfound.1.symm, hfound.2.symm⟩
        simp [hkey, hother]
    rw [get?_store, hpush]
    split
    · exact .some hs
    · exact h.scopes kind key
  · simp [h.order, Catalog.order, Catalog.push]

/-! ### Fields -/

theorem findField_of_some {name key asked : String} {f : Field} (h : s.Represents l)
    (hf : l.field? name = some f) : ∃ found, findField s key name asked = .ok found ∧
      found.type = f.type ∧ found.scope.positions.lookUp found.name = .ok f.position := by
  have htyped : s.types.contains name = true := by rw [h.contains, hf]; rfl
  refine ⟨⟨s, name, htyped⟩, dif_pos htyped, ?_, ?_⟩
  · simp [Found.type, h.types, hf]
  · simp [NameMap.lookUp, h.positions, hf]

theorem findField_of_none {name key asked : String} (h : s.Represents l)
    (hf : l.field? name = none) : findField s key name asked = .error (.unknownField key asked) :=
  dif_neg (by simp [h.contains, hf])

namespace Represents

/-! ### Readers -/

theorem mem_names (h : m.Represents c) (kind : ScopeKind) (key : String) :
    key ∈ (m.scopes kind).names ↔ ∃ l ∈ c.layouts, l.kind = kind ∧ l.scope = key := by
  rw [NameMap.mem_names, isSome_eq_of_rel (h.scopes kind key), Catalog.stored?_isSome]

theorem contains_table (h : m.Represents c) (name : String) :
    m.tables.contains name = (c.table? name).isSome :=
  isSome_eq_of_rel (h.scopes .table name)

theorem isView (h : m.Represents c) (name : String) : m.isView name = c.isView name :=
  isSome_eq_of_rel (h.scopes .view (Name.normalize name))

theorem namesTable (h : m.Represents c) (name : String) :
    m.namesTable name = c.namesTable name := by
  rw [Bool.eq_iff_iff, Registry.namesTable, Catalog.namesTable, List.any_eq_true,
    List.any_eq_true]
  simp only [Bool.and_eq_true, beq_iff_eq]
  constructor
  · rintro ⟨table, htable, hname⟩
    obtain ⟨l, hl, hk, rfl⟩ := (h.mem_names .table table).1 htable
    exact ⟨l, hl, hk, hname⟩
  · rintro ⟨l, hl, hk, hname⟩
    exact ⟨l.scope, (h.mem_names .table _).2 ⟨l, hl, hk, rfl⟩, hname⟩

theorem stored_cases (h : m.Represents c) (kind : ScopeKind) (key : String) :
    ((m.scopes kind).get? key = none ∧ c.stored? kind key = none) ∨
      ∃ s l, (m.scopes kind).get? key = some s ∧ c.stored? kind key = some l ∧
        s.Represents l ∧ l.kind = kind ∧ l.scope = key := by
  have hrel := h.scopes kind key
  cases hs : (m.scopes kind).get? key with
  | none =>
    rw [hs] at hrel
    cases hl : c.stored? kind key with
    | none => exact .inl ⟨rfl, rfl⟩
    | some l => rw [hl] at hrel; cases hrel
  | some s =>
    obtain ⟨l, hl, hsl⟩ := exists_of_rel hrel hs
    exact .inr ⟨s, l, rfl, hl, hsl, Catalog.stored?_eq_some hl⟩

/-- Both look for a scope in the same way: among the tables as written, then among the views. -/
theorem search_cases (h : m.Represents c) (scope : String) :
    (∃ s l, m.tables.get? scope = some s ∧ c.layout scope = .ok l ∧ s.Represents l ∧
      l.kind = .table ∧ l.scope = scope) ∨
    (∃ s l, m.tables.get? scope = none ∧ m.views.get? (Name.normalize scope) = some s ∧
      c.layout scope = .ok l ∧ s.Represents l ∧ l.kind = .view ∧
      l.scope = Name.normalize scope) ∨
    (m.tables.get? scope = none ∧ m.views.get? (Name.normalize scope) = none ∧
      c.layout scope = .error (.unknownScope scope)) := by
  unfold Catalog.layout
  rcases h.stored_cases .table scope with ⟨hm, hc⟩ | ⟨s, l, hm, hc, hs, hk, hkey⟩
  · have htable : c.table? scope = none := hc
    rcases h.stored_cases .view (Name.normalize scope) with
      ⟨hm', hc'⟩ | ⟨s, l, hm', hc', hs, hk, hkey⟩
    · have hview : c.view? scope = none := hc'
      exact .inr (.inr ⟨hm, hm', by rw [htable, hview]⟩)
    · have hview : c.view? scope = some l := hc'
      exact .inr (.inl ⟨s, l, hm, hm', by rw [htable, hview], hs, hk, hkey⟩)
  · have htable : c.table? scope = some l := hc
    exact .inl ⟨s, l, hm, by rw [htable], hs, hk, hkey⟩

theorem layout (h : m.Represents c) (scope : String) :
    m.layout scope = (c.layout scope).mapError .refused := by
  unfold Registry.layout
  rcases h.search_cases scope with
    ⟨s, l, hm, hc, hs, hk, hkey⟩ | ⟨s, l, hm, hm', hc, hs, hk, hkey⟩ | ⟨hm, hm', hc⟩
  · simpa only [hm, hc, hk, hkey, Except.mapError] using hs.layout
  · simpa only [hm, hm', hc, hk, hkey, Except.mapError] using hs.layout
  · simp only [hm, hm', hc]
    rfl

/-- **A field is found in the registry exactly if it is in the catalog**, with its type and its
position; otherwise the diagnostic is the same. -/
theorem field_cases (h : m.Represents c) (scope name : String) :
    (∃ f found, c.field scope name = .ok f ∧ m.resolve scope name = .ok found ∧
      found.type = f.type ∧ found.scope.positions.lookUp found.name = .ok f.position) ∨
    ∃ d, c.field scope name = .error d ∧ m.resolve scope name = .error d := by
  unfold Catalog.field resolve
  rcases h.search_cases scope with
    ⟨s, l, hm, hc, hs, hk, hkey⟩ | ⟨s, l, hm, hm', hc, hs, hk, hkey⟩ | ⟨hm, hm', hc⟩
  · simp only [hm, hc, hk, reduceCtorEq, if_false]
    cases hf : l.field? name with
    | some f =>
      obtain ⟨found, hfound, htype, hposition⟩ := findField_of_some hs hf
      exact .inl ⟨f, found, rfl, hfound, htype, hposition⟩
    | none => exact .inr ⟨_, rfl, hkey ▸ findField_of_none hs hf⟩
  · simp only [hm, hm', hc, hk, if_true]
    cases hf : l.field? (Name.normalize name) with
    | some f =>
      obtain ⟨found, hfound, htype, hposition⟩ := findField_of_some hs hf
      exact .inl ⟨f, found, rfl, hfound, htype, hposition⟩
    | none => exact .inr ⟨_, rfl, hkey ▸ findField_of_none hs hf⟩
  · simp only [hm, hm', hc]
    exact .inr ⟨_, rfl, rfl⟩

theorem typeOf (h : m.Represents c) (scope name : String) :
    m.typeOf scope name = c.typeOf scope name := by
  unfold Registry.typeOf Catalog.typeOf
  rcases h.field_cases scope name with ⟨f, found, hc, hm, htype, -⟩ | ⟨d, hc, hm⟩
  · rw [hc, hm, Except.map, htype]
    rfl
  · rw [hc, hm]
    rfl

theorem positionOf (h : m.Represents c) (scope name : String) :
    m.positionOf scope name = (c.positionOf scope name).mapError .refused := by
  unfold Registry.positionOf Catalog.positionOf
  rcases h.field_cases scope name with ⟨f, found, hc, hm, -, hposition⟩ | ⟨d, hc, hm⟩
  · simp only [hc, hm, hposition]
    rfl
  · simp only [hc, hm]
    rfl

theorem layouts (h : m.Represents c) (hc : c.Consistent) : m.layouts = .ok c.layouts := by
  have hstored (l : Layout) (hl : l ∈ c.layouts) :
      ∃ s, m.stored? (l.kind, l.scope) = some (s, l.scope, l.kind) ∧ s.Represents l := by
    rcases h.stored_cases l.kind l.scope with ⟨-, hnone⟩ | ⟨s, l', hs, hl', hsl, -, -⟩
    · cases (hc.stored?_of_mem hl).symm.trans hnone
    · obtain rfl : l = l' := Option.some.inj ((hc.stored?_of_mem hl).symm.trans hl')
      exact ⟨s, by rw [Registry.stored?, hs]; rfl, hsl⟩
  unfold Registry.layouts
  rw [h.order, Catalog.order]
  -- no entry of the order is left out, and each gives its layout
  have hall : ∀ ls ⊆ c.layouts,
      ((ls.map fun l => (l.kind, l.scope)).filterMap m.stored?).mapM
        (fun x => x.1.layout x.2.1 x.2.2) = .ok ls := by
    intro ls hls
    induction ls with
    | nil => rfl
    | cons l ls ih =>
      obtain ⟨s, hs, hsl⟩ := hstored l (hls (.head _))
      rw [List.map_cons, List.filterMap_cons_some hs, List.mapM_cons, hsl.layout,
        ih fun l' hl' => hls (.tail _ hl')]
      rfl
  exact hall c.layouts (List.Subset.refl _)

theorem columnType (h : m.Represents c) : m.columnType = c.columnType := by
  funext ref
  simp only [Registry.columnType, Catalog.columnType, h.isView, h.typeOf]

theorem typing (h : m.Represents c) : m.typing = c.typing := by
  funext e
  rw [Registry.typing, Catalog.typing, h.columnType]

theorem tupleTyping (h : m.Represents c) : m.tupleTyping = c.tupleTyping := by
  funext es
  rw [Registry.tupleTyping, Catalog.tupleTyping, h.typing]

end Represents

/-! ## Actions -/

/-- The result of an action against that of a computation that knows refusals only. -/
inductive Agrees {α β : Type} (R : α → β → Prop) : Except Halt α → Except Diagnostic β → Prop
  | ok {a : α} {b : β} (h : R a b) : Agrees R (.ok a) (.ok b)
  | refused (d : Diagnostic) : Agrees R (.error (.refused d)) (.error d)

/-- On the registry, the action comes to the result of the computation and reports its events, and
writes nothing. -/
def Action.Follows {α β : Type} (m : Registry) (R : α → β → Prop) (x : Action α) (y : Logged β) :
    Prop :=
  ∀ events, Agrees R (x ⟨m, events⟩).1 y.result ∧ (x ⟨m, events⟩).2 = ⟨m, events ++ y.events⟩

namespace Action.Follows

variable {α β α' β' ε : Type} {R : α → β → Prop} {R' : α' → β' → Prop}

theorem pure {a : α} {b : β} (h : R a b) : Follows m R (pure a) (pure b) :=
  fun events => ⟨.ok h, by simp [Pure.pure]⟩

theorem halt (d : Diagnostic) : Follows m R (halt (.refused d)) (.fail d) :=
  fun events => ⟨.refused d, by simp [Action.halt, Logged.fail]⟩

theorem ofLogged (x : Logged α) : Follows m Eq (ofLogged x) x := by
  refine fun events => ⟨?_, rfl⟩
  unfold Action.ofLogged
  cases x.result with
  | ok a => exact .ok rfl
  | error d => exact .refused d

theorem emit (e : Event) : Follows m Eq (emit e) (Logged.emit e) := ofLogged _

theorem bind {x : Action α} {y : Logged β} {f : α → Action α'} {g : β → Logged β'}
    (hx : x.Follows m R y) (hf : ∀ a b, R a b → (f a).Follows m R' (g b)) :
    (x >>= f).Follows m R' (y >>= g) := by
  intro events
  obtain ⟨hresult, hsession⟩ := hx events
  generalize hrun : x ⟨m, events⟩ = run at hresult hsession
  obtain ⟨result, session⟩ := run
  cases hsession
  generalize hy : y.result = result' at hresult
  cases hresult with
  | @ok a b hab =>
    obtain ⟨hresult', hsession'⟩ := hf a b hab (events ++ y.events)
    rw [Action.bind_of_ok hrun, Logged.result_bind, Logged.events_bind_of_ok hy, hy,
      ← List.append_assoc]
    exact ⟨hresult', hsession'⟩
  | refused d =>
    rw [Action.bind_of_error hrun, Logged.result_bind, Logged.events_bind_of_error hy, hy]
    exact ⟨.refused d, rfl⟩

theorem registry_bind {f : Registry → Action α} {y : Logged β} (h : (f m).Follows m R y) :
    (registry >>= f).Follows m R y := h

theorem foldlM {f : α → ε → Action α} {g : β → ε → Logged β}
    (hstep : ∀ a b e, R a b → (f a e).Follows m R (g b e)) :
    ∀ (es : List ε) {a : α} {b : β}, R a b → (es.foldlM f a).Follows m R (es.foldlM g b)
  | [], _, _, h => pure h
  | e :: es, a, b, h => by
    rw [List.foldlM_cons, List.foldlM_cons]
    exact (hstep a b e h).bind fun a' b' h' => foldlM hstep es h'

end Action.Follows

/-! ## Registrations -/

/-- The scope of a registration that is under way, against the layout. -/
structure Draft (kind : ScopeKind) (key : String) (s : Scope) (l : Layout) : Prop where
  represents : s.Represents l
  kind : l.kind = kind
  scope : l.scope = key

namespace Draft

variable {kind : ScopeKind} {key name : String} {t : ValueType} {l' : Layout}

theorem empty (kind : ScopeKind) (key : String) : Draft kind key {} ⟨key, kind, []⟩ :=
  ⟨.empty key kind, rfl, rfl⟩

theorem addField_of_some (h : Draft kind key s l) (hpush : l.push? name t = some l') :
    ∃ s', addField key s name t = pure s' ∧ Draft kind key s' l' := by
  obtain ⟨s', hs', hrep⟩ := h.represents.push_of_some hpush
  obtain ⟨-, rfl⟩ := Layout.push?_eq_some.1 hpush
  exact ⟨s', by rw [addField, hs'], hrep, h.kind, h.scope⟩

theorem addField_of_none (h : Draft kind key s l) (hpush : l.push? name t = none) :
    addField key s name t = Action.halt (.refused (.duplicateField l.scope name)) := by
  rw [addField, h.represents.push_of_none hpush, h.scope]

theorem addColumn (h : Draft kind key s l) (column : Column) :
    (addColumn key s column).Follows m (Draft kind key) (.ofExcept (l.addColumn column)) := by
  unfold Registry.addColumn Layout.addColumn
  cases hpush : l.push? column.name (.ofColumn column) with
  | some l' =>
    obtain ⟨s', hadd, hs'⟩ := h.addField_of_some hpush
    rw [hadd]
    exact .pure hs'
  | none =>
    rw [h.addField_of_none hpush]
    exact .halt _

theorem addOutput (h : Draft kind key s l) (hm : m.Represents c) (e : Expr) :
    (addOutput key s e).Follows m (Draft kind key) (c.addOutput l e) := by
  unfold Registry.addOutput Catalog.addOutput
  rw [h.scope]
  refine (Action.Follows.ofLogged _).bind fun name _ hname => .registry_bind ?_
  subst hname
  rw [hm.typing]
  refine (Action.Follows.ofLogged _).bind fun t _ ht => ?_
  subst ht
  refine (Action.Follows.emit _).bind fun _ _ _ => ?_
  cases hpush : l.push? name t with
  | some l' =>
    obtain ⟨s', hadd, hs'⟩ := h.addField_of_some hpush
    rw [hadd]
    exact .pure hs'
  | none =>
    rw [h.addField_of_none hpush, h.scope]
    exact .halt _

end Draft

theorem ofExcept_foldlM {α β : Type} (f : α → β → Except Diagnostic α) : ∀ (bs : List β) (a : α),
    Logged.ofExcept (bs.foldlM f a) = bs.foldlM (fun a b => Logged.ofExcept (f a b)) a
  | [], _ => rfl
  | b :: bs, a => by
    rw [List.foldlM_cons, List.foldlM_cons]
    cases hb : f a b with
    | error d => rfl
    | ok a' =>
      show Logged.ofExcept (bs.foldlM f a') = _
      rw [ofExcept_foldlM f bs a']
      exact (pure_bind (m := Logged) a' fun a =>
        bs.foldlM (fun a b => Logged.ofExcept (f a b)) a).symm

/-- A scope whose fields all have types is stored, and its key comes last in the order. -/
theorem enter_of_tupleType {kind : ScopeKind} {key : String}
    {event : String → List ValueType → Event} {tuple : List ValueType} {events : List Event}
    (h : s.tupleType = .ok tuple) : Registry.enter kind key event s ⟨m, events⟩ =
      (.ok tuple, ⟨{ m.store kind key s with order := m.order ++ [(kind, key)] },
        events ++ [event key tuple]⟩) := by
  have htuple : Action.ofExcept s.tupleType ⟨m, events⟩ = (.ok tuple, ⟨m, events⟩) := by rw [h]; rfl
  rw [enter, Action.bind_of_ok htuple]
  cases kind <;> rfl

/-- The outcome of a call on a registry against that on a catalog. -/
structure Outcome.Represents (o : Outcome) (o' : Catalog.Outcome) : Prop where
  registry : o.registry.Represents o'.catalog
  answer : o.answer? = some o'.answer
  events : o.events = o'.events

namespace Represents

/-- A registration whose scope is refused leaves the registry, and one whose scope is complete
stores it. -/
theorem register {kind : ScopeKind} {key : String} {event : String → List ValueType → Event}
    {x : Action Scope} {y : Logged Layout} (hm : m.Represents c)
    (hx : x.Follows m (Draft kind key) y) (hnew : ∀ l, y.result = .ok l → c.Free l) :
    (m.register (x >>= enter kind key event)).Represents
      (c.enter do let l ← y; Logged.emit (event l.scope l.types); return l) := by
  obtain ⟨hresult, hsession⟩ := hx []
  generalize hrun : x ⟨m, []⟩ = run at hresult hsession
  obtain ⟨result, session⟩ := run
  cases hsession
  generalize hy : y.result = result' at hresult
  unfold Registry.register Catalog.enter
  cases hresult with
  | refused d =>
    rw [Action.bind_of_error hrun, Logged.result_bind, Logged.events_bind_of_error hy, hy]
    exact ⟨hm, rfl, rfl⟩
  | @ok s l hs =>
    rw [Action.bind_of_ok hrun, Logged.result_bind, Logged.events_bind_of_ok hy, hy,
      enter_of_tupleType hs.represents.tupleType, ← hs.kind, ← hs.scope]
    exact ⟨hm.store hs.represents (hnew l hy).stored?_eq_none, rfl, rfl⟩

theorem registerTable (hm : m.Represents c) (hc : c.Consistent) (t : Table) :
    (m.register (registerTable t)).Represents (c.enter (c.tableLayout t)) := by
  have hguard : (m.tables.contains t.name || m.views.contains (Name.normalize t.name)) =
      ((c.table? t.name).isSome || c.isView t.name) :=
    congr (congrArg _ (hm.contains_table t.name)) (hm.isView t.name)
  show (m.register (if (m.tables.contains t.name || m.views.contains (Name.normalize t.name)) then
    Action.halt (.refused (.scopeAlreadyRegistered t.name)) else
      t.columns.foldlM (addColumn t.name) {} >>= enter .table t.name .registeredTable)).Represents _
  have hlayout (l : Layout) := hc.grants (l := l) ∘ Catalog.Grants.table t
  rw [hguard]
  unfold Catalog.tableLayout at hlayout ⊢
  split
  · exact ⟨hm, rfl, rfl⟩
  · next hfree =>
    rw [if_neg hfree, Logged.result_report] at hlayout
    refine hm.register ?_ fun l hl => (hlayout l hl).2.2
    rw [ofExcept_foldlM]
    exact .foldlM (fun s l column h => h.addColumn column) t.columns (.empty .table t.name)

theorem registerView (hm : m.Represents c) (hc : c.Consistent) (name : String)
    (select : List Expr) :
    (m.register (registerView name select)).Represents (c.enter (c.viewLayout name select)) := by
  have hguard : (m.views.contains (Name.normalize name) || m.namesTable (Name.normalize name)) =
      (c.isView (Name.normalize name) || c.namesTable (Name.normalize name)) := by
    rw [hm.namesTable, Catalog.isView_normalize, ← hm.isView]
    rfl
  show (m.register (if (m.views.contains (Name.normalize name) ||
    m.namesTable (Name.normalize name)) then
      Action.halt (.refused (.scopeAlreadyRegistered (Name.normalize name))) else
      select.foldlM (addOutput (Name.normalize name)) {} >>=
        enter .view (Name.normalize name) .registeredView)).Represents _
  have hlayout (l : Layout) := hc.grants (l := l) ∘ Catalog.Grants.view ⟨name, select⟩
  rw [hguard]
  unfold Catalog.viewLayout at hlayout ⊢
  simp only at hlayout ⊢
  split
  · exact ⟨hm, rfl, rfl⟩
  · next hfree =>
    rw [if_neg hfree, Logged.result_report] at hlayout
    refine hm.register ?_ fun l hl => (hlayout l hl).2.2
    exact .foldlM (fun s l e h => h.addOutput hm e) select (.empty .view (Name.normalize name))

end Represents

theorem answerOf_mapError {α : Type} (answer : α → Catalog.Answer) (x : Except Diagnostic α) :
    answerOf answer (x.mapError .refused) = some (.ofResult answer x) := by
  cases x <;> rfl

/-- **A call does the same on a registry and on the catalog that it represents.** -/
theorem Represents.perform (hm : m.Represents c) (hc : c.Consistent) (call : Catalog.Call) :
    (m.perform call).Represents (c.perform call) := by
  cases call with
  | registerTable t => exact hm.registerTable hc t
  | registerView name select => exact hm.registerView hc name select
  | infer e => exact ⟨hm, by rw [Registry.perform, hm.typing]; rfl, by
      rw [Registry.perform, hm.typing]; rfl⟩
  | inferTuple es => exact ⟨hm, by rw [Registry.perform, hm.tupleTyping]; rfl, by
      rw [Registry.perform, hm.tupleTyping]; rfl⟩
  | typeOf scope field => exact ⟨hm, by rw [Registry.perform, hm.typeOf]; rfl, rfl⟩
  | positionOf scope field =>
    exact ⟨hm, by rw [Registry.perform, hm.positionOf]; exact answerOf_mapError _ _, rfl⟩
  | isView name => exact ⟨hm, by rw [Registry.perform, hm.isView]; rfl, rfl⟩
  | layout scope =>
    exact ⟨hm, by rw [Registry.perform, hm.layout]; exact answerOf_mapError _ _, rfl⟩
  | layouts => exact ⟨hm, by rw [Registry.perform, hm.layouts hc]; rfl, rfl⟩

/-! ## Histories -/

/-- A registry that calls lead to from the empty one. -/
def Reachable (m : Registry) : Prop := ∃ calls, m = ({} : Registry).after calls

/-- **A run of calls does the same on both.** -/
theorem Represents.run (hm : m.Represents c) (hc : c.Reachable) (calls : List Catalog.Call) :
    (m.after calls).Represents (c.after calls) ∧
      List.Forall₂ Outcome.Represents (m.performAll calls) (c.performAll calls) := by
  induction calls generalizing m c with
  | nil => exact ⟨hm, .nil⟩
  | cons call calls ih =>
    have hcall := hm.perform hc.consistent call
    obtain ⟨hafter, houtcomes⟩ := ih hcall.registry (hc.after [call])
    exact ⟨hafter, .cons hcall houtcomes⟩

theorem represents_after (calls : List Catalog.Call) :
    (({} : Registry).after calls).Represents (({} : Catalog).after calls) :=
  (represents_empty.run ⟨[], rfl⟩ calls).1

/-- **A registry that calls lead to represents a catalog** that calls lead to. -/
theorem Reachable.represents (h : m.Reachable) : ∃ c : Catalog, c.Reachable ∧ m.Represents c := by
  obtain ⟨calls, rfl⟩ := h
  exact ⟨_, ⟨calls, rfl⟩, represents_after calls⟩

end Registry

end ViewTyping
