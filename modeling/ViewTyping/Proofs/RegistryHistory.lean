import ViewTyping.Proofs.RegistryRefinement

/-!
# The stores of a registry stay in step

What is known about a scope is written to a list of fields, to a map of types and to a map of
positions; the scope itself to one of two maps, by a key that is normalized for views only; and the
key once more to the order. Whatever calls are made, refused ones among them, these stores agree
(`stores_coherent`), and later calls leave every answer that they give (`answers_stable`): a new
scope never takes the key of another, and no table is found in the place of a view.
-/

set_option autoImplicit false

namespace ViewTyping

theorem mapError_eq_ok {ε ε' α : Type} {x : Except ε α} {f : ε → ε'} {a : α} :
    x.mapError f = .ok a ↔ x = .ok a := by
  cases x <;> simp [Except.mapError]

/-- The stores of a scope agree: types and positions are recorded for its fields and for no other
name, and the position of a field is its index. -/
structure Scope.Coherent (s : Scope) : Prop where
  nodup : s.fields.Nodup
  types : ∀ name, name ∈ s.types.names ↔ name ∈ s.fields
  positions : ∀ name, name ∈ s.positions.names ↔ name ∈ s.fields
  index : ∀ name i, s.positions.get? name = some i ↔ s.fields[i]? = some name

theorem Scope.Represents.coherent {s : Scope} {l : Layout} (h : s.Represents l) : s.Coherent := by
  have hlisted (name : String) : (l.field? name).isSome = true ↔ name ∈ s.fields := by
    rw [Layout.field?_isSome, h.fields]
  refine ⟨h.fields ▸ h.wellFormed.names, fun name => ?_, fun name => ?_, fun name i => ?_⟩
  · rw [NameMap.mem_names, h.types, Option.isSome_map, hlisted]
  · rw [NameMap.mem_names, h.positions, Option.isSome_map, hlisted]
  · simp only [h.positions, h.fields, List.getElem?_map, Option.map_eq_some_iff,
      h.wellFormed.field?_eq_some_iff]
    constructor
    · rintro ⟨f, ⟨hf, hname⟩, rfl⟩
      exact ⟨f, hf, hname⟩
    · rintro ⟨f, hf, hname⟩
      obtain rfl := h.wellFormed.positions i f hf
      exact ⟨f, ⟨hf, hname⟩, rfl⟩

namespace Registry

variable {m : Registry} {c : Catalog}

/-- The stores of a registry agree. -/
structure Coherent (m : Registry) : Prop where
  scopes : ∀ kind key s, (m.scopes kind).get? key = some s → s.Coherent
  /-- Views and their fields are stored under normalized names. -/
  normalized : ∀ key s, m.views.get? key = some s →
    Name.normalize key = key ∧ ∀ field ∈ s.fields, Name.normalize field = field
  /-- No view has the normalized name of a table. -/
  apart : ∀ key ∈ m.views.names, ∀ table ∈ m.tables.names, key ≠ Name.normalize table
  nodup_order : m.order.Nodup
  /-- The order names the scopes that are stored, and no others. -/
  order : ∀ kind key, (kind, key) ∈ m.order ↔ key ∈ (m.scopes kind).names

theorem Represents.apart (h : m.Represents c) (hc : c.Consistent) {key table : String}
    (hkey : key ∈ m.views.names) (htable : table ∈ m.tables.names) :
    key ≠ Name.normalize table := by
  obtain ⟨v, hv, hkv, rfl⟩ := (h.mem_names .view key).1 hkey
  obtain ⟨t, ht, hkt, rfl⟩ := (h.mem_names .table table).1 htable
  intro heq
  have hclash : v.Clashes t := by
    refine (Layout.clashes_iff_of_ne (by simp [hkv, hkt])).2 ?_
    rw [(hc.normalized v hv).view hkv, heq]
  have hsame := hc.eq_of_clashes hv ht hclash
  rw [hsame, hkt] at hkv
  cases hkv

/-- **The stores agree after any calls**, refused ones among them. -/
theorem stores_coherent (h : m.Reachable) : m.Coherent := by
  obtain ⟨c, hreach, hm⟩ := h.represents
  have hc := hreach.consistent
  refine ⟨fun kind key s hs => ?_, fun key s hs => ?_, fun key hkey table htable => ?_, ?_,
    fun kind key => ?_⟩
  · obtain ⟨l, -, hsl⟩ := exists_of_rel (hm.scopes kind key) hs
    exact hsl.coherent
  · obtain ⟨l, hl, hsl⟩ := exists_of_rel (hm.scopes .view key) hs
    obtain ⟨hk, rfl⟩ := Catalog.stored?_eq_some hl
    have hn := hc.normalized l (List.mem_of_find?_eq_some hl)
    refine ⟨hn.view hk, fun field hfield => ?_⟩
    rw [hsl.fields] at hfield
    obtain ⟨f, hf, rfl⟩ := List.mem_map.1 hfield
    have := hn.fields f hf
    rwa [hk] at this
  · exact hm.apart hc hkey htable
  · exact hm.order ▸ hc.nodup_order
  · rw [hm.order, Catalog.mem_order, hm.mem_names]

/-- What is stored after the calls `nodeCalls`. -/
def nodeRegistry : Registry where
  tables := ⟨[("Node", ⟨["id"], ⟨[("id", .long)]⟩, ⟨[("id", 0)]⟩⟩),
    ("node", ⟨["id", "ID"], ⟨[("ID", .intVar), ("id", .string)]⟩, ⟨[("ID", 1), ("id", 0)]⟩⟩)]⟩
  views := ⟨[("IDS", ⟨["ID", "READY"], ⟨[("READY", .bool), ("ID", .string)]⟩,
    ⟨[("READY", 1), ("ID", 0)]⟩⟩)]⟩
  order := [(.table, "node"), (.table, "Node"), (.view, "IDS")]

theorem reachable_nodeRegistry : nodeRegistry.Reachable :=
  ⟨Catalog.nodeCalls, by decide +kernel⟩

/-- The calls that are refused leave nothing behind: the columns of the first table are told apart
by case, and no table has the view's key. -/
theorem stores_coherent_node :
    nodeRegistry.Reachable ∧
      (∀ s, nodeRegistry.tables.get? "node" = some s →
        ∀ i, s.positions.get? "ID" = some i ↔ s.fields[i]? = some "ID") ∧
      (∀ table ∈ nodeRegistry.tables.names, "IDS" ≠ Name.normalize table) ∧
      (ScopeKind.table, "IDS") ∉ nodeRegistry.order := by
  have hm := stores_coherent reachable_nodeRegistry
  refine ⟨reachable_nodeRegistry, fun s hs => (hm.scopes .table _ s hs).index "ID",
    hm.apart "IDS" (.head _), fun htable => ?_⟩
  exact hm.apart "IDS" (.head _) "IDS" ((hm.order .table "IDS").1 htable) (by decide +kernel)

/-- **Later calls leave every answer that has been given**, under whatever spelling it was asked
for. -/
theorem answers_stable (h : m.Reachable) (calls : List Catalog.Call) :
    (∃ ls ls', m.layouts = .ok ls ∧ (m.after calls).layouts = .ok ls' ∧ ls <+: ls') ∧
    (∀ scope l, m.layout scope = .ok l → (m.after calls).layout scope = .ok l) ∧
    (∀ scope name t, m.typeOf scope name = .ok t → (m.after calls).typeOf scope name = .ok t) ∧
    (∀ scope name i, m.positionOf scope name = .ok i →
      (m.after calls).positionOf scope name = .ok i) ∧
    ∀ name, m.isView name = true → (m.after calls).isView name = true := by
  obtain ⟨c, hc, hm⟩ := h.represents
  have hm' := (hm.run hc calls).1
  obtain ⟨hlayouts, hlayout, htype, hposition, hview⟩ := hc.answers_kept calls
  refine ⟨⟨_, _, hm.layouts hc.consistent, hm'.layouts (hc.after calls).consistent, hlayouts⟩,
    fun scope l => ?_, fun scope name t => ?_, fun scope name i => ?_, fun name => ?_⟩
  · rw [hm.layout, hm'.layout, mapError_eq_ok, mapError_eq_ok]
    exact hlayout scope l
  · rw [hm.typeOf, hm'.typeOf]
    exact htype scope name t
  · rw [hm.positionOf, hm'.positionOf, mapError_eq_ok, mapError_eq_ok]
    exact hposition scope name i
  · rw [hm.isView, hm'.isView]
    exact hview name

/-- A table that comes later under the very spelling by which the view was asked for does not take
the view's place. -/
theorem answers_stable_node :
    nodeRegistry.Reachable ∧ nodeRegistry.positionOf "Ids" "ready" = .ok 1 ∧
      (nodeRegistry.after [.registerTable ⟨"Ids", [⟨"ready", .long, false⟩]⟩]).positionOf
        "Ids" "ready" = .ok 1 := by
  have hposition : nodeRegistry.positionOf "Ids" "ready" = .ok 1 := by rfl
  obtain ⟨-, -, -, hstable, -⟩ := answers_stable reachable_nodeRegistry
    [.registerTable ⟨"Ids", [⟨"ready", .long, false⟩]⟩]
  exact ⟨reachable_nodeRegistry, hposition, hstable _ _ _ hposition⟩

end Registry

end ViewTyping
