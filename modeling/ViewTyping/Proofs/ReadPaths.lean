import ViewTyping.Proofs.RegistryHistory

/-!
# Ways to read a registry

What a scope holds can be learnt from the answer to its registration, from the list of all layouts,
from its own layout, and field by field. Each way reads other stores of a registry: the list goes by
the order and the recorded kind, a layout by the list of fields and their types, a look-up by the
spelling and the maps. In the catalog that a registry represents they lead to the same entries:

* `signatures_after`: the layouts are listed as they were registered and answered, none left out.
* `typeOf_eq_unknownScope`: a field is looked for in a scope that is not known exactly if the scope
  has no layout.
* `Consistent.lookup_iff`: the type and the position that are found under a name are those that the
  layout lists at that position.

So they do in the registry (`read_paths_agree`).
-/

set_option autoImplicit false

namespace ViewTyping

/-- What a layout says apart from the names of its fields. -/
def Layout.signature (l : Layout) : ScopeKind × String × List ValueType :=
  (l.kind, l.scope, l.types)

namespace Catalog

/-- The types that a registration is answered if it succeeds. -/
def Answer.tuple? : Answer → Option (List ValueType)
  | .tuple types => some types
  | _ => none

/-- The scope that a call has registered, if it has, with the types that it was answered. -/
def Call.registered? : Call → Answer → Option (ScopeKind × String × List ValueType)
  | .registerTable t, answer => answer.tuple?.map fun types => (.table, t.name, types)
  | .registerView name _, answer =>
    answer.tuple?.map fun types => (.view, Name.normalize name, types)
  | _, _ => none

/-- The scopes that calls register, in the order of the calls that succeed. -/
def registrations (c : Catalog) (calls : List Call) :
    List (ScopeKind × String × List ValueType) :=
  (calls.zip (c.performAll calls)).filterMap fun x => x.1.registered? x.2.answer

variable {c : Catalog} {l : Layout}

/-! ## Registrations -/

theorem signature_of_tableLayout {t : Table} (h : (c.tableLayout t).result = .ok l) :
    l.signature = (.table, t.name, l.types) := by
  obtain ⟨-, -, hl⟩ := tableLayout_iff.1 h
  rw [Layout.signature, hl.kind, hl.scope]

theorem signature_of_viewLayout {name : String} {select : List Expr}
    (h : (c.viewLayout name select).result = .ok l) :
    l.signature = (.view, Name.normalize name, l.types) := by
  obtain ⟨-, -, hl⟩ := (viewLayout_iff (v := ⟨name, select⟩)).1 h
  rw [Layout.signature, hl.kind, hl.scope]
  rfl

/-- A layout that is entered is listed behind all others. -/
theorem signatures_enter {layout : Logged Layout} {kind : ScopeKind} {key : String}
    (h : ∀ l, layout.result = .ok l → l.signature = (kind, key, l.types)) :
    (c.enter layout).catalog.layouts.map Layout.signature = c.layouts.map Layout.signature ++
      ((c.enter layout).answer.tuple?.map fun types => (kind, key, types)).toList := by
  cases hl : layout.result with
  | error d => simp [enter, hl, afterRegistration, Answer.ofResult, Answer.tuple?]
  | ok l =>
    obtain ⟨hcatalog, hanswer⟩ := enter_ok (c := c) hl
    rw [hcatalog, hanswer, push, List.map_append, List.map_singleton, h l hl]
    rfl

theorem signatures_perform (c : Catalog) (call : Call) :
    (c.perform call).catalog.layouts.map Layout.signature =
      c.layouts.map Layout.signature ++ (call.registered? (c.perform call).answer).toList := by
  cases call with
  | registerTable t => exact signatures_enter fun l hl => signature_of_tableLayout hl
  | registerView name select => exact signatures_enter fun l hl => signature_of_viewLayout hl
  | _ => exact (List.append_nil _).symm

theorem registrations_cons (c : Catalog) (call : Call) (calls : List Call) :
    c.registrations (call :: calls) = (call.registered? (c.perform call).answer).toList ++
      (c.perform call).catalog.registrations calls := by
  unfold registrations
  rw [performAll, List.zip_cons_cons, List.filterMap_cons]
  cases call.registered? (c.perform call).answer <;> rfl

/-- **The layouts are listed as they were registered.** -/
theorem signatures_after (c : Catalog) (calls : List Call) :
    (c.after calls).layouts.map Layout.signature =
      c.layouts.map Layout.signature ++ c.registrations calls := by
  induction calls generalizing c with
  | nil => exact (List.append_nil _).symm
  | cons call calls ih =>
    show ((c.perform call).catalog.after calls).layouts.map Layout.signature = _
    rw [ih, signatures_perform, registrations_cons, List.append_assoc]

/-! ## Look-ups -/

theorem layout_eq_error {scope : String} {d : Diagnostic} (h : c.layout scope = .error d) :
    d = .unknownScope scope := by
  unfold layout at h
  split at h
  · cases h
  · split at h
    · cases h
    · cases h
      rfl

/-- A scope is unknown to a look-up exactly if it has no layout. -/
theorem typeOf_eq_unknownScope {scope name : String} :
    (∃ scope', c.typeOf scope name = .error (.unknownScope scope')) ↔
      ∃ d, c.layout scope = .error d := by
  unfold typeOf field
  cases h : c.layout scope with
  | error d =>
    obtain rfl := layout_eq_error h
    exact ⟨fun _ => ⟨_, rfl⟩, fun _ => ⟨scope, rfl⟩⟩
  | ok l =>
    -- the scope is found, so all that can be missing is the field
    refine ⟨fun ⟨scope', hscope⟩ => ?_, fun ⟨d, hd⟩ => (by cases hd)⟩
    cases hf : l.field? (if l.kind = .view then Name.normalize name else name) with
    | none => simp [hf, Except.map] at hscope
    | some f => simp [hf, Except.map] at hscope

/-- **What is found under a name is what is listed at its position.** -/
theorem Consistent.lookup_iff (hc : c.Consistent) {scope name : String} {t : ValueType} {i : Nat}
    (h : c.layout scope = .ok l) :
    c.typeOf scope name = .ok t ∧ c.positionOf scope name = .ok i ↔
      l.fields[i]? = some ⟨l.kind.key name, i, t⟩ := by
  have hwf : l.WellFormed := hc.wellFormed l (hc.layout_eq_ok_iff.1 h).1
  have hfield (f : Field) : c.field scope name = .ok f ↔
      l.fields[f.position]? = some f ∧ f.name = l.kind.key name := by
    rw [field_eq_ok_iff, ← hwf.field?_eq_some_iff]
    simp [h]
  constructor
  · rintro ⟨ht, hi⟩
    obtain ⟨f, hf, rfl⟩ := typeOf_eq_ok_iff.1 ht
    obtain ⟨f', hf', rfl⟩ := positionOf_eq_ok_iff.1 hi
    obtain rfl : f = f' := Except.ok.inj (hf.symm.trans hf')
    obtain ⟨hlisted, hname⟩ := (hfield f).1 hf
    rw [hlisted, ← hname]
  · intro hlisted
    have hf : c.field scope name = .ok ⟨l.kind.key name, i, t⟩ := (hfield _).2 ⟨hlisted, rfl⟩
    exact ⟨typeOf_eq_ok_iff.2 ⟨_, hf, rfl⟩, positionOf_eq_ok_iff.2 ⟨_, hf, rfl⟩⟩

end Catalog

namespace Registry

variable {m : Registry} {c : Catalog}

/-- The scopes that calls register, in the order of the calls that succeed. -/
def registrations (m : Registry) (calls : List Catalog.Call) :
    List (ScopeKind × String × List ValueType) :=
  (calls.zip (m.performAll calls)).filterMap fun x => x.2.answer?.bind x.1.registered?

theorem filterMap_registered? {os : List Outcome} {os' : List Catalog.Outcome}
    (h : List.Forall₂ Outcome.Represents os os') (calls : List Catalog.Call) :
    (calls.zip os).filterMap (fun x => x.2.answer?.bind x.1.registered?) =
      (calls.zip os').filterMap fun x => x.1.registered? x.2.answer := by
  induction h generalizing calls with
  | nil => cases calls <;> rfl
  | @cons o o' os os' ho _ ih =>
    cases calls with
    | nil => rfl
    | cons call calls =>
      simp only [List.zip_cons_cons, List.filterMap_cons, ho.answer, Option.bind_some, ih]

theorem Represents.registrations (h : m.Represents c) (hc : c.Reachable)
    (calls : List Catalog.Call) : m.registrations calls = c.registrations calls :=
  filterMap_registered? (h.run hc calls).2 calls

/-- **All ways to read a registry agree.** The layouts are those of the registrations that
succeeded, with the types that were answered; each is found under its name; and what is found under
the name of a field is what its scope's layout lists. -/
theorem read_paths_agree (h : m.Reachable) :
    (∃ ls, m.layouts = .ok ls ∧
      (∀ calls, m = ({} : Registry).after calls →
        ls.map Layout.signature = registrations {} calls) ∧
      ∀ l ∈ ls, m.layout l.scope = .ok l) ∧
    (∀ scope name, (∃ e, m.layout scope = .error e) ↔
      ∃ scope', m.typeOf scope name = .error (.unknownScope scope')) ∧
    ∀ scope l, m.layout scope = .ok l → ∀ name t i,
      (m.typeOf scope name = .ok t ∧ m.positionOf scope name = .ok i ↔
        l.fields[i]? = some ⟨l.kind.key name, i, t⟩) := by
  obtain ⟨c, hreach, hm⟩ := h.represents
  have hc := hreach.consistent
  refine ⟨⟨c.layouts, hm.layouts hc, fun calls hcalls => ?_, fun l hl => ?_⟩,
    fun scope name => ?_, fun scope l hl name t i => ?_⟩
  · have hc' : (({} : Catalog).after calls).Reachable := ⟨calls, rfl⟩
    have hsame : c.layouts = (({} : Catalog).after calls).layouts := by
      have hm' := (represents_after calls).layouts hc'.consistent
      rw [← hcalls, hm.layouts hc] at hm'
      exact Except.ok.inj hm'
    rw [hsame, Catalog.signatures_after, represents_empty.registrations ⟨[], rfl⟩]
    rfl
  · rw [hm.layout, hc.layout_of_mem hl]
    rfl
  · rw [hm.layout, hm.typeOf, Catalog.typeOf_eq_unknownScope]
    cases c.layout scope <;> simp [Except.mapError]
  · rw [hm.layout, mapError_eq_ok] at hl
    rw [hm.typeOf, hm.positionOf, mapError_eq_ok]
    exact hc.lookup_iff hl

/-- Of six calls three are refused and three are listed. The view is found in another spelling than
that of its registration, with the field that it lists second. -/
theorem read_paths_agree_node :
    nodeRegistry.Reachable ∧
      registrations {} Catalog.nodeCalls = [(.table, "node", [.string, .intVar]),
        (.table, "Node", [.long]), (.view, "IDS", [.string, .bool])] ∧
      nodeRegistry.typeOf "iDs" "Ready" = .ok .bool ∧
      nodeRegistry.positionOf "iDs" "Ready" = .ok 1 := by
  obtain ⟨⟨ls, hls, hlisted, -⟩, -, hlookup⟩ := read_paths_agree reachable_nodeRegistry
  obtain rfl := Except.ok.inj (hls.symm.trans (by rfl : nodeRegistry.layouts = .ok _))
  exact ⟨reachable_nodeRegistry, (hlisted Catalog.nodeCalls (by decide +kernel)).symm,
    (hlookup "iDs" _ (by rfl) "Ready" _ _).2 (by rfl)⟩

end Registry

end ViewTyping
