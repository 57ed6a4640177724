import ViewTyping.Proofs.Assignment
import ViewTyping.Proofs.CatalogHistory

/-!
# Orders of registration

A check registers all tables and then the views, in one order of many. Here the tables and views of
an accepted program are registered in any order in which each view comes after the views it reads
(`Program.Schedule`), and each of them gets the layout that it has in the catalog of the check.

* `reachable_check`: the catalog of a check has a history, so it is consistent.
* `Recording.step`: a registration that is due enters the layout of the check. Its name is free, as
  no two scopes of the check clash, and its columns have the types that they have in the check, as
  the views that it reads have their layouts already.
* `Recording.run`: so do all registrations, one after the other.
* `registration_confluent`: the catalog at the end differs from that of the check in the order of
  its layouts only.
-/

set_option autoImplicit false

namespace ViewTyping

open Catalog (Call Registers)

/-- The call that registers a view. -/
def View.registration (v : View) : Call := .registerView v.name v.select

theorem View.registration_inj {v w : View} (h : v.registration = w.registration) : v = w := by
  obtain ⟨name, select⟩ := v
  obtain ⟨name', select'⟩ := w
  simpa [registration] using h

/-- The kind and the key of the scope that a call registers. -/
def Catalog.Call.scope? : Call → Option (ScopeKind × String)
  | .registerTable t => some (.table, t.name)
  | .registerView name _ => some (.view, Name.normalize name)
  | _ => none

/-- The layout is that of the scope which the call registers. -/
def Catalog.Records (c : Catalog) (call : Call) (l : Layout) : Prop :=
  l ∈ c.layouts ∧ call.scope? = some (l.kind, l.scope)

theorem Catalog.Consistent.eq_of_records {c : Catalog} (hc : c.Consistent) {call call' : Call}
    {l l' : Layout} (h : c.Records call l) (h' : c.Records call' l')
    (hscope : call.scope? = call'.scope?) : l = l' := by
  have heq : (l.kind, l.scope) = (l'.kind, l'.scope) :=
    Option.some.inj (h.2.symm.trans (hscope.trans h'.2))
  obtain ⟨hk, hs⟩ := Prod.mk.inj heq
  exact hc.eq_of_clashes h.1 h'.1 ((Layout.clashes_iff_of_eq hk).2 hs)

namespace Program

variable {p : Program} {c : Catalog} {calls : List Call}

/-- The registrations of the tables and views of a program. -/
def registrations (p : Program) : List Call :=
  p.tables.map .registerTable ++ p.views.map View.registration

/-- One call for each table and each view of the program. A view comes after the views it reads;
tables may come before, between or after the views. -/
structure Schedule (p : Program) (calls : List Call) : Prop where
  perm : calls.Perm p.registrations
  reads : ∀ earlier v later, calls = earlier ++ v.registration :: later →
    ∀ w, p.Reads v w → w.registration ∈ earlier

/-! ## The catalog of a check -/

theorem reachable_of_registers {α : Type} {layout : Catalog → α → Except Diagnostic Layout}
    (hgrants : ∀ {c x l}, layout c x = .ok l → c.Grants l) {xs : List α} {ls : List Layout}
    (h : Registers layout c xs ls) (hc : c.Reachable) :
    Catalog.Reachable ⟨c.layouts ++ ls⟩ := by
  induction h with
  | nil => simpa using hc
  | cons hl _ ih => simpa [Catalog.push] using ih (hc.push (hgrants hl))

theorem reachable_tableCatalog (h : p.tableCatalog = .ok c) : c.Reachable := by
  obtain ⟨tl, htl, rfl⟩ := (foldlM_push_iff p.tables).1 h
  exact reachable_of_registers (fun hl => .table _ hl) htl ⟨[], rfl⟩

/-- **The catalog of a check has a history.** -/
theorem reachable_check (h : p.check = .ok c) : c.Reachable := by
  rw [check_eq] at h
  cases ht : p.tableCatalog with
  | error d => rw [ht] at h; cases h
  | ok tables =>
    rw [ht, Except.bind] at h
    cases ho : p.viewOrder tables with
    | error d => rw [ho] at h; cases h
    | ok vs =>
      rw [ho] at h
      obtain ⟨vl, hvl, rfl⟩ := (foldlM_push_iff vs).1 h
      exact reachable_of_registers (fun hl => .view _ hl) hvl (reachable_tableCatalog ht)

/-- What the catalog of a check holds. -/
structure Holds (p : Program) (c : Catalog) : Prop where
  consistent : c.Consistent
  tableNames : (p.tables.map Table.name).Nodup
  keys : p.keys.Nodup
  table : ∀ t ∈ p.tables, ∃ l ∈ c.layouts, t.HasLayout l
  view : ∀ v ∈ p.views, ∃ l ∈ c.layouts, v.HasLayout c.columnType l
  scope : ∀ l ∈ c.layouts, (∃ t ∈ p.tables, t.HasLayout l) ∨
    ∃ v ∈ p.views, v.HasLayout c.columnType l

theorem holds_of_check (h : p.check = .ok c) : p.Holds c := by
  have hreach := reachable_check h
  obtain ⟨vs, tl, vl, hc, rfl⟩ := check_eq_ok.1 h
  have hmem : ∀ v, v ∈ vs ↔ v ∈ p.views := fun _ => hc.ordered.perm.mem_iff
  refine ⟨hreach.consistent, hc.names, hc.ordered.nodup, fun t ht => ?_, fun v hv => ?_,
    fun l hl => ?_⟩
  · obtain ⟨l, hl, hlayout⟩ := exists_mem_right hc.tables ht
    exact ⟨l, List.mem_append_left _ hl, hlayout⟩
  · obtain ⟨l, hl, hlayout⟩ := exists_mem_right hc.views ((hmem v).2 hv)
    exact ⟨l, List.mem_append_right _ hl, hlayout⟩
  · rcases List.mem_append.1 hl with hl | hl
    · exact .inl (exists_mem_left hc.tables hl)
    · obtain ⟨v, hv, hlayout⟩ := exists_mem_left hc.views hl
      exact .inr ⟨v, (hmem v).1 hv, hlayout⟩

theorem records_table {t : Table} {l : Layout} (hl : l ∈ c.layouts) (h : t.HasLayout l) :
    c.Records (.registerTable t) l :=
  ⟨hl, by rw [Call.scope?, h.kind, h.scope]⟩

theorem records_view {v : View} {l : Layout} (hl : l ∈ c.layouts)
    (h : v.HasLayout c.columnType l) : c.Records v.registration l :=
  ⟨hl, by rw [View.registration, Call.scope?, h.kind, h.scope, View.key]⟩

/-- Every layout of the catalog is that of a table or a view. -/
theorem Holds.exists_registration (h : p.Holds c) {l : Layout} (hl : l ∈ c.layouts) :
    ∃ call ∈ p.registrations, c.Records call l := by
  rcases h.scope l hl with ⟨t, ht, hlayout⟩ | ⟨v, hv, hlayout⟩
  · exact ⟨_, List.mem_append_left _ (List.mem_map_of_mem ht), records_table hl hlayout⟩
  · exact ⟨_, List.mem_append_right _ (List.mem_map_of_mem hv), records_view hl hlayout⟩

/-- The registrations are for different scopes. -/
theorem Holds.nodup_scopes (h : p.Holds c) : (p.registrations.map Call.scope?).Nodup := by
  have htables : p.tables.map (Call.scope? ∘ .registerTable) =
      (p.tables.map Table.name).map fun name => some (.table, name) := by
    simp [Function.comp_def, Call.scope?]
  have hviews : p.views.map (Call.scope? ∘ View.registration) =
      p.keys.map fun key => some (.view, key) := by
    simp [Function.comp_def, Call.scope?, View.registration, Program.keys, View.key]
  rw [registrations, List.map_append, List.map_map, List.map_map, htables, hviews]
  refine (h.tableNames.map fun _ _ h => ?_).append (h.keys.map fun _ _ h => ?_) ?_
  · simpa using h
  · simpa using h
  · intro scope ht hv
    obtain ⟨name, -, rfl⟩ := List.mem_map.1 ht
    obtain ⟨key, -, hkey⟩ := List.mem_map.1 hv
    cases hkey

/-! ## Registering in another order -/

/-- A catalog on the way: the calls in `earlier` have entered the layouts that they have in `c`. -/
structure Recording (c : Catalog) (earlier : List Call) (d : Catalog) : Prop where
  reachable : d.Reachable
  layouts : List.Forall₂ c.Records earlier d.layouts

theorem Recording.subset {earlier : List Call} {d : Catalog} (h : Recording c earlier d) :
    d.layouts ⊆ c.layouts := fun _ hl =>
  have ⟨_, _, hrec⟩ := exists_mem_left h.layouts hl
  hrec.1

section
variable (hp : p.Holds c) (hs : p.Schedule calls) {earlier later : List Call} {d : Catalog}
include hp hs

/-- The scope of the next call is free. -/
theorem Recording.free {call : Call} (hd : Recording c earlier d)
    (hcalls : calls = earlier ++ call :: later) {l : Layout} (hl : c.Records call l) :
    d.Free l := by
  intro l' hl' hclash
  obtain ⟨call', hcall', hrec⟩ := exists_mem_left hd.layouts hl'
  obtain rfl : l' = l := hp.consistent.eq_of_clashes hrec.1 hl.1 hclash
  -- an earlier call would have registered the same scope
  have hnd : (calls.map Call.scope?).Nodup := (hs.perm.map _).nodup_iff.2 hp.nodup_scopes
  rw [hcalls, List.map_append] at hnd
  exact (List.nodup_append.1 hnd).2.2 _ (List.mem_map_of_mem hcall') call.scope? (by simp)
    (hrec.2.trans hl.2.symm)

/-- The columns of a view that is due have the types that they have in the end. -/
theorem Recording.columnType_eq {v : View} (hd : Recording c earlier d)
    (hcalls : calls = earlier ++ v.registration :: later) (hv : v ∈ p.views) {e : Expr}
    (he : e ∈ v.select) {ref : ColumnRef} (href : ref ∈ e.columns) :
    c.columnType ref = d.columnType ref := by
  have hc := hp.consistent
  have hdc := hd.reachable.consistent
  refine hc.columnType_eq_of_view? hdc (Option.ext fun l => ?_)
  rw [hc.view?_eq_some_iff, hdc.view?_eq_some_iff]
  refine ⟨fun ⟨hl, hk, hscope⟩ => ⟨?_, hk, hscope⟩, fun ⟨hl, h⟩ => ⟨hd.subset hl, h⟩⟩
  -- the view of that name is read, so it has been registered
  obtain ⟨w, hw, hlayout⟩ : ∃ w ∈ p.views, w.HasLayout c.columnType l := by
    rcases hp.scope l hl with ⟨t, -, hlayout⟩ | h
    · rw [hlayout.kind] at hk
      cases hk
    · exact h
  have hreads : p.Reads v w :=
    ⟨hv, hw, e, he, ref.table, mentions_of_mem_columns href, hscope.symm.trans hlayout.scope⟩
  obtain ⟨l', hl', hrec⟩ := exists_mem_right hd.layouts (hs.reads earlier v later hcalls w hreads)
  rwa [hc.eq_of_records (records_view hl hlayout) hrec rfl]

/-- **A registration that is due enters the layout of the check.** -/
theorem Recording.step {call : Call} (hd : Recording c earlier d)
    (hcalls : calls = earlier ++ call :: later) :
    ∃ l, c.Records call l ∧ (d.perform call).catalog = d.push l ∧
      (d.perform call).answer = .tuple l.types := by
  have hmem : call ∈ p.registrations := hs.perm.mem_iff.1 (by simp [hcalls])
  rcases List.mem_append.1 hmem with hmem | hmem
  · obtain ⟨t, ht, rfl⟩ := List.mem_map.1 hmem
    obtain ⟨l, hl, hlayout⟩ := hp.table t ht
    have hrec := records_table hl hlayout
    have hok : (d.tableLayout t).result = .ok l :=
      hd.reachable.consistent.tableLayout_iff_free.2 ⟨hlayout, hd.free hp hs hcalls hrec⟩
    exact ⟨l, hrec, Catalog.enter_ok hok⟩
  · obtain ⟨v, hv, rfl⟩ := List.mem_map.1 hmem
    obtain ⟨l, hl, hlayout⟩ := hp.view v hv
    have hrec := records_view hl hlayout
    have hok : (d.viewLayout v.name v.select).result = .ok l := Catalog.viewLayout_iff_free.2
      ⟨hlayout.congr fun e he ref href => hd.columnType_eq hp hs hcalls hv he href,
        hd.free hp hs hcalls hrec⟩
    exact ⟨l, hrec, Catalog.enter_ok hok⟩

end

/-- **So do all registrations, one after the other.** -/
theorem Recording.run (hp : p.Holds c) (hs : p.Schedule calls) :
    ∀ (later : List Call) {earlier : List Call} {d : Catalog}, Recording c earlier d →
    calls = earlier ++ later →
    (∀ outcome ∈ d.performAll later, ∃ types, outcome.answer = .tuple types) ∧
      Recording c calls (d.after later)
  | [], earlier, d, hd, hcalls => by
    rw [List.append_nil] at hcalls
    exact ⟨fun _ h => (by cases h), hcalls ▸ hd⟩
  | call :: later, earlier, d, hd, hcalls => by
    obtain ⟨l, hl, hcatalog, hanswer⟩ := hd.step hp hs hcalls
    have hnext : Recording c (earlier ++ [call]) (d.perform call).catalog := by
      refine ⟨hd.reachable.after [call], ?_⟩
      rw [hcatalog]
      exact List.rel_append hd.layouts (.cons hl .nil)
    obtain ⟨houtcomes, hend⟩ := Recording.run hp hs later hnext (by simp [hcalls])
    refine ⟨fun outcome houtcome => ?_, hend⟩
    rcases List.mem_cons.1 houtcome with rfl | houtcome
    · exact ⟨l.types, hanswer⟩
    · exact houtcomes outcome houtcome

theorem Recording.layouts_perm {d : Catalog} (hp : p.Holds c) (hs : p.Schedule calls)
    (hd : Recording c calls d) : d.layouts.Perm c.layouts := by
  have hc := hp.consistent
  refine (List.perm_ext_iff_of_nodup hd.reachable.consistent.nodup_order.of_map
    hc.nodup_order.of_map).2 fun l => ⟨fun hl => hd.subset hl, fun hl => ?_⟩
  obtain ⟨call, hcall, hrec⟩ := hp.exists_registration hl
  obtain ⟨l', hl', hrec'⟩ := exists_mem_right hd.layouts (hs.perm.mem_iff.2 hcall)
  rwa [hc.eq_of_records hrec hrec' rfl]

/-- **The order of registration does not matter**, as long as each view comes after the views it
reads: no call is refused, and the layouts are those of the check. -/
theorem registration_confluent (h : p.check = .ok c) (hs : p.Schedule calls) :
    (∀ outcome ∈ ({} : Catalog).performAll calls, ∃ types, outcome.answer = .tuple types) ∧
    (∀ t ∈ p.tables, ∃ l, l.kind = .table ∧ c.layout t.name = .ok l ∧
      (({} : Catalog).after calls).layout t.name = .ok l) ∧
    (∀ v ∈ p.views, ∃ l, l.kind = .view ∧ c.layout v.name = .ok l ∧
      (({} : Catalog).after calls).layout v.name = .ok l) ∧
    (({} : Catalog).after calls).layouts.Perm c.layouts := by
  have hp := holds_of_check h
  have hc := hp.consistent
  obtain ⟨houtcomes, hend⟩ := Recording.run hp hs calls ⟨⟨[], rfl⟩, .nil⟩ rfl
  have hperm := hend.layouts_perm hp hs
  have hsame {scope : String} {l : Layout} (hl : c.layout scope = .ok l) :
      (({} : Catalog).after calls).layout scope = .ok l :=
    hc.layout_of_subset hend.reachable.consistent hperm.symm.subset hl
  refine ⟨houtcomes, fun t ht => ?_, fun v hv => ?_, hperm⟩
  · obtain ⟨l, hl, hlayout⟩ := hp.table t ht
    have hfound : c.layout t.name = .ok l :=
      hc.layout_eq_ok_iff.2 ⟨hl, by rw [hlayout.kind, hlayout.scope]; rfl⟩
    exact ⟨l, hlayout.kind, hfound, hsame hfound⟩
  · obtain ⟨l, hl, hlayout⟩ := hp.view v hv
    have hfound : c.layout v.name = .ok l :=
      hc.layout_eq_ok_iff.2 ⟨hl, by rw [hlayout.kind, hlayout.scope]; rfl⟩
    exact ⟨l, hlayout.kind, hfound, hsame hfound⟩

/-- The view of loads, then the table that it is over, then the total over the view. -/
def viewsFirst : List Call :=
  [totalLoad.views[1].registration, .registerTable totalLoad.tables[0],
    totalLoad.views[0].registration]

theorem schedule_viewsFirst : totalLoad.Schedule viewsFirst := by
  have htotal : totalLoad.readKeys totalLoad.views[0] = ["LOADS"] := rfl
  have hloads : totalLoad.readKeys totalLoad.views[1] = [] := rfl
  refine ⟨(List.Perm.swap _ _ _).trans (.cons _ (.swap _ _ _)), ?_⟩
  intro earlier v later hcalls w hr
  have hkey : w.key ∈ totalLoad.readKeys v := (reads_iff hr.1 hr.2.1).1 hr
  rcases earlier with _ | ⟨x, _ | ⟨y, _ | ⟨z, earlier⟩⟩⟩
  · rw [← View.registration_inj (List.cons.inj hcalls).1, hloads] at hkey
    cases hkey
  · cases (List.cons.inj (List.cons.inj hcalls).2).1
  · simp only [viewsFirst, List.cons_append, List.nil_append, List.cons.injEq] at hcalls
    obtain ⟨hx, -, hv, -⟩ := hcalls
    rw [← View.registration_inj hv, htotal, List.mem_singleton] at hkey
    have hkeys : totalLoad.keys.Nodup := by decide
    have hmem : totalLoad.views[1] ∈ totalLoad.views := List.getElem_mem _
    rw [eq_of_key_eq hkeys hr.2.1 hmem hkey, hx]
    exact .head _
  · simp [viewsFirst] at hcalls

/-- The view may come before its table; the layouts are those of the check. -/
theorem registration_confluent_viewsFirst :
    totalLoad.check = .ok totalLoadCatalog ∧ totalLoad.Schedule viewsFirst ∧
      (∀ outcome ∈ ({} : Catalog).performAll viewsFirst, ∃ types, outcome.answer = .tuple types) ∧
      (({} : Catalog).after viewsFirst).layouts.Perm totalLoadCatalog.layouts := by
  have hcheck : totalLoad.check = .ok totalLoadCatalog := rfl
  obtain ⟨houtcomes, -, -, hperm⟩ := registration_confluent hcheck schedule_viewsFirst
  exact ⟨hcheck, schedule_viewsFirst, houtcomes, hperm⟩

end Program

end ViewTyping
