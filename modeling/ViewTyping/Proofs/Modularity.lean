import ViewTyping.Proofs.DeclarationOrder
import ViewTyping.Proofs.RegistrationOrder

/-!
# Parts of a program

Views that no other view reads may be left out of a program. What is left keeps its layouts and its
order: a view is typed by what it reads, and the sorter's choice among the views that are left is not
changed by those in between.

* `NameGraph.Placing.filter`: the run of a part that is closed under reading is the whole run
  without the views that are left out.
* `viewOrder_placing`: the order of views is that run, by key.
* `viewOrder_sublist`: so the views of a part come in the order that they have in the whole.
* `Checked.sublist`: the layouts of the whole that belong to the part are those of the part.
-/

set_option autoImplicit false

namespace ViewTyping

/-! ## Runs of a part -/

namespace NameGraph

variable {G : NameGraph} {keep : String → Bool}

/-- The views to be kept, with all they read. -/
def restrict (G : NameGraph) (keep : String → Bool) : NameGraph where
  IsView n := G.IsView n ∧ keep n = true
  Reads n m := G.Reads n m ∧ keep n = true

/-- What is kept includes what it reads. -/
def Closed (G : NameGraph) (keep : String → Bool) : Prop :=
  ∀ n m, keep n = true → G.Reads n m → keep m = true

theorem Closed.ready_iff (h : G.Closed keep) {placed : List String} {n : String}
    (hn : keep n = true) :
    (G.restrict keep).Ready (placed.filter keep) n ↔ G.Ready placed n := by
  constructor
  · intro hr
    refine ⟨hr.view.1, fun hm => hr.fresh (List.mem_filter.2 ⟨hm, hn⟩), fun m hm => ?_⟩
    exact (List.mem_filter.1 (hr.reads m ⟨hm, hn⟩)).1
  · intro hr
    refine ⟨⟨hr.view, hn⟩, fun hm => hr.fresh (List.mem_filter.1 hm).1, fun m hm => ?_⟩
    exact List.mem_filter.2 ⟨hr.reads m hm.1, h n m hn hm.1⟩

/-- **The run of a part** is the whole run without the views that are left out. -/
theorem Placing.filter (h : G.Closed keep) {placed rest : List String}
    (hrun : G.Placing placed rest) :
    (G.restrict keep).Placing (placed.filter keep) (rest.filter keep) := by
  induction hrun with
  | stop hnone =>
    refine .stop fun n hr => hnone n ?_
    exact (h.ready_iff hr.view.2).1 hr
  | @place placed rest n hr hmin _ ih =>
    rw [List.filter_append, List.filter_singleton] at ih
    cases hn : keep n with
    | true =>
      rw [List.filter_cons_of_pos hn]
      refine .place ((h.ready_iff hn).2 hr) (fun m hm => hmin m ?_) (by simpa [hn] using ih)
      exact (h.ready_iff hm.view.2).1 hm
    | false =>
      -- a view that is left out changes nothing for the others
      rw [List.filter_cons_of_neg (by simp [hn])]
      simpa [hn] using ih

end NameGraph

namespace Program

variable {p : Program} {c : Catalog} {views : List View}

/-- **The order of views is the run of their names.** -/
theorem viewOrder_placing {vs : List View} (h : p.viewOrder c = .ok vs) :
    p.nameGraph.Placing [] (vs.map View.key) := by
  obtain ⟨hapart, hp⟩ := viewOrder_eq_ok h
  obtain ⟨g, hgraph, hg⟩ := graph_ok hp.nodup
  rw [viewOrder_of_apart hapart, hgraph, Except.bind] at h
  cases ho : g.order with
  | error cycle => rw [ho] at h; cases h
  | ok ids =>
    rw [ho] at h
    cases h
    obtain ⟨rfl, hperm, -⟩ := DependencyGraph.order_eq_ok ho
    have hkeys : ((Sorter.finish g).placed.filterMap (p.views[·]?)).map View.key =
        (Sorter.finish g).placed.map g.name := by
      rw [List.map_filterMap, ← List.filterMap_eq_map]
      refine List.filterMap_congr fun i hi => ?_
      obtain ⟨v, hv, -, hname⟩ := hg.view_of_lt (List.mem_range.1 (hperm.mem_iff.1 hi))
      simp [hv, hname]
    rw [hkeys, ← hg.nameGraph_eq]
    exact hg.proper.placing_finish

/-- Views are told apart by their keys. -/
theorem filterMap_view?_keys (hnd : p.keys.Nodup) {vs : List View} (hvs : ∀ v ∈ vs, v ∈ p.views) :
    (vs.map View.key).filterMap p.view? = vs := by
  rw [List.filterMap_map]
  have hfound : ∀ v ∈ vs, (p.view? ∘ View.key) v = some v := fun v hv =>
    view?_of_mem hnd (hvs v hv) (normalize_normalize v.name).symm
  rw [List.filterMap_congr hfound, List.filterMap_some]

/-! ## Views of a part -/

section
variable (hsub : views.Sublist p.views) (hclosed : ∀ v ∈ views, ∀ w, p.Reads v w → w ∈ views)
include hsub

theorem keys_sublist : (keys ⟨p.tables, views⟩).Sublist p.keys := hsub.map View.key

theorem reads_of_sublist {v w : View} (h : Reads ⟨p.tables, views⟩ v w) : p.Reads v w :=
  ⟨hsub.subset h.1, hsub.subset h.2.1, h.2.2⟩

theorem acyclic_sublist (h : p.Acyclic) : Acyclic ⟨p.tables, views⟩ := fun v hv =>
  h v (Relation.TransGen.mono (fun _ _ hr => reads_of_sublist hsub hr) _ _ hv)

theorem apart_sublist (h : p.Apart c) : Apart ⟨p.tables, views⟩ c := fun v hv =>
  h v (hsub.subset hv)

/-- A view of the whole that has the key of one of the part belongs to the part. -/
theorem mem_of_key_mem (hnd : p.keys.Nodup) {v : View} (hv : v ∈ p.views)
    (hk : v.key ∈ keys ⟨p.tables, views⟩) : v ∈ views := by
  obtain ⟨w, hw, hwk⟩ := List.mem_map.1 hk
  rwa [← eq_of_key_eq hnd (hsub.subset hw) hv hwk]

include hclosed

/-- A view of the part reads, in the part, what it reads in the whole. -/
theorem mem_readKeys_sublist {v : View} (hv : v ∈ views) {k : String} :
    k ∈ readKeys ⟨p.tables, views⟩ v ↔ k ∈ p.readKeys v := by
  rw [mem_readKeys, mem_readKeys]
  refine ⟨fun ⟨hk, h⟩ => ⟨(keys_sublist hsub).subset hk, h⟩, fun ⟨hk, h⟩ => ⟨?_, h⟩⟩
  obtain ⟨w, hw, rfl⟩ := List.mem_map.1 hk
  exact List.mem_map_of_mem (hclosed v hv w ⟨hsub.subset hv, hw, h⟩)

theorem nameGraph_sublist (hnd : p.keys.Nodup) : nameGraph ⟨p.tables, views⟩ =
    p.nameGraph.restrict fun n => decide (n ∈ keys ⟨p.tables, views⟩) := by
  have hview : ∀ n, n ∈ keys ⟨p.tables, views⟩ ↔ n ∈ p.keys ∧ n ∈ keys ⟨p.tables, views⟩ :=
    fun n => ⟨fun h => ⟨(keys_sublist hsub).subset h, h⟩, fun h => h.2⟩
  have hreads : ∀ n m, (∃ v ∈ views, v.key = n ∧ m ∈ readKeys ⟨p.tables, views⟩ v) ↔
      (∃ v ∈ p.views, v.key = n ∧ m ∈ p.readKeys v) ∧ n ∈ keys ⟨p.tables, views⟩ := by
    intro n m
    constructor
    · rintro ⟨v, hv, rfl, hm⟩
      exact ⟨⟨v, hsub.subset hv, rfl, (mem_readKeys_sublist hsub hclosed hv).1 hm⟩,
        List.mem_map_of_mem hv⟩
    · rintro ⟨⟨v, hv, rfl, hm⟩, hk⟩
      have hv := mem_of_key_mem hsub hnd hv hk
      exact ⟨v, hv, rfl, (mem_readKeys_sublist hsub hclosed hv).2 hm⟩
  unfold nameGraph NameGraph.restrict
  simp only [decide_eq_true_eq, hreads, ← hview]

theorem closed_sublist (hnd : p.keys.Nodup) :
    p.nameGraph.Closed fun n => decide (n ∈ keys ⟨p.tables, views⟩) := by
  rintro n m hn ⟨v, hv, rfl, hm⟩
  rw [decide_eq_true_eq] at hn ⊢
  have hv := mem_of_key_mem hsub hnd hv hn
  exact (mem_readKeys.1 ((mem_readKeys_sublist hsub hclosed hv).2 hm)).1

/-- **The views of a part come in the order that they have in the whole.** -/
theorem viewOrder_sublist {vs : List View} (h : p.viewOrder c = .ok vs) :
    viewOrder ⟨p.tables, views⟩ c =
      .ok (vs.filter fun v => decide (v.key ∈ keys ⟨p.tables, views⟩)) := by
  obtain ⟨⟨hapart, hnd⟩, hacyclic⟩ := exists_viewOrder_iff.1 ⟨vs, h⟩
  have hmem : ∀ v ∈ vs, v ∈ p.views := fun v => (viewOrder_eq_ok h).2.perm.mem_iff.1
  obtain ⟨vs', h'⟩ := viewOrder_ok (apart_sublist hsub hapart) (hnd.sublist (keys_sublist hsub))
    (acyclic_sublist hsub hacyclic)
  have hmem' : ∀ v ∈ vs', v ∈ p.views := fun v hv =>
    hsub.subset ((viewOrder_eq_ok h').2.perm.mem_iff.1 hv)
  have hrun := (viewOrder_placing h).filter (closed_sublist hsub hclosed hnd)
  rw [← nameGraph_sublist hsub hclosed hnd] at hrun
  have hkeys := hrun.unique (viewOrder_placing h')
  rw [List.filter_map] at hkeys
  rw [h', ← filterMap_view?_keys hnd hmem', ← hkeys,
    filterMap_view?_keys hnd fun v hv => hmem v (List.mem_filter.1 hv).1]
  rfl

/-- A column of a view of the part has the type that it has in the whole. -/
theorem columnType_sublist {vs : List View} (hp : p.Ordered vs) {tl vl : List Layout}
    (hvl : List.Forall₂ View.Stored vs vl) {v : View} (hv : v ∈ views) {e : Expr}
    (he : e ∈ v.select) {ref : ColumnRef} (href : ref ∈ e.columns) :
    Catalog.columnType ⟨tl ++ vl⟩ ref = Catalog.columnType
      ⟨tl ++ vl.filter fun l => decide (l.scope ∈ keys ⟨p.tables, views⟩)⟩ ref := by
  have hview : Catalog.view? ⟨vl⟩ ref.table = Catalog.view?
      ⟨vl.filter fun l => decide (l.scope ∈ keys ⟨p.tables, views⟩)⟩ ref.table := by
    by_cases hk : Name.normalize ref.table ∈ keys ⟨p.tables, views⟩
    · -- the layouts of that name are kept
      unfold Catalog.view?
      rw [List.find?_filter]
      refine congrArg (List.find? · vl) (funext fun l => Bool.eq_iff_iff.2 ?_)
      by_cases hs : l.scope = Name.normalize ref.table <;> simp [hs, hk]
    · -- no view has that name: it would be read, so it would belong to the part
      have hnone : Catalog.view? ⟨vl⟩ ref.table = none := view?_of_stored hvl fun w hw hkey =>
        hk (hkey ▸ List.mem_map_of_mem (hclosed v hv w ⟨hsub.subset hv, hp.perm.mem_iff.1 hw, e, he,
          ref.table, mentions_of_mem_columns href, hkey.symm⟩))
      rw [hnone, eq_comm, Catalog.view?_eq_none]
      exact fun l hl => Catalog.view?_eq_none.1 hnone l (List.mem_filter.1 hl).1
  have htable : ∀ ls : List Layout, (∀ l ∈ ls, l ∈ vl) → Catalog.table? ⟨ls⟩ ref.table = none :=
    fun ls hls => Catalog.table?_eq_none.2 fun l hl hk => by
      rw [kind_of_stored hvl l (hls l hl)] at hk
      cases hk
  refine Catalog.columnType_congr ?_ ?_
  · rw [Catalog.view?_append, Catalog.view?_append, hview]
  · rw [Catalog.table?_append, Catalog.table?_append, htable vl fun _ => id,
      htable _ fun l hl => (List.mem_filter.1 hl).1]

/-- **The layouts of a part** are those of the whole that belong to it. -/
theorem Checked.sublist {vs : List View} {tl vl : List Layout} (h : p.Checked vs tl vl) :
    Checked ⟨p.tables, views⟩ (vs.filter fun v => decide (v.key ∈ keys ⟨p.tables, views⟩)) tl
      (vl.filter fun l => decide (l.scope ∈ keys ⟨p.tables, views⟩)) := by
  have hstored : List.Forall₂ View.Stored vs vl := h.views.imp stored_of_hasLayout
  have hkept : List.Forall₂ (View.HasLayout (Catalog.columnType ⟨tl ++ vl⟩))
      (vs.filter fun v => decide (v.key ∈ keys ⟨p.tables, views⟩))
      (vl.filter fun l => decide (l.scope ∈ keys ⟨p.tables, views⟩)) :=
    List.rel_filter (fun v l hl => by simp only [hl.scope]) h.views
  refine ⟨h.tables, h.names, viewOrder_sublist hsub hclosed h.order, ?_⟩
  refine ((List.forall₂_and_left _ _).2 ⟨fun v hv => hv, hkept⟩).imp ?_
  rintro v l ⟨hv, hl⟩
  obtain ⟨hv, hk⟩ := List.mem_filter.1 hv
  have hv : v ∈ views := mem_of_key_mem hsub h.ordered.nodup (h.ordered.perm.mem_iff.1 hv)
    (of_decide_eq_true hk)
  exact hl.congr fun e he ref href =>
    columnType_sublist hsub hclosed h.ordered hstored hv he href

end

/-- A table of an accepted program is found in its catalog. -/
theorem Holds.layout_table (h : p.Holds c) {t : Table} (ht : t ∈ p.tables) :
    ∃ l, l.kind = .table ∧ c.layout t.name = .ok l := by
  obtain ⟨l, hl, hlayout⟩ := h.table t ht
  exact ⟨l, hlayout.kind,
    h.consistent.layout_eq_ok_iff.2 ⟨hl, by rw [hlayout.kind, hlayout.scope]; rfl⟩⟩

/-- A view of an accepted program is found in its catalog. -/
theorem Holds.layout_view (h : p.Holds c) {v : View} (hv : v ∈ p.views) :
    ∃ l, l.kind = .view ∧ c.layout v.name = .ok l := by
  obtain ⟨l, hl, hlayout⟩ := h.view v hv
  exact ⟨l, hlayout.kind,
    h.consistent.layout_eq_ok_iff.2 ⟨hl, by rw [hlayout.kind, hlayout.scope]; rfl⟩⟩

/-- **A part of a program stands by itself**: views that include, with each view, the views it
reads are accepted alone, with the layouts and in the order that they have in the whole. -/
theorem check_sublist (h : p.check = .ok c) (hsub : views.Sublist p.views)
    (hclosed : ∀ v ∈ views, ∀ w, p.Reads v w → w ∈ views) :
    ∃ c', check ⟨p.tables, views⟩ = .ok c' ∧
      (∀ t ∈ p.tables, ∃ l, l.kind = .table ∧ c'.layout t.name = .ok l ∧
        c.layout t.name = .ok l) ∧
      (∀ v ∈ views, ∃ l, l.kind = .view ∧ c'.layout v.name = .ok l ∧ c.layout v.name = .ok l) ∧
      c'.layouts = c.layouts.filter fun l =>
        decide (l.kind = .table ∨ l.scope ∈ views.map View.key) := by
  obtain ⟨vs, tl, vl, hc, rfl⟩ := check_eq_ok.1 h
  have hcheck := check_eq_ok.2 ⟨_, _, _, hc.sublist hsub hclosed, rfl⟩
  have hpart := holds_of_check hcheck
  have hsublist : (tl ++ vl.filter fun l => decide (l.scope ∈ keys ⟨p.tables, views⟩)).Sublist
      (tl ++ vl) := List.filter_sublist.append_left tl
  have hsame {scope : String} {l : Layout} := @Catalog.Consistent.layout_of_subset _ _ l
    hpart.consistent (holds_of_check h).consistent hsublist.subset scope
  refine ⟨_, hcheck, fun t ht => ?_, fun v hv => ?_, ?_⟩
  · obtain ⟨l, hk, hl⟩ := hpart.layout_table ht
    exact ⟨l, hk, hl, hsame hl⟩
  · obtain ⟨l, hk, hl⟩ := hpart.layout_view hv
    exact ⟨l, hk, hl, hsame hl⟩
  · have htables : tl.filter (fun l => decide (l.kind = .table ∨ l.scope ∈ views.map View.key)) =
        tl := List.filter_eq_self.2 fun l hl => by simp [kind_of_tables hc.tables l hl]
    rw [List.filter_append, htables]
    refine congrArg (tl ++ ·) (List.filter_congr fun l hl => ?_)
    simp [kind_of_stored (hc.views.imp stored_of_hasLayout) l hl, keys]

/-- The total with one more view, which is typed between the view of loads and the total. -/
def auditedLoad : Program where
  tables := totalLoad.tables
  views := ⟨"audit", [.column ⟨"loads", ⟨"id", .string, false⟩⟩]⟩ :: totalLoad.views

def auditedLoadCatalog : Catalog :=
  ⟨[totalLoadCatalog.layouts[0], totalLoadCatalog.layouts[1],
    ⟨"AUDIT", .view, [⟨"ID", 0, .string⟩]⟩, totalLoadCatalog.layouts[2]]⟩

theorem closed_totalLoad : ∀ v ∈ totalLoad.views, ∀ w, auditedLoad.Reads v w →
    w ∈ totalLoad.views := by
  have hkeys : auditedLoad.keys.Nodup := by decide
  have hloads : totalLoad.views[1] ∈ totalLoad.views := List.getElem_mem _
  intro v hv w hr
  have hkey : w.key ∈ auditedLoad.readKeys v := (reads_iff hr.1 hr.2.1).1 hr
  simp only [totalLoad, List.mem_cons, List.not_mem_nil, or_false] at hv
  rcases hv with rfl | rfl
  · have hw : w.key = totalLoad.views[1].key := List.mem_singleton.1 hkey
    rwa [eq_of_key_eq hkeys hr.2.1 (.tail _ hloads) hw]
  · cases hkey

/-- The total stands without the view in between. -/
theorem check_sublist_totalLoad :
    auditedLoad.check = .ok auditedLoadCatalog ∧ totalLoad.views.Sublist auditedLoad.views ∧
      (∀ v ∈ totalLoad.views, ∀ w, auditedLoad.Reads v w → w ∈ totalLoad.views) ∧
      ∃ c', check ⟨auditedLoad.tables, totalLoad.views⟩ = .ok c' ∧
        c'.layouts = totalLoadCatalog.layouts := by
  have hcheck : auditedLoad.check = .ok auditedLoadCatalog := rfl
  have hsub : totalLoad.views.Sublist auditedLoad.views := List.sublist_cons_self _ _
  obtain ⟨c', hpart, -, -, hlayouts⟩ := check_sublist hcheck hsub closed_totalLoad
  exact ⟨hcheck, hsub, closed_totalLoad, c', hpart, hlayouts.trans (by decide)⟩

end Program

end ViewTyping
