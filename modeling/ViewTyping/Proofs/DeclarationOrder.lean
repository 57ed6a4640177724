import ViewTyping.Proofs.Assignment

/-!
# The order of declarations

Views are known to the graph by their positions. Here the positions cancel out: what is found in
the graph of a program, read by name, is the same however its views are listed.

* `HasGraph.nameGraph_eq`: the graph by name comes from the keys and the reads of the views.
* `HasGraph.filterMap_views`: the views of ids are the views of their names.
* `order_congr`: graphs of views that read the same names are ordered alike, by name.
* `viewOrder_congr`: corresponding views come in the same order, or the same cycle is reported.
* `viewOrder_perm`: the case of the same views, listed in another order.
-/

set_option autoImplicit false

namespace ViewTyping.Program

variable {p q : Program} {g g' : DependencyGraph} {c : Catalog}

/-- The names of the views of a program, and which of them each view reads. -/
def nameGraph (p : Program) : NameGraph where
  IsView n := n ∈ p.keys
  Reads n m := ∃ v ∈ p.views, v.key = n ∧ m ∈ p.readKeys v

theorem HasGraph.nameGraph_eq (hg : p.HasGraph g) : g.nameGraph = p.nameGraph := by
  have hview : ∀ n, (∃ i < g.size, g.name i = n) ↔ n ∈ p.keys := by
    intro n
    refine ⟨fun h => ?_, fun hn => ?_⟩
    · obtain ⟨i, hi, rfl⟩ := h
      obtain ⟨v, -, hv, hname⟩ := hg.view_of_lt hi
      exact hname ▸ List.mem_map_of_mem hv
    · obtain ⟨v, hv, rfl⟩ := List.mem_map.1 hn
      obtain ⟨i, hi⟩ := List.mem_iff_getElem?.1 hv
      exact ⟨i, hg.size ▸ (List.getElem?_eq_some_iff.1 hi).1, hg.name i v hi⟩
  have hreads : ∀ n m, (∃ i < g.size, g.name i = n ∧ ∃ d ∈ g.dependencies i, g.name d = m) ↔
      ∃ v ∈ p.views, v.key = n ∧ m ∈ p.readKeys v := by
    intro n m
    refine ⟨fun h => ?_, fun h => ?_⟩
    · obtain ⟨i, hi, rfl, d, hd, rfl⟩ := h
      obtain ⟨v, hi, hv, hname⟩ := hg.view_of_lt hi
      exact ⟨v, hv, hname.symm, hg.reads i v hi ▸ List.mem_map_of_mem hd⟩
    · obtain ⟨v, hv, rfl, hm⟩ := h
      obtain ⟨i, hi⟩ := List.mem_iff_getElem?.1 hv
      rw [← hg.reads i v hi] at hm
      exact ⟨i, hg.size ▸ (List.getElem?_eq_some_iff.1 hi).1, hg.name i v hi, List.mem_map.1 hm⟩
  unfold DependencyGraph.nameGraph nameGraph
  simp only [hview, hreads]

/-- The views of ordered ids are the views of their names. -/
theorem HasGraph.filterMap_views (hg : p.HasGraph g) (hnd : p.keys.Nodup) {ids : List Nat}
    (h : g.order = .ok ids) :
    ids.filterMap (p.views[·]?) = (ids.map g.name).filterMap p.view? := by
  rw [List.filterMap_map]
  refine List.filterMap_congr fun i hi => ?_
  have hlt : i < g.size :=
    List.mem_range.1 ((DependencyGraph.order_eq_ok h).2.1.mem_iff.1 hi)
  obtain ⟨v, hi, hv, hname⟩ := hg.view_of_lt hlt
  rw [hi, Function.comp_apply, hname]
  exact (view?_of_mem hnd hv (normalize_normalize v.name).symm).symm

section
variable (hgraph : q.nameGraph = p.nameGraph)
  (hreads : ∀ v ∈ p.views, ∀ w ∈ q.views, w.key = v.key → q.readKeys w = p.readKeys v)
include hgraph hreads

/-- Graphs of views that read the same names are ordered alike, by name. -/
theorem order_congr (hg : p.HasGraph g) (hg' : q.HasGraph g') :
    g'.order.map (·.map g'.name) = g.order.map (·.map g.name) := by
  refine DependencyGraph.order_names hg'.proper hg.proper ?_ fun i j hi hj hij => ?_
  · rw [hg'.nameGraph_eq, hg.nameGraph_eq, hgraph]
  · obtain ⟨w, hi, hw, hwname⟩ := hg'.view_of_lt hi
    obtain ⟨v, hj, hv, hvname⟩ := hg.view_of_lt hj
    rw [hg'.reads i w hi, hg.reads j v hj, hreads v hv w hw (hwname.symm.trans (hij.trans hvname))]

/-- **Corresponding views come in the same order, or the same cycle is reported.** -/
theorem viewOrder_congr {f : View → View} (hapart : p.Apart c) (hapart' : q.Apart c)
    (hnd : p.keys.Nodup) (hnd' : q.keys.Nodup)
    (hview : ∀ name, q.view? name = (p.view? name).map f) :
    q.viewOrder c = (p.viewOrder c).map (List.map f) := by
  obtain ⟨g, hg, hpg⟩ := graph_ok hnd
  obtain ⟨g', hg', hqg⟩ := graph_ok hnd'
  have hnames := order_congr hgraph hreads hpg hqg
  rw [viewOrder_of_apart hapart, viewOrder_of_apart hapart', hg, hg']
  simp only [Except.bind]
  cases ho : g.order with
  | error cycle =>
    cases ho' : g'.order with
    | error cycle' =>
      rw [ho, ho'] at hnames
      cases hnames
      rfl
    | ok ids' => rw [ho, ho'] at hnames; cases hnames
  | ok ids =>
    cases ho' : g'.order with
    | error cycle' => rw [ho, ho'] at hnames; cases hnames
    | ok ids' =>
      rw [ho, ho'] at hnames
      have hmap : ids'.map g'.name = ids.map g.name := Except.ok.inj hnames
      have hviews : ids'.filterMap (q.views[·]?) = (ids.filterMap (p.views[·]?)).map f := by
        rw [hpg.filterMap_views hnd ho, hqg.filterMap_views hnd' ho', hmap, List.map_filterMap,
          List.filterMap_congr fun name _ => hview name]
      exact congrArg Except.ok hviews

end

section
variable (hperm : q.views.Perm p.views)
include hperm

theorem keys_perm : q.keys.Perm p.keys := hperm.map View.key

theorem readKeys_perm (v : View) : q.readKeys v = p.readKeys v := by
  unfold readKeys
  rw [List.filter_congr fun k _ => decide_eq_decide.2 (keys_perm hperm).mem_iff]

theorem nameGraph_perm : q.nameGraph = p.nameGraph := by
  unfold nameGraph
  simp only [(keys_perm hperm).mem_iff, hperm.mem_iff, readKeys_perm hperm]

theorem apart_perm : q.Apart c ↔ p.Apart c :=
  forall_congr' fun _ => imp_congr_left hperm.mem_iff

/-- **Views come in the same order, or the same cycle is reported**, however they are listed. -/
theorem viewOrder_perm (hapart : p.Apart c) (hnd : p.keys.Nodup) :
    q.viewOrder c = p.viewOrder c := by
  have hnd' : q.keys.Nodup := (keys_perm hperm).nodup_iff.2 hnd
  have hreads : ∀ v ∈ p.views, ∀ w ∈ q.views, w.key = v.key → q.readKeys w = p.readKeys v := by
    -- of one name there is one view
    intro v hv w hw hkey
    rw [eq_of_key_eq hnd (hperm.mem_iff.1 hw) hv hkey, readKeys_perm hperm]
  have hview : ∀ name, q.view? name = (p.view? name).map id := fun name => by
    rw [Option.map_id]
    exact find?_of_perm hperm hnd name
  rw [viewOrder_congr (nameGraph_perm hperm) hreads hapart ((apart_perm hperm).2 hapart) hnd hnd'
    hview, List.map_id_fun]
  cases p.viewOrder c <;> rfl

end

/-- **The order in which views are declared does not matter.** A program with the same tables and
the same views in another order has the same result, the same catalog or the same diagnostic,
except that of several names that are taken another one may be reported. -/
theorem check_perm {views : List View} (hperm : views.Perm p.views) :
    Program.check ⟨p.tables, views⟩ = p.check ∨
      ∃ s s', p.check = .error (.scopeAlreadyRegistered s) ∧
        Program.check ⟨p.tables, views⟩ = .error (.scopeAlreadyRegistered s') := by
  have htables : tableCatalog ⟨p.tables, views⟩ = p.tableCatalog := rfl
  rw [check_eq, check_eq, htables]
  cases p.tableCatalog with
  | error d => exact .inl rfl
  | ok c =>
    simp only [Except.bind]
    by_cases hclear : p.Apart c ∧ p.keys.Nodup
    · exact .inl (by rw [viewOrder_perm hperm hclear.1 hclear.2])
    · have hclear' : ¬ (Apart ⟨p.tables, views⟩ c ∧ (keys ⟨p.tables, views⟩).Nodup) := fun h =>
        hclear ⟨(apart_perm hperm).1 h.1, (keys_perm hperm).nodup_iff.1 h.2⟩
      obtain ⟨s, hs⟩ := viewOrder_clash hclear
      obtain ⟨s', hs'⟩ := viewOrder_clash hclear'
      exact .inr ⟨s, s', by rw [hs], by rw [hs']⟩

/-- The total may be declared before the view that it reads or after it. -/
theorem check_perm_totalLoad :
    totalLoad.views.reverse.Perm totalLoad.views ∧ totalLoad.check = .ok totalLoadCatalog ∧
      Program.check ⟨totalLoad.tables, totalLoad.views.reverse⟩ = .ok totalLoadCatalog := by
  have hperm : totalLoad.views.reverse.Perm totalLoad.views := List.reverse_perm _
  have hcheck : totalLoad.check = .ok totalLoadCatalog := rfl
  refine ⟨hperm, hcheck, ?_⟩
  rcases check_perm hperm with h | ⟨s, s', h, -⟩
  · exact h.trans hcheck
  · rw [hcheck] at h
    cases h

end ViewTyping.Program
