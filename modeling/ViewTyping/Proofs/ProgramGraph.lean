import Mathlib.Data.List.Nodup
import ViewTyping.Program.Check
import ViewTyping.Proofs.NameOrder
import ViewTyping.Proofs.Registration

/-!
# The dependencies of a program's views

`Program.HasGraph p g` says what `Program.graph` builds: one node for each view, at the view's
position and under its key, the normalized name, and as dependencies, by name, the keys of the
views that the outputs mention, in the order in which they are first mentioned
(`Program.readKeys`).

* `graph_ok`, `graph_error`: the graph exists exactly if the keys are different.
* `acyclic_iff`: the graph has a cycle exactly if the relation `Program.Reads` between views has.
* `viewOrder_eq_ok`: the order in which views are typed lists each view once, after the views it
  reads (`Program.Ordered`); `viewOrder_ok`, `viewOrder_cycle`, `viewOrder_clash` say which
  outcome there is when.
-/

set_option autoImplicit false

namespace ViewTyping

/-- The names that the outputs of a view read. -/
def View.reads (v : View) : List String := v.select.flatMap Expr.tables

namespace Program

def keys (p : Program) : List String := p.views.map View.key

/-- The keys of the views that a view reads, in order of first occurrence. -/
def readKeys (p : Program) (v : View) : List String :=
  ((v.reads.map Name.normalize).filter (· ∈ p.keys)).foldl insertName []

/-- The view `v` mentions, anywhere in its outputs, a name of the view `w`. -/
def Reads (p : Program) (v w : View) : Prop :=
  v ∈ p.views ∧ w ∈ p.views ∧
    ∃ e ∈ v.select, ∃ n, e.Mentions n ∧ Name.normalize n = Name.normalize w.name

/-- No view reads itself, directly or through others. -/
def Acyclic (p : Program) : Prop := ∀ v, ¬ Relation.TransGen p.Reads v v

variable {p : Program}

theorem eq_of_key_eq (h : p.keys.Nodup) {v w : View} (hv : v ∈ p.views) (hw : w ∈ p.views)
    (hk : v.key = w.key) : v = w :=
  List.inj_on_of_nodup_map h hv hw hk

theorem mem_foldl_insertName {n : String} (ns names : List String) :
    n ∈ ns.foldl insertName names ↔ n ∈ names ∨ n ∈ ns := by
  rw [mem_foldl_names (P := fun m => n = m) ns fun _ _ _ => mem_insertName]
  simp

theorem mem_readKeys {v : View} {k : String} :
    k ∈ p.readKeys v ↔ k ∈ p.keys ∧ ∃ e ∈ v.select, ∃ n, e.Mentions n ∧ Name.normalize n = k := by
  simp only [readKeys, mem_foldl_insertName, List.not_mem_nil, false_or, List.mem_filter,
    List.mem_map, View.reads, List.mem_flatMap, mem_tables, decide_eq_true_eq]
  refine ⟨fun h => ?_, fun h => ?_⟩
  · obtain ⟨⟨n, ⟨e, he, hm⟩, rfl⟩, hk⟩ := h
    exact ⟨hk, e, he, n, hm, rfl⟩
  · obtain ⟨hk, e, he, n, hm, rfl⟩ := h
    exact ⟨⟨n, ⟨e, he, hm⟩, rfl⟩, hk⟩

theorem reads_iff {v w : View} (hv : v ∈ p.views) (hw : w ∈ p.views) :
    p.Reads v w ↔ w.key ∈ p.readKeys v := by
  rw [mem_readKeys]
  exact ⟨fun h => ⟨List.mem_map_of_mem hw, h.2.2⟩, fun h => ⟨hv, hw, h.2⟩⟩

end Program

/-! ## Looking views up -/

namespace DependencyGraph

variable {g : DependencyGraph}

def nodeNames (g : DependencyGraph) : List String := g.nodes.map ViewNode.name

theorem size_eq_length_nodeNames : g.size = g.nodeNames.length := by simp [size, nodeNames]

theorem name_eq {i : Nat} : g.name i = g.nodeNames[i]?.getD "" := by simp [name, nodeNames]

theorem resolve_eq (name : String) :
    g.resolve name = g.nodeNames.findIdx? (· == Name.normalize name) := by
  rw [resolve, nodeNames, List.findIdx?_map]
  rfl

theorem resolve_isSome {name : String} :
    (g.resolve name).isSome = true ↔ Name.normalize name ∈ g.nodeNames := by
  rw [resolve_eq, List.findIdx?_isSome]
  simp

/-- A view that is found has the name that was looked for. -/
theorem name_of_resolve {name : String} {id : Nat} (h : g.resolve name = some id) :
    id < g.size ∧ g.name id = Name.normalize name := by
  rw [resolve_eq, List.findIdx?_eq_some_iff_getElem] at h
  obtain ⟨hlt, hn, -⟩ := h
  rw [size_eq_length_nodeNames, name_eq, List.getElem?_eq_getElem hlt]
  exact ⟨hlt, by simpa using hn⟩

theorem distinct_of_nodup (h : g.nodeNames.Nodup) {i j : Nat} (hi : i < g.size)
    (hj : j < g.size) (hij : g.name i = g.name j) : i = j := by
  rw [size_eq_length_nodeNames] at hi hj
  rw [name_eq, name_eq, List.getElem?_eq_getElem hi, List.getElem?_eq_getElem hj] at hij
  exact (h.getElem_inj_iff).1 hij

end DependencyGraph

/-! ## Recording what views read -/

/-- A list of ids with one more id, unless it is there already. -/
def insertId (ids : List Nat) (id : Nat) : List Nat := if id ∈ ids then ids else ids ++ [id]

theorem dependencies_addDependency (v : ViewNode) (id : Nat) :
    (v.addDependency id).dependencies = insertId v.dependencies id := by
  unfold ViewNode.addDependency insertId
  split <;> rfl

theorem name_addDependency (v : ViewNode) (id : Nat) : (v.addDependency id).name = v.name := by
  unfold ViewNode.addDependency
  split <;> rfl

/-- **Recording a dependency** adds it to those of the reader and leaves all else. -/
theorem DependencyGraph.addDependency?_spec (g : DependencyGraph) {g' : DependencyGraph}
    {r id : Nat} (h : g.addDependency? r id = some g') :
    g'.nodeNames = g.nodeNames ∧ ∀ i, g'.dependencies i =
      if i = r then insertId (g.dependencies i) id else g.dependencies i := by
  obtain ⟨hr, rfl⟩ : r < g.size ∧ ⟨g.nodes.modify r (·.addDependency id)⟩ = g' := by
    simpa [addDependency?] using h
  constructor
  · refine List.ext_getElem? fun i => ?_
    simp only [nodeNames, List.getElem?_map, List.getElem?_modify]
    cases g.nodes[i]? with
    | none => rfl
    | some v => by_cases hi : r = i <;> simp [hi, name_addDependency]
  · intro i
    simp only [dependencies, List.getElem?_modify]
    by_cases hi : i = r
    · subst hi
      rw [List.getElem?_eq_getElem hr]
      simp [dependencies_addDependency]
    · cases g.nodes[i]? <;> simp [hi, Ne.symm hi]

/-- Inserting ids and inserting their names come to the same if the names are different. -/
theorem map_foldl_insertId {f : Nat → String} : ∀ (ids acc : List Nat),
    (∀ a ∈ acc ++ ids, ∀ b ∈ acc ++ ids, f a = f b → a = b) →
    (ids.foldl insertId acc).map f = (ids.map f).foldl insertName (acc.map f)
  | [], _, _ => rfl
  | id :: ids, acc, h => by
    have hmem : id ∈ acc ↔ f id ∈ acc.map f := by
      refine ⟨List.mem_map_of_mem, fun hm => ?_⟩
      obtain ⟨a, ha, hf⟩ := List.mem_map.1 hm
      exact h a (by simp [ha]) id (by simp) hf ▸ ha
    have hstep : (insertId acc id).map f = insertName (acc.map f) (f id) := by
      unfold insertId insertName
      by_cases hid : id ∈ acc
      · rw [if_pos hid, if_pos (hmem.1 hid)]
      · rw [if_neg hid, if_neg fun hm => hid (hmem.2 hm), List.map_append]
        rfl
    have hsub : ∀ a ∈ insertId acc id ++ ids, a ∈ acc ++ id :: ids := by
      intro a ha
      unfold insertId at ha
      split at ha <;> simp only [List.mem_append, List.mem_cons, List.not_mem_nil] at ha ⊢ <;> tauto
    rw [List.foldl_cons, List.map_cons, List.foldl_cons, ← hstep]
    exact map_foldl_insertId ids _ fun a ha b hb => h a (hsub a ha) b (hsub b hb)

namespace Program

variable {p : Program}

theorem addRead_spec {g : DependencyGraph} {r : Nat} (hr : r < g.size) (n : String) :
    (addRead r g n).nodeNames = g.nodeNames ∧ ∀ i, (addRead r g n).dependencies i =
      if i = r then (g.resolve n).toList.foldl insertId (g.dependencies i)
      else g.dependencies i := by
  unfold addRead
  cases hn : g.resolve n with
  | none => simp
  | some id =>
    obtain ⟨g', hg'⟩ : ∃ g', g.addDependency? r id = some g' := ⟨_, if_pos hr⟩
    simp only [hg', Option.getD_some, Option.toList_some, List.foldl_cons, List.foldl_nil]
    exact g.addDependency?_spec hg'

/-- **Recording the names in a list**: the reader gets the ids that they stand for. -/
theorem foldl_addRead_spec {r : Nat} : ∀ (ns : List String) {g : DependencyGraph}, r < g.size →
    (ns.foldl (addRead r) g).nodeNames = g.nodeNames ∧
      ∀ i, (ns.foldl (addRead r) g).dependencies i =
        if i = r then (ns.filterMap g.resolve).foldl insertId (g.dependencies i)
        else g.dependencies i
  | [], g, _ => by simp
  | n :: ns, g, hr => by
    obtain ⟨h1, h2⟩ := addRead_spec hr n
    have hr' : r < (addRead r g n).size := by
      rwa [DependencyGraph.size_eq_length_nodeNames, h1,
        ← DependencyGraph.size_eq_length_nodeNames]
    have hres : (addRead r g n).resolve = g.resolve := by
      funext m
      rw [DependencyGraph.resolve_eq, h1, ← DependencyGraph.resolve_eq]
    obtain ⟨h3, h4⟩ := foldl_addRead_spec ns hr'
    refine ⟨h3.trans h1, fun i => ?_⟩
    rw [List.foldl_cons, h4, h2, hres]
    by_cases hi : i = r
    · rw [if_pos hi, if_pos hi, if_pos hi, List.filterMap_cons]
      cases g.resolve n <;> rfl
    · rw [if_neg hi, if_neg hi, if_neg hi]

/-- **Recording the reads of views** that stand at the positions from `k` on. -/
theorem foldl_addReads_spec : ∀ (vs : List View) (k : Nat) {g : DependencyGraph},
    k + vs.length ≤ g.size →
    ((vs.zipIdx k).foldl addReads g).nodeNames = g.nodeNames ∧
      (∀ i < k, ((vs.zipIdx k).foldl addReads g).dependencies i = g.dependencies i) ∧
      ∀ j v, vs[j]? = some v → ((vs.zipIdx k).foldl addReads g).dependencies (k + j) =
        (v.reads.filterMap g.resolve).foldl insertId (g.dependencies (k + j))
  | [], k, g, _ => by simp
  | v :: vs, k, g, hk => by
    rw [List.length_cons] at hk
    have hv : addReads g (v, k) = v.reads.foldl (addRead k) g := by
      rw [addReads, View.reads, List.foldl_flatMap]
    obtain ⟨h1, h2⟩ := foldl_addRead_spec v.reads (show k < g.size by omega)
    rw [← hv] at h1 h2
    have hsize : (addReads g (v, k)).size = g.size := by
      rw [DependencyGraph.size_eq_length_nodeNames, h1,
        ← DependencyGraph.size_eq_length_nodeNames]
    have hres : (addReads g (v, k)).resolve = g.resolve := by
      funext m
      rw [DependencyGraph.resolve_eq, h1, ← DependencyGraph.resolve_eq]
    obtain ⟨h3, h4, h5⟩ := foldl_addReads_spec vs (k + 1) (g := addReads g (v, k)) (by omega)
    rw [List.zipIdx_cons, List.foldl_cons]
    refine ⟨h3.trans h1, fun i hi => ?_, fun j w hw => ?_⟩
    · rw [h4 i (by omega), h2, if_neg (by omega)]
    · cases j with
      | zero =>
        obtain rfl : v = w := by simpa using hw
        simp only [Nat.add_zero]
        rw [h4 k (by omega), h2, if_pos rfl]
      | succ j =>
        rw [show k + (j + 1) = k + 1 + j by omega, h5 j w (by simpa using hw), hres, h2,
          if_neg (by omega)]

/-! ## The graph of a program -/

/-- `g` is the graph of the views of `p` (module doc). -/
structure HasGraph (p : Program) (g : DependencyGraph) : Prop where
  proper : g.Proper
  size : g.size = p.views.length
  name : ∀ i v, p.views[i]? = some v → g.name i = v.key
  reads : ∀ i v, p.views[i]? = some v → (g.dependencies i).map g.name = p.readKeys v

/-- A view with a new name is added at the end. -/
theorem addView_of_new {g : DependencyGraph} {v : View} (h : v.key ∉ g.nodeNames) :
    ¬ (g.resolve v.name).isSome = true ∧ (g.addView v.name).2 = ⟨g.nodes ++ [⟨v.key, []⟩]⟩ ∧
      (g.addView v.name).2.nodeNames = g.nodeNames ++ [v.key] := by
  have hs : ¬ (g.resolve v.name).isSome = true := fun hs =>
    h (DependencyGraph.resolve_isSome.1 hs)
  have hadd : (g.addView v.name).2 = ⟨g.nodes ++ [⟨v.key, []⟩]⟩ := by
    unfold DependencyGraph.addView
    rw [Option.not_isSome_iff_eq_none.1 hs]
    rfl
  exact ⟨hs, hadd, by simp [hadd, DependencyGraph.nodeNames]⟩

theorem addViews_ok : ∀ (vs : List View) {g : DependencyGraph},
    (g.nodeNames ++ vs.map View.key).Nodup →
    addViews g vs = .ok ⟨g.nodes ++ vs.map fun v => ⟨v.key, []⟩⟩
  | [], g, _ => by simp [addViews]
  | v :: vs, g, h => by
    obtain ⟨hs, hadd, hnames⟩ := addView_of_new (g := g) (v := v) fun hm =>
      (List.nodup_append.1 h).2.2 _ hm v.key (by simp) rfl
    rw [addViews, if_neg hs, addViews_ok vs (by simpa [hnames] using h), hadd]
    simp

theorem addViews_error : ∀ (vs : List View) {g : DependencyGraph}, g.nodeNames.Nodup →
    ¬ (g.nodeNames ++ vs.map View.key).Nodup →
    ∃ s, addViews g vs = .error (.scopeAlreadyRegistered s)
  | [], g, hg, h => absurd (by simpa using hg) h
  | v :: vs, g, hg, h => by
    rw [addViews]
    by_cases hm : v.key ∈ g.nodeNames
    · exact ⟨_, if_pos (DependencyGraph.resolve_isSome.2 hm)⟩
    · obtain ⟨hs, hadd, hnames⟩ := addView_of_new hm
      rw [if_neg hs]
      refine addViews_error vs ?_ fun hnd => h (by simpa [hnames] using hnd)
      rw [hnames]
      exact hg.append (List.nodup_singleton _) fun k hk hk' => hm (List.mem_singleton.1 hk' ▸ hk)

/-- The names of the ids that names stand for are the normalized names that are names of views. -/
theorem map_name_filterMap_resolve {g : DependencyGraph} (h : g.nodeNames = p.keys)
    (ns : List String) : (ns.filterMap g.resolve).map g.name =
      (ns.map Name.normalize).filter (· ∈ p.keys) := by
  induction ns with
  | nil => rfl
  | cons n ns ih =>
    rw [List.filterMap_cons, List.map_cons, List.filter_cons]
    have hs : (g.resolve n).isSome = true ↔ Name.normalize n ∈ p.keys :=
      h ▸ DependencyGraph.resolve_isSome
    cases hr : g.resolve n with
    | none =>
      rw [hr] at hs
      have hn : Name.normalize n ∉ p.keys := fun hm => by cases hs.2 hm
      simp only [hn, decide_false]
      exact ih
    | some id =>
      rw [hr] at hs
      simp only [hs.1 rfl, decide_true, if_true, List.map_cons, ih,
        (DependencyGraph.name_of_resolve hr).2]

theorem mem_foldl_insertId {n : Nat} : ∀ (ids acc : List Nat),
    n ∈ ids.foldl insertId acc ↔ n ∈ acc ∨ n ∈ ids
  | [], _ => by simp
  | id :: ids, acc => by
    have hins : n ∈ insertId acc id ↔ n ∈ acc ∨ n = id := by
      unfold insertId
      split
      · exact ⟨.inl, fun h => h.elim (fun h => h) fun h => h ▸ ‹_›⟩
      · simp
    rw [List.foldl_cons, mem_foldl_insertId ids, hins, List.mem_cons, or_assoc]

/-- The graph of the views before their reads are recorded. -/
def bareGraph (p : Program) : DependencyGraph := ⟨p.views.map fun v => ⟨v.key, []⟩⟩

theorem nodeNames_bareGraph : p.bareGraph.nodeNames = p.keys := by
  simp [DependencyGraph.nodeNames, bareGraph, keys, Function.comp_def]

theorem dependencies_bareGraph (i : Nat) : p.bareGraph.dependencies i = [] := by
  simp only [DependencyGraph.dependencies, bareGraph, List.getElem?_map]
  cases p.views[i]? <;> rfl

theorem hasGraph_foldl_addReads (h : p.keys.Nodup) :
    p.HasGraph (p.views.zipIdx.foldl addReads p.bareGraph) := by
  have hlen : 0 + p.views.length ≤ p.bareGraph.size := by
    simp [DependencyGraph.size, bareGraph]
  obtain ⟨hnames, -, hdeps⟩ := foldl_addReads_spec p.views 0 hlen
  revert hnames hdeps
  generalize p.views.zipIdx.foldl addReads p.bareGraph = g
  intro hnames hdeps
  rw [nodeNames_bareGraph] at hnames
  have hsize : g.size = p.views.length := by
    rw [DependencyGraph.size_eq_length_nodeNames, hnames, keys, List.length_map]
  have hdistinct : ∀ i j, i < g.size → j < g.size → g.name i = g.name j → i = j :=
    fun i j => DependencyGraph.distinct_of_nodup (hnames ▸ h)
  have hres : p.bareGraph.resolve = g.resolve := by
    funext n
    rw [DependencyGraph.resolve_eq, DependencyGraph.resolve_eq, nodeNames_bareGraph, hnames]
  have hdeps' : ∀ i v, p.views[i]? = some v →
      g.dependencies i = (v.reads.filterMap g.resolve).foldl insertId [] := by
    intro i v hv
    have := hdeps i v hv
    rwa [Nat.zero_add, dependencies_bareGraph, hres] at this
  have hresolved : ∀ ns : List String, ∀ d ∈ ns.filterMap g.resolve, d < g.size := by
    intro ns d hd
    obtain ⟨n, -, hn⟩ := List.mem_filterMap.1 hd
    exact (DependencyGraph.name_of_resolve hn).1
  refine ⟨⟨hdistinct, fun i d hd => ?_⟩, hsize, fun i v hv => ?_, fun i v hv => ?_⟩
  · have hi : i < p.views.length := hsize ▸ DependencyGraph.lt_size_of_dependency hd
    rw [hdeps' i _ (List.getElem?_eq_getElem hi), mem_foldl_insertId] at hd
    exact hresolved _ d (hd.resolve_left List.not_mem_nil)
  · rw [DependencyGraph.name_eq, hnames, keys, List.getElem?_map, hv]
    rfl
  · rw [hdeps' i v hv, map_foldl_insertId _ [], map_name_filterMap_resolve hnames]
    · rfl
    · exact fun a ha b hb => hdistinct a b (hresolved _ a ha) (hresolved _ b hb)

/-- **Views with different keys have a graph.** -/
theorem graph_ok (h : p.keys.Nodup) : ∃ g, p.graph = .ok g ∧ p.HasGraph g := by
  refine ⟨_, ?_, hasGraph_foldl_addReads h⟩
  rw [graph, addViews_ok p.views (by simpa [DependencyGraph.nodeNames, keys] using h)]
  rfl

theorem graph_error (h : ¬ p.keys.Nodup) : ∃ s, p.graph = .error (.scopeAlreadyRegistered s) := by
  obtain ⟨s, hs⟩ := addViews_error p.views (g := {}) List.nodup_nil
    (by simpa [DependencyGraph.nodeNames, keys] using h)
  exact ⟨s, by rw [graph, hs]; rfl⟩

/-! ## Cycles -/

/-- An id and the view at its position. -/
theorem HasGraph.view_of_lt {g : DependencyGraph} (hg : p.HasGraph g) {i : Nat} (hi : i < g.size) :
    ∃ v, p.views[i]? = some v ∧ v ∈ p.views ∧ g.name i = v.key := by
  rw [hg.size] at hi
  exact ⟨_, List.getElem?_eq_getElem hi, List.getElem_mem hi,
    hg.name i _ (List.getElem?_eq_getElem hi)⟩

/-- A dependency is a view that is read, and the other way round. -/
theorem HasGraph.reads_iff {g : DependencyGraph} (hg : p.HasGraph g) {i j : Nat} {v w : View}
    (hv : p.views[i]? = some v) (hw : p.views[j]? = some w) :
    j ∈ g.dependencies i ↔ p.Reads v w := by
  have hj : j < g.size := hg.size ▸ (List.getElem?_eq_some_iff.1 hw).1
  rw [Program.reads_iff (List.mem_of_getElem? hv) (List.mem_of_getElem? hw), ← hg.reads i v hv,
    ← hg.name j w hw, hg.proper.mem_map_name (hg.proper.closed i) hj]

theorem HasGraph.transGen_views {g : DependencyGraph} (hg : p.HasGraph g) {i j : Nat}
    (h : Relation.TransGen (fun i j => j ∈ g.dependencies i) i j) :
    ∃ v w, p.views[i]? = some v ∧ p.views[j]? = some w ∧ Relation.TransGen p.Reads v w := by
  induction h with
  | single hd =>
    obtain ⟨v, hv, -, -⟩ := hg.view_of_lt (DependencyGraph.lt_size_of_dependency hd)
    obtain ⟨w, hw, -, -⟩ := hg.view_of_lt (hg.proper.closed _ _ hd)
    exact ⟨v, w, hv, hw, .single ((hg.reads_iff hv hw).1 hd)⟩
  | tail _ hd ih =>
    obtain ⟨v, u, hv, hu, hvu⟩ := ih
    obtain ⟨w, hw, -, -⟩ := hg.view_of_lt (hg.proper.closed _ _ hd)
    exact ⟨v, w, hv, hw, hvu.tail ((hg.reads_iff hu hw).1 hd)⟩

theorem HasGraph.transGen_ids {g : DependencyGraph} (hg : p.HasGraph g) {v w : View}
    (h : Relation.TransGen p.Reads v w) :
    ∃ i j, p.views[i]? = some v ∧ p.views[j]? = some w ∧
      Relation.TransGen (fun i j => j ∈ g.dependencies i) i j := by
  induction h with
  | single hr =>
    obtain ⟨i, hi⟩ := List.mem_iff_getElem?.1 hr.1
    obtain ⟨j, hj⟩ := List.mem_iff_getElem?.1 hr.2.1
    exact ⟨i, j, hi, hj, .single ((hg.reads_iff hi hj).2 hr)⟩
  | tail _ hr ih =>
    obtain ⟨i, k, hi, hk, hik⟩ := ih
    obtain ⟨j, hj⟩ := List.mem_iff_getElem?.1 hr.2.1
    exact ⟨i, j, hi, hj, hik.tail ((hg.reads_iff hk hj).2 hr)⟩

/-- **The graph has a cycle exactly if views read each other in a cycle.** -/
theorem acyclic_iff {g : DependencyGraph} (hg : p.HasGraph g) : g.Acyclic ↔ p.Acyclic := by
  refine ⟨fun h v hv => ?_, fun h i hi => ?_⟩
  · obtain ⟨i, j, hi, hj, hij⟩ := hg.transGen_ids hv
    have hlt : ∀ {k : Nat}, p.views[k]? = some v → k < g.size := fun hk =>
      hg.size ▸ (List.getElem?_eq_some_iff.1 hk).1
    obtain rfl : i = j := hg.proper.distinct i j (hlt hi) (hlt hj)
      ((hg.name i v hi).trans (hg.name j v hj).symm)
    exact h i hij
  · obtain ⟨v, w, hv, hw, hvw⟩ := hg.transGen_views hi
    obtain rfl : v = w := Option.some.inj (hv.symm.trans hw)
    exact h v hvw

/-! ## The order of views -/

/-- `vs` lists the views of `p`, which have different keys, each after the views it reads. -/
structure Ordered (p : Program) (vs : List View) : Prop where
  perm : vs.Perm p.views
  nodup : p.keys.Nodup
  reads : ∀ earlier v later, vs = earlier ++ v :: later → ∀ w, p.Reads v w → w ∈ earlier

theorem filterMap_getElem?_range {α : Type} : ∀ xs : List α,
    (List.range xs.length).filterMap (xs[·]?) = xs
  | [] => rfl
  | x :: xs => by
    rw [List.length_cons, List.range_succ_eq_map, List.filterMap_cons, List.filterMap_map]
    simpa using filterMap_getElem?_range xs

/-- **An order of the ids is an order of the views.** -/
theorem HasGraph.ordered {g : DependencyGraph} (hg : p.HasGraph g) (hnd : p.keys.Nodup)
    {ids : List Nat} (h : g.order = .ok ids) : p.Ordered (ids.filterMap (p.views[·]?)) := by
  obtain ⟨-, hperm, hord⟩ := DependencyGraph.order_eq_ok h
  refine ⟨?_, hnd, fun earlier v later he w hr => ?_⟩
  · have := hperm.filterMap (p.views[·]?)
    rwa [hg.size, filterMap_getElem?_range] at this
  · -- cut the ids where the views are cut: `skipped` holds ids of no view, so none at all
    obtain ⟨idsE, rest, hids, hE, hrest⟩ := List.filterMap_eq_append_iff.1 he
    obtain ⟨skipped, i, idsL, hi, hskip, hv, -⟩ := List.filterMap_eq_cons_iff.1 hrest
    obtain ⟨j, hj⟩ := List.mem_iff_getElem?.1 hr.2.1
    have hmem := hord (idsE ++ skipped) i idsL (by rw [hids, hi, List.append_assoc]) j
      ((hg.reads_iff hv hj).2 hr)
    rcases List.mem_append.1 hmem with hjE | hjs
    · rw [← hE]
      exact List.mem_filterMap.2 ⟨j, hjE, hj⟩
    · rw [hskip j hjs] at hj
      cases hj

/-- No view has the name of a table of `c`. -/
def Apart (p : Program) (c : Catalog) : Prop := ∀ v ∈ p.views, c.namesTable v.name = false

variable {c : Catalog}

theorem viewOrder_of_apart (h : p.Apart c) : p.viewOrder c = p.graph.bind fun g =>
    (g.order.mapError .viewCycle).map fun ids => ids.filterMap (p.views[·]?) := by
  have hnone : (p.views.find? fun v => c.namesTable v.name) = none :=
    List.find?_eq_none.2 fun v hv => by simp [h v hv]
  unfold viewOrder
  rw [hnone]
  cases p.graph with
  | error d => rfl
  | ok g =>
    simp only [Except.bind]
    cases g.order <;> rfl

theorem viewOrder_eq_ok {vs : List View} (h : p.viewOrder c = .ok vs) :
    p.Apart c ∧ p.Ordered vs := by
  have hapart : p.Apart c := by
    intro v hv
    unfold viewOrder at h
    split at h
    · cases h
    · rename_i hnone
      simpa using List.find?_eq_none.1 hnone v hv
  refine ⟨hapart, ?_⟩
  rw [viewOrder_of_apart hapart] at h
  by_cases hnd : p.keys.Nodup
  · obtain ⟨g, hg, hgraph⟩ := graph_ok hnd
    rw [hg] at h
    cases ho : g.order with
    | error cycle => rw [Except.bind, ho] at h; cases h
    | ok ids =>
      rw [Except.bind, ho] at h
      cases h
      exact hgraph.ordered hnd ho
  · obtain ⟨s, hs⟩ := graph_error hnd
    rw [hs] at h
    cases h

theorem viewOrder_ok (hapart : p.Apart c) (hnd : p.keys.Nodup) (h : p.Acyclic) :
    ∃ vs, p.viewOrder c = .ok vs := by
  obtain ⟨g, hg, hgraph⟩ := graph_ok hnd
  obtain ⟨ids, hids⟩ := (DependencyGraph.order_ok_iff hgraph.proper.closed).2
    ((acyclic_iff hgraph).2 h)
  rw [viewOrder_of_apart hapart, hg, Except.bind, hids]
  exact ⟨_, rfl⟩

theorem viewOrder_cycle (hapart : p.Apart c) (hnd : p.keys.Nodup) (h : ¬ p.Acyclic) :
    ∃ cycle, p.viewOrder c = .error (.viewCycle cycle) := by
  obtain ⟨g, hg, hgraph⟩ := graph_ok hnd
  rw [viewOrder_of_apart hapart, hg, Except.bind]
  cases ho : g.order with
  | ok ids => exact absurd ((acyclic_iff hgraph).1 (DependencyGraph.acyclic_of_order ho)) h
  | error cycle => exact ⟨cycle, rfl⟩

theorem viewOrder_clash (h : ¬ (p.Apart c ∧ p.keys.Nodup)) :
    ∃ s, p.viewOrder c = .error (.scopeAlreadyRegistered s) := by
  by_cases hapart : p.Apart c
  · obtain ⟨s, hs⟩ := graph_error fun hnd => h ⟨hapart, hnd⟩
    exact ⟨s, by rw [viewOrder_of_apart hapart, hs, Except.bind]⟩
  · unfold viewOrder
    split
    · exact ⟨_, rfl⟩
    · rename_i hnone
      exact absurd (fun v hv => by simpa using List.find?_eq_none.1 hnone v hv) hapart

/-- **When there is an order.** -/
theorem exists_viewOrder_iff : (∃ vs, p.viewOrder c = .ok vs) ↔
    (p.Apart c ∧ p.keys.Nodup) ∧ p.Acyclic := by
  refine ⟨fun ⟨vs, hvs⟩ => ?_, fun h => viewOrder_ok h.1.1 h.1.2 h.2⟩
  obtain ⟨hapart, hp⟩ := viewOrder_eq_ok hvs
  refine ⟨⟨hapart, hp.nodup⟩, ?_⟩
  by_contra hcyclic
  obtain ⟨cycle, hcycle⟩ := viewOrder_cycle hapart hp.nodup hcyclic
  rw [hvs] at hcycle
  cases hcycle

/-- **When a cycle is reported.** -/
theorem exists_viewCycle_iff : (∃ cycle, p.viewOrder c = .error (.viewCycle cycle)) ↔
    (p.Apart c ∧ p.keys.Nodup) ∧ ¬ p.Acyclic := by
  refine ⟨fun ⟨cycle, hcycle⟩ => ?_, fun h => viewOrder_cycle h.1.1 h.1.2 h.2⟩
  have hclear : p.Apart c ∧ p.keys.Nodup := by
    by_contra hclash
    obtain ⟨s, hs⟩ := viewOrder_clash hclash
    rw [hcycle] at hs
    cases hs
  refine ⟨hclear, fun hacyclic => ?_⟩
  obtain ⟨vs, hvs⟩ := viewOrder_ok hclear.1 hclear.2 hacyclic
  rw [hcycle] at hvs
  cases hvs

end Program

end ViewTyping
