import ViewTyping.Proofs.ProgramGraph

/-!
# Graphs that are built by edits

A graph is built by adding views and recording dependencies, in any order
(`DependencyGraph.build?`). A dependency may be recorded again, may lead back to the view itself and
may be recorded before the view that it is on is added.

* `dependencies_build`: a view depends on what was recorded for it, each once, in the order in
  which it was first recorded.
* `missingView?_eq_none`: sorting finds all dependencies among the views exactly if they are.
* `sort_built_iff`: the views of a graph that is built can be ordered exactly if no view has been
  recorded to depend on itself through others, and then each comes after its dependencies.
* `proper_build`: views of a graph that is built have different names.
* `sort_names`: graphs that are built by different edits, but have the same views and the same
  dependencies by name, are sorted alike.
-/

set_option autoImplicit false

namespace ViewTyping.DependencyGraph

/-! ## Edits -/

/-- A change to a graph. -/
inductive Edit where
  | addView (name : String)
  | addDependency (reader id : Nat)
deriving DecidableEq, Repr

/-- The graph after an edit; a dependency of what is no view is refused. -/
def edit? (g : DependencyGraph) : Edit → Option DependencyGraph
  | .addView name => some (g.addView name).2
  | .addDependency reader id => g.addDependency? reader id

/-- The graph that edits make of the empty one, if none is refused. -/
def build? (edits : List Edit) : Option DependencyGraph := edits.foldlM edit? {}

/-- What an edit records for the view `i`. -/
def Edit.target? (i : Nat) : Edit → Option Nat
  | .addView _ => none
  | .addDependency reader id => if i = reader then some id else none

/-- The edits record that `i` depends on `j`. -/
def Records (edits : List Edit) (i j : Nat) : Prop := Edit.addDependency i j ∈ edits

variable {g g' : DependencyGraph} {edits : List Edit}

theorem dependencies_addView (g : DependencyGraph) (name : String) (i : Nat) :
    (g.addView name).2.dependencies i = g.dependencies i := by
  unfold addView
  cases g.resolve name with
  | some id => rfl
  | none =>
    simp only [dependencies, List.getElem?_append, List.getElem?_singleton]
    split
    · rfl
    · rename_i hi
      rw [List.getElem?_eq_none (by omega)]
      split <;> rfl

/-- **What an edit does to the dependencies of a view.** -/
theorem dependencies_edit {e : Edit} (h : g.edit? e = some g') (i : Nat) :
    g'.dependencies i = (e.target? i).toList.foldl insertId (g.dependencies i) := by
  cases e with
  | addView name =>
    cases h
    exact dependencies_addView g name i
  | addDependency reader id =>
    rw [(g.addDependency?_spec h).2, Edit.target?]
    split <;> rfl

theorem dependencies_foldlM (i : Nat) : ∀ (edits : List Edit) {g g' : DependencyGraph},
    edits.foldlM edit? g = some g' →
    g'.dependencies i = (edits.filterMap (Edit.target? i)).foldl insertId (g.dependencies i)
  | [], g, g', h => by cases h; rfl
  | e :: edits, g, g', h => by
    rw [List.foldlM_cons] at h
    obtain ⟨g₁, h₁, h⟩ := Option.bind_eq_some_iff.1 h
    rw [dependencies_foldlM i edits h, dependencies_edit h₁, List.filterMap_cons]
    cases e.target? i <;> rfl

/-- **A view depends on what was recorded for it**, each once, in the order of first recording. -/
theorem dependencies_build (h : build? edits = some g) (i : Nat) :
    g.dependencies i = (edits.filterMap (Edit.target? i)).foldl insertId [] :=
  dependencies_foldlM i edits h

theorem mem_dependencies_build (h : build? edits = some g) {i j : Nat} :
    j ∈ g.dependencies i ↔ Records edits i j := by
  rw [dependencies_build h, Program.mem_foldl_insertId, List.mem_filterMap]
  constructor
  · rintro (hj | ⟨e, he, hj⟩)
    · cases hj
    · cases e with
      | addView name => cases hj
      | addDependency reader id =>
        rw [Edit.target?] at hj
        split at hj
        · rename_i hi
          cases hj
          exact hi ▸ he
        · cases hj
  · exact fun he => .inr ⟨_, he, if_pos rfl⟩

/-! ## Sorting -/

theorem mem_flatMap_dependencies {d : Nat} :
    d ∈ g.nodes.flatMap ViewNode.dependencies ↔ ∃ i, d ∈ g.dependencies i := by
  rw [List.mem_flatMap]
  constructor
  · rintro ⟨v, hv, hd⟩
    obtain ⟨i, hi⟩ := List.mem_iff_getElem?.1 hv
    exact ⟨i, by simpa [dependencies, hi] using hd⟩
  · rintro ⟨i, hd⟩
    cases hi : g.nodes[i]? with
    | none => simp [dependencies, hi] at hd
    | some v => exact ⟨v, List.mem_of_getElem? hi, by simpa [dependencies, hi] using hd⟩

/-- No dependency is missing exactly if all dependencies are views. -/
theorem missingView?_eq_none :
    g.missingView? = none ↔ ∀ i, ∀ d ∈ g.dependencies i, d < g.size := by
  rw [missingView?, List.find?_eq_none]
  simp only [mem_flatMap_dependencies, decide_eq_true_eq, not_le, forall_exists_index]
  exact ⟨fun h i d hd => h d i hd, fun h d i hd => h i d hd⟩

/-- What has been recorded is a view if sorting misses none. -/
theorem records_lt (hg : build? edits = some g) (h : g.missingView? = none) {i j : Nat}
    (hij : Records edits i j) : j < g.size :=
  missingView?_eq_none.1 h i j ((mem_dependencies_build hg).2 hij)

/-- A graph in which no view is missing is sorted as it is ordered. -/
theorem sort_of_closed (h : ∀ i, ∀ d ∈ g.dependencies i, d < g.size) :
    g.sort = g.order.mapError .cycle := by
  rw [sort, missingView?_eq_none.2 h]

theorem sort_eq_ok_iff (h : ∀ i, ∀ d ∈ g.dependencies i, d < g.size) {ids : List Nat} :
    g.sort = .ok ids ↔ g.order = .ok ids := by
  rw [sort_of_closed h]
  cases g.order <;> simp [Except.mapError]

theorem sort_eq_cycle_iff (h : ∀ i, ∀ d ∈ g.dependencies i, d < g.size) {path : List String} :
    g.sort = .error (.cycle path) ↔ g.order = .error path := by
  rw [sort_of_closed h]
  cases g.order <;> simp [Except.mapError]

theorem order_of_sort {ids : List Nat} (h : g.sort = .ok ids) : g.order = .ok ids := by
  unfold sort at h
  split at h
  · cases h
  · cases ho : g.order with
    | error path => rw [ho] at h; cases h
    | ok ids' => rw [ho] at h; exact congrArg Except.ok (Except.ok.inj h)

/-- What a view depends on stands before it in the order. -/
theorem idxOf_lt_of_order {ids : List Nat} (h : g.order = .ok ids) {i d : Nat}
    (hd : d ∈ g.dependencies i) : ids.idxOf d < ids.idxOf i := by
  obtain ⟨-, hperm, hearlier⟩ := order_eq_ok h
  have hi : i ∈ ids := hperm.mem_iff.2 (List.mem_range.2 (lt_size_of_dependency hd))
  obtain ⟨earlier, later, rfl⟩ := List.append_of_mem hi
  have hmem : d ∈ earlier := hearlier earlier i later rfl d hd
  have hnot : i ∉ earlier := fun hm =>
    (List.nodup_append.1 (hperm.nodup_iff.2 List.nodup_range)).2.2 i hm i (.head _) rfl
  rw [List.idxOf_append_of_mem hmem, List.idxOf_append_of_notMem hnot, List.idxOf_cons_self,
    Nat.add_zero]
  exact List.idxOf_lt_length_of_mem hmem

/-- **Views can be sorted exactly if none has been recorded to depend on itself**, directly or
through others; otherwise a cycle is reported. Sorted views are all the views, each once, each
after what it has been recorded to depend on. -/
theorem sort_built_iff (hg : build? edits = some g)
    (hviews : ∀ i j, Records edits i j → j < g.size) :
    ((∃ ids, g.sort = .ok ids) ↔ ∀ i, ¬ Relation.TransGen (Records edits) i i) ∧
    ((∃ path, g.sort = .error (.cycle path)) ↔ ∃ i, Relation.TransGen (Records edits) i i) ∧
    ∀ ids, g.sort = .ok ids → ids.Perm (List.range g.size) ∧
      ∀ i j, Records edits i j → ids.idxOf j < ids.idxOf i := by
  have hrec : (fun i j => j ∈ g.dependencies i) = Records edits :=
    funext fun i => funext fun j => propext (mem_dependencies_build hg)
  have hclosed : ∀ i, ∀ d ∈ g.dependencies i, d < g.size := fun i d hd =>
    hviews i d ((mem_dependencies_build hg).1 hd)
  have hok : (∃ ids, g.order = .ok ids) ↔ ∀ i, ¬ Relation.TransGen (Records edits) i i := by
    rw [order_ok_iff hclosed, Acyclic, hrec]
  have hcyclic : (∃ i, Relation.TransGen (Records edits) i i) ↔ ¬ ∃ ids, g.order = .ok ids := by
    rw [hok, Classical.not_forall_not]
  refine ⟨?_, ?_, fun ids h => ?_⟩
  · rw [← hok, sort_of_closed hclosed]
    cases g.order <;> simp [Except.mapError]
  · rw [hcyclic, sort_of_closed hclosed]
    cases g.order <;> simp [Except.mapError]
  · have ho := order_of_sort h
    exact ⟨(order_eq_ok ho).2.1, fun i j hij =>
      idxOf_lt_of_order ho ((mem_dependencies_build hg).2 hij)⟩

/-- Three views. A dependency on the third is recorded before it is there, one is recorded twice,
and one view is added twice, in different case. -/
def loadEdits : List Edit :=
  [.addView "total", .addDependency 0 2, .addView "loads", .addDependency 0 1, .addDependency 0 1,
    .addView "LOADS", .addView "hosts", .addDependency 1 2]

def loadGraph : DependencyGraph :=
  ⟨[⟨"TOTAL", [2, 1]⟩, ⟨"LOADS", [2]⟩, ⟨"HOSTS", []⟩]⟩

/-- The three views can be sorted, so no chain of recorded dependencies comes back to its start. -/
theorem sort_built_iff_load :
    build? loadEdits = some loadGraph ∧ (∀ i j, Records loadEdits i j → j < loadGraph.size) ∧
      loadGraph.sort = .ok [2, 1, 0] ∧ (∀ i, ¬ Relation.TransGen (Records loadEdits) i i) ∧
      ∀ i j, Records loadEdits i j → [2, 1, 0].idxOf j < [2, 1, 0].idxOf i := by
  have hg : build? loadEdits = some loadGraph := by decide
  have hviews : ∀ i j, Records loadEdits i j → j < loadGraph.size := by
    intro i j h
    simp only [Records, loadEdits, List.mem_cons, Edit.addDependency.injEq, reduceCtorEq,
      List.not_mem_nil, false_or, or_false] at h
    show j < 3
    omega
  have hsort : loadGraph.sort = .ok [2, 1, 0] := by decide
  obtain ⟨hok, -, horder⟩ := sort_built_iff hg hviews
  exact ⟨hg, hviews, hsort, hok.1 ⟨_, hsort⟩, (horder _ hsort).2⟩

/-! ## Names -/

/-- What every edit keeps is kept by edits that are made one after the other. -/
theorem edits_induct {P : DependencyGraph → Prop}
    (hedit : ∀ g e g', P g → g.edit? e = some g' → P g') : ∀ (edits : List Edit)
    {g g' : DependencyGraph}, P g → edits.foldlM edit? g = some g' → P g'
  | [], _, _, hg, h => by cases h; exact hg
  | e :: edits, g, g', hg, h => by
    rw [List.foldlM_cons] at h
    obtain ⟨g₁, h₁, h⟩ := Option.bind_eq_some_iff.1 h
    exact edits_induct hedit edits (hedit g e g₁ hg h₁) h

theorem nodeNames_addView (g : DependencyGraph) (name : String) :
    (g.addView name).2.nodeNames = insertName g.nodeNames (Name.normalize name) := by
  unfold addView insertName
  cases h : g.resolve name with
  | some id => rw [if_pos (resolve_isSome.1 (by rw [h]; rfl))]
  | none =>
    rw [if_neg fun hm => by simpa [h] using resolve_isSome.2 hm]
    simp [nodeNames]

theorem nodup_nodeNames_edit {e : Edit} (hg : g.nodeNames.Nodup) (h : g.edit? e = some g') :
    g'.nodeNames.Nodup := by
  cases e with
  | addView name =>
    cases h
    rw [nodeNames_addView]
    exact nodup_insertName hg _
  | addDependency reader id => rwa [(g.addDependency?_spec h).1]

theorem nodup_nodeNames_build (h : build? edits = some g) : g.nodeNames.Nodup := by
  have hempty : (nodeNames {}).Nodup := List.nodup_nil
  exact edits_induct (fun _ _ _ => nodup_nodeNames_edit) edits hempty h

/-- **Views have different names**, in whatever spelling and how often they are added. -/
theorem proper_build (hg : build? edits = some g)
    (hviews : ∀ i j, Records edits i j → j < g.size) : g.Proper where
  distinct _ _ := distinct_of_nodup (nodup_nodeNames_build hg)
  closed i d hd := hviews i d ((mem_dependencies_build hg).1 hd)

/-- The dependencies by name, each with its reader in front. -/
def edges (g : DependencyGraph) : List (String × String) :=
  (List.range g.size).flatMap fun i => (g.dependencies i).map fun d => (g.name i, g.name d)

theorem mem_edges {n m : String} : (n, m) ∈ g.edges ↔ g.nameGraph.Reads n m := by
  simp only [edges, nameGraph, List.mem_flatMap, List.mem_range, List.mem_map, Prod.mk.injEq]
  constructor
  · rintro ⟨i, hi, d, hd, hn, hm⟩
    exact ⟨i, hi, hn, d, hd, hm⟩
  · rintro ⟨i, hi, hn, d, hd, hm⟩
    exact ⟨i, hi, d, hd, hn, hm⟩

theorem mem_nodeNames {n : String} : n ∈ g.nodeNames ↔ g.nameGraph.IsView n := by
  simp only [List.mem_iff_getElem?, nameGraph, name_eq, size_eq_length_nodeNames]
  constructor
  · rintro ⟨i, hi⟩
    exact ⟨i, (List.getElem?_eq_some_iff.1 hi).1, by rw [hi]; rfl⟩
  · rintro ⟨i, hi, rfl⟩
    exact ⟨i, by rw [List.getElem?_eq_getElem hi]; rfl⟩

/-- **Sorting depends on the named graph only**: graphs with the same names of views and the same
dependencies by name are both sorted, by name in the same order, or a cycle is reported in both. It
is the same cycle if views of one name list the names of their dependencies in the same order. -/
theorem sort_names {edits' : List Edit} (hg : build? edits = some g)
    (hg' : build? edits' = some g') (hviews : ∀ i j, Records edits i j → j < g.size)
    (hviews' : ∀ i j, Records edits' i j → j < g'.size)
    (hnames : ∀ n, n ∈ g.nodeNames ↔ n ∈ g'.nodeNames)
    (hedges : ∀ edge, edge ∈ g.edges ↔ edge ∈ g'.edges) :
    ((∃ ids ids', g.sort = .ok ids ∧ g'.sort = .ok ids' ∧ ids.map g.name = ids'.map g'.name) ∨
      ∃ path path', g.sort = .error (.cycle path) ∧ g'.sort = .error (.cycle path')) ∧
    ((∀ i j, i < g.size → j < g'.size → g.name i = g'.name j →
        (g.dependencies i).map g.name = (g'.dependencies j).map g'.name) →
      ∀ path path', g.sort = .error (.cycle path) → g'.sort = .error (.cycle path') →
        path = path') := by
  have hp := proper_build hg hviews
  have hp' := proper_build hg' hviews'
  have hview : g.nameGraph.IsView = g'.nameGraph.IsView := by
    funext n
    rw [← mem_nodeNames, ← mem_nodeNames, hnames]
  have hreads : g.nameGraph.Reads = g'.nameGraph.Reads := by
    funext n m
    rw [← mem_edges, ← mem_edges, hedges]
  have hsame : g.nameGraph = g'.nameGraph := congrArg₂ NameGraph.mk hview hreads
  simp only [sort_eq_ok_iff hp.closed, sort_eq_ok_iff hp'.closed, sort_eq_cycle_iff hp.closed,
    sort_eq_cycle_iff hp'.closed]
  refine ⟨order_or_cycle hp hp' hsame, fun hdeps path path' h h' => ?_⟩
  have horder := order_names hp hp' hsame hdeps
  rw [h, h'] at horder
  exact Except.error.inj horder

/-- Three views, of which the last two depend on each other and the last on itself. -/
def loopEdits : List Edit :=
  [.addView "alerts", .addView "loads", .addDependency 0 1, .addView "hosts", .addDependency 1 2,
    .addDependency 2 1, .addDependency 2 2]

def loopGraph : DependencyGraph :=
  ⟨[⟨"ALERTS", [1]⟩, ⟨"LOADS", [2]⟩, ⟨"HOSTS", [1, 2]⟩]⟩

/-- The three views from last to first, in another case. -/
def reversedLoopEdits : List Edit :=
  [.addView "Hosts", .addDependency 0 1, .addDependency 0 0, .addView "Loads", .addDependency 1 0,
    .addView "Alerts", .addDependency 2 1]

def reversedLoopGraph : DependencyGraph :=
  ⟨[⟨"HOSTS", [1, 0]⟩, ⟨"LOADS", [0]⟩, ⟨"ALERTS", [1]⟩]⟩

/-- Views have other ids in the second graph, and the same cycle is reported. -/
theorem sort_names_reversedLoop :
    build? loopEdits = some loopGraph ∧ build? reversedLoopEdits = some reversedLoopGraph ∧
      (∀ i j, Records loopEdits i j → j < loopGraph.size) ∧
      (∀ i j, Records reversedLoopEdits i j → j < reversedLoopGraph.size) ∧
      (∀ n, n ∈ loopGraph.nodeNames ↔ n ∈ reversedLoopGraph.nodeNames) ∧
      (∀ edge, edge ∈ loopGraph.edges ↔ edge ∈ reversedLoopGraph.edges) ∧
      loopGraph.sort = .error (.cycle ["LOADS", "HOSTS", "LOADS"]) ∧
      reversedLoopGraph.sort = .error (.cycle ["LOADS", "HOSTS", "LOADS"]) := by
  have hg : build? loopEdits = some loopGraph := by decide
  have hg' : build? reversedLoopEdits = some reversedLoopGraph := by decide
  have hviews : ∀ i j, Records loopEdits i j → j < loopGraph.size := fun _ _ =>
    records_lt hg (by decide)
  have hviews' : ∀ i j, Records reversedLoopEdits i j → j < reversedLoopGraph.size := fun _ _ =>
    records_lt hg' (by decide)
  have hnames : ∀ n, n ∈ loopGraph.nodeNames ↔ n ∈ reversedLoopGraph.nodeNames := fun _ =>
    List.Perm.mem_iff (by decide)
  have hedges : ∀ edge, edge ∈ loopGraph.edges ↔ edge ∈ reversedLoopGraph.edges := fun _ =>
    List.Perm.mem_iff (by decide)
  have hdeps : ∀ i < loopGraph.size, ∀ j < reversedLoopGraph.size,
      loopGraph.name i = reversedLoopGraph.name j →
      (loopGraph.dependencies i).map loopGraph.name =
        (reversedLoopGraph.dependencies j).map reversedLoopGraph.name := by decide
  have hcycle : loopGraph.sort = .error (.cycle ["LOADS", "HOSTS", "LOADS"]) := by decide
  obtain ⟨hsame, hpaths⟩ := sort_names hg hg' hviews hviews' hnames hedges
  refine ⟨hg, hg', hviews, hviews', hnames, hedges, hcycle, ?_⟩
  rcases hsame with ⟨ids, ids', hids, -, -⟩ | ⟨path, path', -, hpath'⟩
  · rw [hcycle] at hids
    cases hids
  · rw [hpaths (fun i j hi hj => hdeps i hi j hj) _ _ hcycle hpath']
    exact hpath'

end ViewTyping.DependencyGraph
