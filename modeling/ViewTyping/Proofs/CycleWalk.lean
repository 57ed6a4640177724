import Mathlib.Data.List.Chain
import ViewTyping.Proofs.GraphEdits

/-!
# The cycle that is reported

Where views depend on each other, sorting leaves views stuck and looks for a cycle among them: it
walks from the stuck view with the least name, always to the first dependency that is stuck
(`DependencyGraph.nextStuck`), until it meets a view again. The walk need not begin on the cycle.

`Returns next path id cycle` describes a walk that ends in this way, and in no other. The one of
sorting does, since

* `exists_start`: if a view is not placed in the end, there is a stuck view to begin with;
* `exists_nextStuck`: a stuck view has a dependency that is stuck;
* `returns_walk`: the walk meets different views only, so it comes back before its bound is reached.

`Trail g path id` is its invariant, from which it follows that the walk has gone round in a circle
(`Trail.returns`). So what is reported is a cycle of recorded dependencies (`sort_cycle`). The views
that are stuck are those from which a cycle can be reached (`stuck_after_sorting`).
-/

set_option autoImplicit false

namespace ViewTyping.DependencyGraph

variable {g : DependencyGraph} {edits : List Edit}

/-- After the views in `path` the walk along `next` goes on from `id` and meets a view again, and
`cycle` is the walk from the first visit of that view on. There is no rule for a view from which
`next` does not lead on. -/
inductive Returns (next : Nat → Option Nat) : List Nat → Nat → List Nat → Prop
  | met {path : List Nat} {id : Nat} : id ∈ path →
      Returns next path id (path.dropWhile (· != id) ++ [id])
  | step {path cycle : List Nat} {id id' : Nat} : id ∉ path → next id = some id' →
      Returns next (path ++ [id]) id' cycle → Returns next path id cycle

/-- The first dependency of a view that is stuck in the end. -/
def nextStuck (g : DependencyGraph) (id : Nat) : Option Nat :=
  (g.dependencies id).find? (Sorter.finish g).isStuck

/-! ## Stuck views -/

theorem lt_size_of_isStuck {i : Nat} (h : (Sorter.finish g).isStuck i = true) : i < g.size := by
  obtain ⟨d, hd, -⟩ := (Sorter.inv_finish g).isStuck_iff_dependency.1 h
  exact lt_size_of_dependency hd

theorem mem_of_nextStuck {i j : Nat} (h : g.nextStuck i = some j) : j ∈ g.dependencies i :=
  List.mem_of_find?_eq_some h

/-- **A stuck view has a dependency that is stuck.** -/
theorem exists_nextStuck (hg : g.Proper) {i : Nat} (h : (Sorter.finish g).isStuck i = true) :
    ∃ j, g.nextStuck i = some j ∧ (Sorter.finish g).isStuck j = true := by
  obtain ⟨d, hd, hplaced⟩ := (Sorter.inv_finish g).isStuck_iff_dependency.1 h
  have hstuck := (Sorter.isStuck_iff (hg.closed i d hd)).2 hplaced
  cases hj : g.nextStuck i with
  | none => exact absurd hstuck (List.find?_eq_none.1 hj d hd)
  | some j => exact ⟨j, rfl, List.find?_some hj⟩

/-- **If not all views are placed, one is stuck.** -/
theorem exists_start (h : (Sorter.finish g).placed.length ≠ g.size) :
    ∃ start, g.least ((List.range g.size).filter (Sorter.finish g).isStuck) = some start := by
  cases hl : g.least ((List.range g.size).filter (Sorter.finish g).isStuck) with
  | some start => exact ⟨start, rfl⟩
  | none =>
    refine absurd ((Sorter.inv_finish g).length_placed_iff.2 fun i hi => ?_) h
    by_contra hp
    have hmem := List.mem_filter.2 ⟨List.mem_range.2 hi, (Sorter.isStuck_iff hi).2 hp⟩
    rw [least_eq_none hl] at hmem
    cases hmem

/-! ## The walk -/

/-- The invariant of the walk: it has come to `id` from stuck view to stuck view, each the first
stuck dependency of the one before, and has met no view twice. -/
structure Trail (g : DependencyGraph) (path : List Nat) (id : Nat) : Prop where
  nodup : path.Nodup
  stuck : ∀ i ∈ path ++ [id], (Sorter.finish g).isStuck i = true
  steps : (path ++ [id]).IsChain fun i j => g.nextStuck i = some j

theorem trail_nil {id : Nat} (h : (Sorter.finish g).isStuck id = true) : Trail g [] id :=
  ⟨List.nodup_nil, by simpa using h, .singleton id⟩

theorem Trail.step {path : List Nat} {id id' : Nat} (h : Trail g path id) (hid : id ∉ path)
    (hnext : g.nextStuck id = some id') : Trail g (path ++ [id]) id' := by
  refine ⟨?_, ?_, ?_⟩
  · refine h.nodup.append (List.nodup_singleton id) fun i hi hi' => ?_
    exact hid (List.mem_singleton.1 hi' ▸ hi)
  · intro i hi
    rcases List.mem_append.1 hi with hi | hi
    · exact h.stuck i hi
    · rw [List.mem_singleton.1 hi]
      exact List.find?_some hnext
  · rw [List.append_assoc]
    exact List.isChain_split.2 ⟨h.steps, List.isChain_pair.2 hnext⟩

theorem Trail.length_le {path : List Nat} {id : Nat} (h : Trail g path id) :
    path.length ≤ g.size := by
  have hlt : ∀ i ∈ path, i < g.size := fun i hi =>
    lt_size_of_isStuck (h.stuck i (List.mem_append_left _ hi))
  simpa using (Sorter.subperm_range h.nodup hlt).length_le

/-- **The walk comes back.** The induction is on the number of steps left, which together with the
views that have been met are more than there are views. -/
theorem returns_walk (hg : g.Proper) : ∀ (steps : Nat) {path : List Nat} {id : Nat},
    Trail g path id → g.size < path.length + steps →
    Returns g.nextStuck path id (walk g.nextStuck steps path id)
  | 0, path, id, h, hsteps => by
    have := h.length_le
    omega
  | steps + 1, path, id, h, hsteps => by
    unfold walk
    by_cases hid : id ∈ path
    · rw [if_pos hid]
      exact .met hid
    · obtain ⟨id', hnext, -⟩ := exists_nextStuck hg (h.stuck id (by simp))
      rw [if_neg hid, hnext]
      apply Returns.step hid hnext
      apply returns_walk hg steps (h.step hid hnext)
      rw [List.length_append, List.length_singleton]
      omega

/-- Stuck views in a circle, the first repeated at the end. -/
structure Circle (g : DependencyGraph) (cycle : List Nat) : Prop where
  shape : ∃ first inner, cycle = first :: inner ++ [first]
  nodup : cycle.dropLast.Nodup
  stuck : ∀ i ∈ cycle, (Sorter.finish g).isStuck i = true
  steps : cycle.IsChain fun i j => g.nextStuck i = some j

theorem Circle.two_le_length {cycle : List Nat} (h : Circle g cycle) : 2 ≤ cycle.length := by
  obtain ⟨first, inner, rfl⟩ := h.shape
  rw [List.length_append, List.length_cons, List.length_singleton]
  omega

theorem Circle.head?_eq_getLast? {cycle : List Nat} (h : Circle g cycle) :
    cycle.head? = cycle.getLast? := by
  obtain ⟨first, inner, rfl⟩ := h.shape
  rw [List.getLast?_concat]
  rfl

theorem Circle.nodup_names {cycle : List Nat} (h : Circle g cycle) (hg : g.Proper) :
    (cycle.map g.name).dropLast.Nodup := by
  have hlt : ∀ i ∈ cycle.dropLast, i < g.size := fun i hi =>
    lt_size_of_isStuck (h.stuck i (List.dropLast_subset _ hi))
  rw [← List.map_dropLast]
  exact h.nodup.map_on fun i hi j hj hij => hg.distinct i j (hlt i hi) (hlt j hj) hij

theorem exists_dropWhile {path : List Nat} {id : Nat} (h : id ∈ path) :
    ∃ inner, path.dropWhile (· != id) = id :: inner := by
  induction path with
  | nil => cases h
  | cons i path ih =>
    by_cases hi : i = id
    · exact ⟨path, by simp [hi]⟩
    · obtain ⟨inner, hinner⟩ := ih ((List.mem_cons.1 h).resolve_left (Ne.symm hi))
      exact ⟨inner, by simp [hi, hinner]⟩

/-- **A walk that comes back has gone round in a circle.** -/
theorem Trail.returns {path cycle : List Nat} {id : Nat} (h : Trail g path id)
    (hreturns : Returns g.nextStuck path id cycle) : Circle g cycle := by
  induction hreturns with
  | @met path id hid =>
    have hsuffix : path.dropWhile (· != id) ++ [id] <:+ path ++ [id] := by
      obtain ⟨lead, hlead⟩ := List.dropWhile_suffix (l := path) (· != id)
      exact ⟨lead, by rw [← List.append_assoc, hlead]⟩
    obtain ⟨inner, hinner⟩ := exists_dropWhile hid
    refine ⟨⟨id, inner, by rw [hinner]⟩, ?_, fun i hi => h.stuck i (hsuffix.subset hi), ?_⟩
    · rw [List.dropLast_concat]
      exact h.nodup.sublist (List.dropWhile_sublist _)
    · exact h.steps.suffix hsuffix
  | step hid hnext _ ih => exact ih (h.step hid hnext)

/-! ## What is reported -/

theorem order_eq_error {path : List String} (h : g.order = .error path) :
    (Sorter.finish g).placed.length ≠ g.size ∧
      path = (g.findCycle (Sorter.finish g)).map g.name := by
  unfold order at h
  simp only at h
  split at h
  · cases h
  · exact ⟨by assumption, (Except.error.inj h).symm⟩

/-- **The walk of a graph that has no order** begins at the stuck view with the least name, comes
back, and has then gone round in a circle. -/
theorem findCycle_returns (hg : g.Proper) (h : (Sorter.finish g).placed.length ≠ g.size) :
    ∃ start, g.least ((List.range g.size).filter (Sorter.finish g).isStuck) = some start ∧
      Returns g.nextStuck [] start (g.findCycle (Sorter.finish g)) ∧
      Circle g (g.findCycle (Sorter.finish g)) := by
  obtain ⟨start, hstart⟩ := exists_start h
  have hstuck := (List.mem_filter.1 (least_spec hstart).1).2
  have hwalk : g.findCycle (Sorter.finish g) = walk g.nextStuck (g.size + 1) [] start := by
    unfold findCycle
    rw [hstart]
    rfl
  have hreturns := returns_walk hg (g.size + 1) (trail_nil hstuck) (by simp)
  rw [← hwalk] at hreturns
  exact ⟨start, hstart, hreturns, (trail_nil hstuck).returns hreturns⟩

/-- **What is reported is a cycle of recorded dependencies**, the one that a walk from the stuck
view with the least name meets first. -/
theorem sort_cycle (hg : build? edits = some g) (hviews : ∀ i j, Records edits i j → j < g.size)
    {fault : SortFault} (h : g.sort = .error fault) :
    ∃ path, fault = .cycle path ∧ 2 ≤ path.length ∧ path.head? = path.getLast? ∧
      path.dropLast.Nodup ∧
      (path.IsChain fun a b => ∃ i j, Records edits i j ∧ g.name i = a ∧ g.name j = b) ∧
      ∃ start cycle,
        g.least ((List.range g.size).filter (Sorter.finish g).isStuck) = some start ∧
        Returns g.nextStuck [] start cycle ∧ g.findCycle (Sorter.finish g) = cycle ∧
        path = cycle.map g.name := by
  have hp := proper_build hg hviews
  rw [sort_of_closed hp.closed] at h
  cases ho : g.order with
  | ok ids => rw [ho] at h; cases h
  | error path =>
    rw [ho] at h
    cases h
    obtain ⟨hleft, rfl⟩ := order_eq_error ho
    obtain ⟨start, hstart, hreturns, hcircle⟩ := findCycle_returns hp hleft
    refine ⟨_, rfl, ?_, ?_, hcircle.nodup_names hp, ?_, start, _, hstart, hreturns, rfl, rfl⟩
    · rw [List.length_map]
      exact hcircle.two_le_length
    · rw [List.head?_map, List.getLast?_map, hcircle.head?_eq_getLast?]
    · rw [List.isChain_map]
      refine hcircle.steps.imp fun i j hij => ?_
      exact ⟨i, j, (mem_dependencies_build hg).1 (mem_of_nextStuck hij), rfl, rfl⟩

/-- The walk begins at a view that is not on the cycle, and leaves its name out. -/
theorem sort_cycle_loop :
    build? loopEdits = some loopGraph ∧ (∀ i j, Records loopEdits i j → j < loopGraph.size) ∧
      loopGraph.sort = .error (.cycle ["LOADS", "HOSTS", "LOADS"]) ∧
      loopGraph.least [0, 1, 2] = some 0 ∧ loopGraph.name 0 = "ALERTS" ∧
      Returns loopGraph.nextStuck [] 0 [1, 2, 1] ∧
      ["LOADS", "HOSTS", "LOADS"].IsChain fun a b =>
        ∃ i j, Records loopEdits i j ∧ loopGraph.name i = a ∧ loopGraph.name j = b := by
  have hg : build? loopEdits = some loopGraph := by decide
  have hviews : ∀ i j, Records loopEdits i j → j < loopGraph.size := fun _ _ =>
    records_lt hg (by decide)
  have hsort : loopGraph.sort = .error (.cycle ["LOADS", "HOSTS", "LOADS"]) := by decide
  have hleast : loopGraph.least [0, 1, 2] = some 0 := by decide
  have hcycle : loopGraph.findCycle (Sorter.finish loopGraph) = [1, 2, 1] := by decide
  obtain ⟨path, hpath, -, -, -, hchain, start, cycle, hstart, hreturns, hfound, -⟩ :=
    sort_cycle hg hviews hsort
  cases hpath
  obtain rfl : 0 = start := Option.some.inj (hleast.symm.trans hstart)
  obtain rfl : [1, 2, 1] = cycle := hcycle.symm.trans hfound
  exact ⟨hg, hviews, hsort, hleast, rfl, hreturns, hchain⟩

/-! ## The views that are stuck -/

theorem ReachesCycle.exists_read {reads : Nat → Nat → Prop} {i : Nat} (h : ReachesCycle reads i) :
    ∃ d, reads i d := by
  obtain ⟨j, hij, hj⟩ := h
  obtain ⟨d, hd, -⟩ := Relation.TransGen.head'_iff.1 (Relation.TransGen.trans_right hij hj)
  exact ⟨d, hd⟩

/-- **The views that are stuck in the end are those from which a cycle can be reached.** -/
theorem isStuck_iff_reachesCycle (hclosed : ∀ i, ∀ d ∈ g.dependencies i, d < g.size) {i : Nat} :
    (Sorter.finish g).isStuck i = true ↔ ReachesCycle (fun i j => j ∈ g.dependencies i) i := by
  by_cases hi : i < g.size
  · rw [Sorter.isStuck_iff hi, placed_iff_not_reachesCycle hclosed hi, Classical.not_not]
  · constructor
    · intro h
      exact absurd (lt_size_of_isStuck h) hi
    · intro h
      obtain ⟨d, hd⟩ := h.exists_read
      exact absurd (lt_size_of_dependency hd) hi

/-- A view is placed in the end exactly if its counter has come down to zero. -/
theorem placed_iff_counter {i : Nat} (hi : i < g.size) :
    i ∈ (Sorter.finish g).placed ↔ (Sorter.finish g).waiting[i]? = some 0 := by
  have hlt : i < (Sorter.finish g).waiting.length := by rwa [(Sorter.inv_finish g).length]
  have hstuck := Sorter.isStuck_iff hi
  rw [Sorter.isStuck, decide_eq_true_eq, List.getD_eq_getElem?_getD,
    List.getElem?_eq_getElem hlt, Option.getD_some] at hstuck
  rw [List.getElem?_eq_getElem hlt, Option.some.injEq, ← Nat.le_zero, ← Nat.not_lt, hstuck,
    Classical.not_not]

/-- The least of some views whose names are different has the least name. -/
theorem name_lt_of_least (hg : g.Proper) {ids : List Nat} (hids : ∀ i ∈ ids, i < g.size)
    {start : Nat} (h : g.least ids = some start) {i : Nat} (hi : i ∈ ids) :
    i = start ∨ g.name start < g.name i := by
  obtain ⟨hmem, hmin⟩ := least_spec h
  rcases hmin i hi with rfl | hbefore
  · exact .inl rfl
  · rcases before_iff.1 hbefore with hlt | ⟨hname, -⟩
    · exact .inr hlt
    · exact .inl (hg.distinct i start (hids i hi) (hids start hmem) hname.symm)

/-- **What is left when the sorting ends** are the views from which a cycle of recorded dependencies
can be reached, those whose counter is not zero. The walk for the report begins at the least. -/
theorem stuck_after_sorting (hg : build? edits = some g)
    (hviews : ∀ i j, Records edits i j → j < g.size) :
    (Sorter.finish g).ready = [] ∧
    (∀ i < g.size, (i ∈ (Sorter.finish g).placed ↔ (Sorter.finish g).waiting[i]? = some 0) ∧
      (i ∈ (Sorter.finish g).placed ↔ ¬ ReachesCycle (Records edits) i)) ∧
    (∀ i, (Sorter.finish g).isStuck i = true ↔ ReachesCycle (Records edits) i) ∧
    ∀ i, ReachesCycle (Records edits) i → ∃ start cycle,
      g.sort = .error (.cycle (cycle.map g.name)) ∧ g.findCycle (Sorter.finish g) = cycle ∧
      Returns g.nextStuck [] start cycle ∧ ReachesCycle (Records edits) start ∧
      ∀ j, ReachesCycle (Records edits) j → j = start ∨ g.name start < g.name j := by
  have hp := proper_build hg hviews
  have hrec : (fun i j => j ∈ g.dependencies i) = Records edits :=
    funext fun i => funext fun j => propext (mem_dependencies_build hg)
  have hplaced : ∀ i < g.size,
      (i ∈ (Sorter.finish g).placed ↔ ¬ ReachesCycle (Records edits) i) := fun i hi =>
    hrec ▸ placed_iff_not_reachesCycle hp.closed hi
  have hstuck : ∀ i, (Sorter.finish g).isStuck i = true ↔ ReachesCycle (Records edits) i :=
    fun i => hrec ▸ isStuck_iff_reachesCycle hp.closed
  refine ⟨Sorter.finish_ready g, fun i hi => ⟨placed_iff_counter hi, hplaced i hi⟩, hstuck,
    fun i hi => ?_⟩
  have hlt : ∀ j, ReachesCycle (Records edits) j → j < g.size := fun j hj =>
    lt_size_of_isStuck ((hstuck j).2 hj)
  have hleft : (Sorter.finish g).placed.length ≠ g.size := by
    intro hall
    have hmem := (Sorter.inv_finish g).length_placed_iff.1 hall i (hlt i hi)
    exact (hplaced i (hlt i hi)).1 hmem hi
  obtain ⟨start, hstart, hreturns, -⟩ := findCycle_returns hp hleft
  have hmem : ∀ j, j ∈ (List.range g.size).filter (Sorter.finish g).isStuck ↔
      ReachesCycle (Records edits) j := by
    intro j
    rw [List.mem_filter, List.mem_range, hstuck]
    exact ⟨And.right, fun hj => ⟨hlt j hj, hj⟩⟩
  refine ⟨start, _, ?_, rfl, hreturns, (hmem start).1 (least_spec hstart).1, fun j hj => ?_⟩
  · rw [sort_eq_cycle_iff hp.closed, order]
    exact if_neg hleft
  · exact name_lt_of_least hp (fun k hk => hlt k ((hmem k).1 hk)) hstart ((hmem j).2 hj)

/-- Four views. The third depends on itself, the fourth on it; the second does not. -/
def usageEdits : List Edit :=
  [.addView "hosts", .addView "audit", .addDependency 1 0, .addView "usage", .addDependency 2 2,
    .addView "bills", .addDependency 3 2, .addDependency 3 0]

def usageGraph : DependencyGraph :=
  ⟨[⟨"HOSTS", []⟩, ⟨"AUDIT", [0]⟩, ⟨"USAGE", [2]⟩, ⟨"BILLS", [2, 0]⟩]⟩

/-- Two views are placed. The walk begins at the last view, whose name is the least of the other
two, but not of all. -/
theorem stuck_after_sorting_usage :
    build? usageEdits = some usageGraph ∧
      (∀ i j, Records usageEdits i j → j < usageGraph.size) ∧
      (Sorter.finish usageGraph).placed = [0, 1] ∧
      (Sorter.finish usageGraph).waiting = [0, 0, 1, 1] ∧
      ¬ ReachesCycle (Records usageEdits) 1 ∧ ReachesCycle (Records usageEdits) 3 ∧
      usageGraph.sort = .error (.cycle ["USAGE", "USAGE"]) ∧
      Returns usageGraph.nextStuck [] 3 [2, 2] := by
  have hg : build? usageEdits = some usageGraph := by decide
  have hviews : ∀ i j, Records usageEdits i j → j < usageGraph.size := fun _ _ =>
    records_lt hg (by decide)
  have hend : (Sorter.finish usageGraph).placed = [0, 1] := by decide
  have hfound : usageGraph.findCycle (Sorter.finish usageGraph) = [2, 2] := by decide
  have hleast : ∀ i < 4, (Sorter.finish usageGraph).isStuck i = true →
      ¬ usageGraph.name i < usageGraph.name 3 := by decide
  obtain ⟨-, hplaced, hstuck, hwalk⟩ := stuck_after_sorting hg hviews
  have hfree : ¬ ReachesCycle (Records usageEdits) 1 :=
    (hplaced 1 (by decide)).2.1 (by rw [hend]; decide)
  have hlast : ReachesCycle (Records usageEdits) 3 := (hstuck 3).1 (by decide)
  obtain ⟨start, cycle, hsort, hcycle, hreturns, hstart, hmin⟩ := hwalk 3 hlast
  obtain rfl : [2, 2] = cycle := hfound.symm.trans hcycle
  obtain rfl : 3 = start := by
    have hstart := (hstuck start).2 hstart
    exact (hmin 3 hlast).resolve_right (hleast start (lt_size_of_isStuck hstart) hstart)
  exact ⟨hg, hviews, hend, by decide, hfree, hlast, hsort, hreturns⟩

end ViewTyping.DependencyGraph
