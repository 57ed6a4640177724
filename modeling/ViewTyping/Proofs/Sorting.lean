import Mathlib.Data.Finite.Defs
import Mathlib.Data.Fintype.Card
import Mathlib.Data.Fintype.EquivFin
import Mathlib.Data.List.Perm.Subperm
import Mathlib.Data.String.Basic
import Mathlib.Logic.Relation
import ViewTyping.DependencyGraph.Order

/-!
# Sorting views

`Sorter.Inv g s` ties the parts of the state `s` of sorting together: the counter of a view is the
number of its dependencies that are not placed, the views that may be placed next are those whose
dependencies are placed (`DependencyGraph.Ready`), and each placed view comes after its
dependencies. It holds at the start (`inv_start`) and is kept by every step (`Inv.step`), so it
holds when the sorting ends (`inv_finish`), and then no view is ready (`finish_ready`).

* `order_ok_iff`: views whose dependencies are views can be ordered exactly if no view depends on
  itself through others.
* `order_eq_ok`: the order lists each view once, after its dependencies.
* `isStuck_iff`: the views that are left are those that are not placed.
* `placed_iff_not_reachesCycle`: the views that are placed are those from which no cycle can be
  reached by going from view to dependency.
-/

set_option autoImplicit false

namespace ViewTyping

namespace DependencyGraph

variable {g : DependencyGraph}

/-! ## The least name -/

theorem before_iff {i j : Nat} :
    g.before i j = true ↔ g.name i < g.name j ∨ (g.name i = g.name j ∧ i < j) := by
  simp [before]

theorem before_trans {i j k : Nat} (hij : g.before i j = true) (hjk : g.before j k = true) :
    g.before i k = true := by
  rw [before_iff] at *
  rcases hij with hij | ⟨hij, hlt⟩ <;> rcases hjk with hjk | ⟨hjk, hlt'⟩
  · exact .inl (hij.trans hjk)
  · exact .inl (hjk ▸ hij)
  · exact .inl (hij ▸ hjk)
  · exact .inr ⟨hij.trans hjk, by omega⟩

theorem before_of_not {i j : Nat} (h : ¬ g.before i j = true) : i = j ∨ g.before j i = true := by
  rw [before_iff] at *
  rcases lt_trichotomy (g.name i) (g.name j) with hn | hn | hn
  · exact absurd (.inl hn) h
  · rcases Nat.lt_trichotomy i j with hlt | rfl | hlt
    · exact absurd (.inr ⟨hn, hlt⟩) h
    · exact .inl rfl
    · exact .inr (.inr ⟨hn.symm, hlt⟩)
  · exact .inr (.inl hn)

theorem least_eq_none {is : List Nat} (h : g.least is = none) : is = [] := by
  cases is with
  | nil => rfl
  | cons i is =>
    simp only [least] at h
    split at h
    · cases h
    · split at h <;> cases h

/-- The least of some views is one of them and comes before all others. -/
theorem least_spec : ∀ {is : List Nat} {i : Nat}, g.least is = some i →
    i ∈ is ∧ ∀ j ∈ is, j = i ∨ g.before i j = true
  | [], _, h => by simp [least] at h
  | k :: is, i, h => by
    simp only [least] at h
    split at h
    · rename_i hl
      cases h
      rw [least_eq_none hl]
      simp
    · rename_i m hl
      obtain ⟨hm, hmin⟩ := least_spec hl
      split at h
      · rename_i hb
        cases h
        refine ⟨.head _, fun j hj => ?_⟩
        rcases List.mem_cons.1 hj with rfl | hj
        · exact .inl rfl
        · rcases hmin j hj with rfl | hmj
          · exact .inr hb
          · exact .inr (before_trans hb hmj)
      · rename_i hb
        cases h
        refine ⟨.tail _ hm, fun j hj => ?_⟩
        rcases List.mem_cons.1 hj with rfl | hj
        · exact before_of_not hb
        · exact hmin j hj

/-! ## Readers -/

theorem lt_size_of_dependency {i d : Nat} (h : d ∈ g.dependencies i) : i < g.size := by
  apply Classical.byContradiction
  intro hi
  rw [dependencies, List.getElem?_eq_none (by simpa [size] using hi)] at h
  cases h

theorem count_readers_below (id i n : Nat) :
    ((List.range n).flatMap fun j => List.replicate ((g.dependencies j).count id) j).count i =
      if i < n then (g.dependencies i).count id else 0 := by
  induction n with
  | zero => simp
  | succ n ih =>
    rw [List.range_succ, List.flatMap_append, List.count_append, ih, List.flatMap_singleton,
      List.count_replicate]
    rcases Nat.lt_trichotomy i n with h | rfl | h
    · simp [h, Nat.ne_of_gt h, Nat.lt_succ_of_lt h]
    · simp
    · simp [Nat.ne_of_lt h, show ¬ i < n by omega, show ¬ i < n + 1 by omega]

/-- A view is listed as a reader as often as it lists the dependency. -/
theorem count_readers (id i : Nat) : (g.readers id).count i = (g.dependencies i).count id := by
  rw [readers, count_readers_below]
  split
  · rfl
  · rename_i hi
    refine (List.count_eq_zero.2 fun hd => hi (lt_size_of_dependency hd)).symm

theorem mem_readers {id i : Nat} : i ∈ g.readers id ↔ id ∈ g.dependencies i := by
  rw [← List.count_pos_iff, count_readers, List.count_pos_iff]

/-- The view is not placed, and its dependencies are. -/
structure Ready (g : DependencyGraph) (placed : List Nat) (id : Nat) : Prop where
  lt : id < g.size
  fresh : id ∉ placed
  reads : ∀ d ∈ g.dependencies id, d ∈ placed

end DependencyGraph

namespace Sorter

/-! ## Releasing readers -/

/-- `s'` is `s` after each view in `ids` has lost one dependency for each time it is listed. -/
structure Released (s : Sorter) (ids : List Nat) (s' : Sorter) : Prop where
  placed : s'.placed = s.placed
  length : s'.waiting.length = s.waiting.length
  waiting : ∀ i, s'.waiting.getD i 0 + ids.count i = s.waiting.getD i 0
  ready : ∀ i, i ∈ s'.ready ↔ i ∈ s.ready ∨ (i ∈ ids ∧ s'.waiting.getD i 0 = 0)
  nodup : s.ready.Nodup → (∀ i ∈ s.ready, s.waiting.getD i 0 = 0) → s'.ready.Nodup

theorem release_of_pos {s : Sorter} {id n : Nat} (h : s.waiting.getD id 0 = n + 1) :
    s.release id = { s with
      waiting := s.waiting.set id n, ready := if n = 0 then id :: s.ready else s.ready } := by
  rw [List.getD_eq_getElem?_getD] at h
  unfold release
  cases hw : s.waiting[id]? with
  | none => simp [hw] at h
  | some m =>
    obtain rfl : m = n + 1 := by simpa [hw] using h
    rfl

theorem getD_set {l : List Nat} {id n i : Nat} (h : id < l.length) :
    (l.set id n).getD i 0 = if i = id then n else l.getD i 0 := by
  rw [List.getD_eq_getElem?_getD, List.getElem?_set, List.getD_eq_getElem?_getD]
  by_cases hi : id = i
  · subst hi; simp [h]
  · simp [hi, Ne.symm hi]

theorem released_release {s : Sorter} {id : Nat} (h : 0 < s.waiting.getD id 0) :
    Released s [id] (s.release id) := by
  obtain ⟨n, hn⟩ : ∃ n, s.waiting.getD id 0 = n + 1 := ⟨_, (Nat.sub_add_cancel h).symm⟩
  have hlt : id < s.waiting.length := by
    apply Classical.byContradiction
    intro hge
    rw [List.getD_eq_getElem?_getD, List.getElem?_eq_none (by omega)] at h
    exact absurd h (Nat.lt_irrefl 0)
  rw [release_of_pos hn]
  refine ⟨rfl, by simp, fun i => ?_, fun i => ?_, fun hnd hz => ?_⟩
  · rw [getD_set hlt, List.count_singleton]
    by_cases hi : i = id
    · subst hi
      simp only [if_true, beq_self_eq_true, hn]
    · simp [hi, Ne.symm hi]
  · rw [getD_set hlt]
    by_cases hi : i = id
    · subst hi
      by_cases h0 : n = 0 <;> simp [h0]
    · by_cases h0 : n = 0 <;> simp [h0, hi]
  · by_cases h0 : n = 0
    · simp only [h0, if_true]
      refine List.nodup_cons.2 ⟨fun hm => ?_, hnd⟩
      have := hz id hm
      omega
    · simpa only [h0, if_false] using hnd

/-- **A fold of releases**, as long as no counter is exceeded. -/
theorem released_foldl : ∀ (ids : List Nat) (s : Sorter),
    (∀ i, ids.count i ≤ s.waiting.getD i 0) → Released s ids (ids.foldl release s)
  | [], s, _ => ⟨rfl, rfl, by simp, by simp, fun h _ => h⟩
  | id :: ids, s, h => by
    have hcount : ∀ i, (id :: ids).count i = ids.count i + [id].count i := fun i => by
      rw [List.count_cons, List.count_singleton]
    have h1 : Released s [id] (s.release id) := released_release (by
      have := h id
      rw [List.count_cons_self] at this
      omega)
    have h2 : Released (s.release id) ids (ids.foldl release (s.release id)) :=
      released_foldl ids _ fun i => by
        have := h i
        have := h1.waiting i
        have := hcount i
        omega
    have hw : ∀ i, (ids.foldl release (s.release id)).waiting.getD i 0 + (id :: ids).count i =
        s.waiting.getD i 0 := fun i => by
      have := h1.waiting i
      have := h2.waiting i
      have := hcount i
      omega
    refine ⟨h2.placed.trans h1.placed, h2.length.trans h1.length, hw, fun i => ?_,
      fun hnd hz => h2.nodup (h1.nodup hnd hz) fun i hi => ?_⟩
    · rw [List.foldl_cons, h2.ready, h1.ready, List.mem_singleton, List.mem_cons]
      have := h2.waiting i
      constructor
      · rintro ((hi | ⟨rfl, h0⟩) | ⟨hi, h0⟩)
        · exact .inl hi
        · exact .inr ⟨.inl rfl, by omega⟩
        · exact .inr ⟨.inr hi, h0⟩
      · rintro (hi | ⟨rfl | hi, h0⟩)
        · exact .inl (.inl hi)
        · by_cases hi : i ∈ ids
          · exact .inr ⟨hi, h0⟩
          · have := List.count_eq_zero.2 hi
            exact .inl (.inr ⟨rfl, by omega⟩)
        · exact .inr ⟨hi, h0⟩
    · have := h1.waiting i
      rcases (h1.ready i).1 hi with hi | ⟨-, h0⟩
      · have := hz i hi
        omega
      · exact h0

/-! ## The invariant -/

/-- The invariant of sorting (module doc). -/
structure Inv (g : DependencyGraph) (s : Sorter) : Prop where
  length : s.waiting.length = g.size
  waiting : ∀ i, s.waiting.getD i 0 = (g.dependencies i).countP (· ∉ s.placed)
  ready : ∀ i, i ∈ s.ready ↔ g.Ready s.placed i
  readyNodup : s.ready.Nodup
  placedNodup : s.placed.Nodup
  placedLt : ∀ i ∈ s.placed, i < g.size
  ordered : ∀ earlier id later, s.placed = earlier ++ id :: later →
    ∀ d ∈ g.dependencies id, d ∈ earlier

variable {g : DependencyGraph} {s : Sorter}

theorem inv_start : Inv g (start g) where
  length := by simp [start, DependencyGraph.size]
  waiting i := by
    simp only [start, DependencyGraph.dependencies, List.getD_eq_getElem?_getD,
      List.getElem?_map]
    cases g.nodes[i]? <;> simp
  ready i := by
    simp only [start, List.mem_filter, List.mem_range, List.isEmpty_iff]
    exact ⟨fun ⟨hi, h⟩ => ⟨hi, by simp, by simp [h]⟩,
      fun ⟨hi, _, h⟩ => ⟨hi, List.eq_nil_iff_forall_not_mem.2 fun d hd => by simpa using h d hd⟩⟩
  readyNodup := List.nodup_range.filter _
  placedNodup := List.nodup_nil
  placedLt := by simp [start]
  ordered := by simp [start]

/-- The dependencies of a placed view are placed. -/
theorem Inv.dependency_placed (h : Inv g s) {i d : Nat} (hi : i ∈ s.placed)
    (hd : d ∈ g.dependencies i) : d ∈ s.placed := by
  obtain ⟨earlier, later, he⟩ := List.append_of_mem hi
  rw [he]
  exact List.mem_append_left _ (h.ordered earlier i later he d hd)

theorem Inv.waiting_eq_zero (h : Inv g s) {i : Nat} :
    s.waiting.getD i 0 = 0 ↔ ∀ d ∈ g.dependencies i, d ∈ s.placed := by
  rw [h.waiting, List.countP_eq_zero]
  simp

theorem countP_not_mem_append (ds placed : List Nat) {id : Nat} (h : id ∉ placed) :
    ds.countP (· ∉ placed) = ds.countP (· ∉ placed ++ [id]) + ds.count id := by
  induction ds with
  | nil => rfl
  | cons d ds ih =>
    rw [List.countP_cons, List.countP_cons, List.count_cons, ih]
    by_cases hd : d = id
    · subst hd; simp [h]; omega
    · by_cases hp : d ∈ placed <;> simp [hd, hp]; omega

/-- A list with one more element at its end, cut at one of its elements. -/
theorem append_singleton_eq_cut {l earlier later : List Nat} {a id : Nat}
    (h : l ++ [a] = earlier ++ id :: later) :
    (earlier = l ∧ id = a) ∨ ∃ later', l = earlier ++ id :: later' := by
  rcases List.eq_nil_or_concat later with rfl | ⟨later', b, rfl⟩
  · obtain ⟨h1, h2⟩ := List.append_inj' h rfl
    cases h2
    exact .inl ⟨h1.symm, rfl⟩
  · rw [List.concat_eq_append, ← List.cons_append, ← List.append_assoc] at h
    exact .inr ⟨later', (List.append_inj' h rfl).1⟩

/-- Once `id` is placed, the views that are ready are the others that were and those readers of
`id` that wait for nothing else. -/
theorem Inv.ready_append (h : Inv g s) {id i : Nat} (hr : g.Ready s.placed id) :
    ((i ≠ id ∧ g.Ready s.placed i) ∨
      (id ∈ g.dependencies i ∧ ∀ d ∈ g.dependencies i, d ∈ s.placed ++ [id])) ↔
      g.Ready (s.placed ++ [id]) i := by
  refine ⟨fun hi => ?_, fun hi => ?_⟩
  · rcases hi with ⟨hne, hi⟩ | ⟨hd, hall⟩
    · exact ⟨hi.lt, by simp [hne, hi.fresh], fun d hd => by simp [hi.reads d hd]⟩
    · -- a reader of `id` is not placed, or `id` would be placed, and is not `id` itself
      refine ⟨DependencyGraph.lt_size_of_dependency hd, fun hp => ?_, hall⟩
      rcases List.mem_append.1 hp with hp | hp
      · exact hr.fresh (h.dependency_placed hp hd)
      · obtain rfl := List.mem_singleton.1 hp
        exact hr.fresh (hr.reads _ hd)
  · have hf := hi.fresh
    simp only [List.mem_append, List.mem_singleton, not_or] at hf
    by_cases hd : id ∈ g.dependencies i
    · exact .inr ⟨hd, hi.reads⟩
    · refine .inl ⟨hf.2, hi.lt, hf.1, fun d hdd => ?_⟩
      rcases List.mem_append.1 (hi.reads d hdd) with hp | hp
      · exact hp
      · exact absurd (List.mem_singleton.1 hp ▸ hdd) hd

/-- A view that is placed has been counted by each of its readers, as often as it is read. -/
theorem Inv.count_readers_le (h : Inv g s) {id : Nat} (hr : g.Ready s.placed id) (i : Nat) :
    (g.readers id).count i ≤ s.waiting.getD i 0 := by
  rw [DependencyGraph.count_readers, h.waiting, countP_not_mem_append _ _ hr.fresh]
  omega

/-- **A step places the least view that is ready and keeps the invariant.** -/
theorem Inv.step (h : Inv g s) {id : Nat} (hid : g.least s.ready = some id) :
    (step g s).placed = s.placed ++ [id] ∧ Inv g (Sorter.step g s) := by
  obtain ⟨hmem, -⟩ := DependencyGraph.least_spec hid
  have hr := (h.ready id).1 hmem
  have hstep : Sorter.step g s = (g.readers id).foldl release
      { s with ready := s.ready.erase id, placed := s.placed ++ [id] } := by
    unfold Sorter.step
    rw [hid]
  have hrel := released_foldl (g.readers id)
    { s with ready := s.ready.erase id, placed := s.placed ++ [id] } (h.count_readers_le hr)
  rw [← hstep] at hrel
  have hw : ∀ i, (Sorter.step g s).waiting.getD i 0 =
      (g.dependencies i).countP (· ∉ s.placed ++ [id]) := by
    intro i
    have h1 := hrel.waiting i
    have h2 := h.waiting i
    rw [countP_not_mem_append _ _ hr.fresh] at h2
    rw [DependencyGraph.count_readers] at h1
    simp only at h1
    omega
  have hzero : ∀ i, (Sorter.step g s).waiting.getD i 0 = 0 ↔
      ∀ d ∈ g.dependencies i, d ∈ s.placed ++ [id] := by
    intro i
    rw [hw, List.countP_eq_zero]
    simp only [decide_eq_true_eq, Classical.not_not]
  refine ⟨hrel.placed, hrel.length.trans h.length, ?_, fun i => ?_, ?_, ?_, ?_, ?_⟩
  · rw [hrel.placed]
    exact hw
  · rw [hrel.placed, hrel.ready, h.readyNodup.mem_erase_iff, h.ready, DependencyGraph.mem_readers,
      hzero, h.ready_append hr]
  · refine hrel.nodup (h.readyNodup.erase _) fun i hi => ?_
    exact h.waiting_eq_zero.2 ((h.ready i).1 (List.mem_of_mem_erase hi)).reads
  · rw [hrel.placed]
    refine h.placedNodup.append (List.nodup_singleton _) fun i hi hi' => ?_
    exact hr.fresh (List.mem_singleton.1 hi' ▸ hi)
  · rw [hrel.placed]
    intro i hi
    rcases List.mem_append.1 hi with hi | hi
    · exact h.placedLt i hi
    · exact List.mem_singleton.1 hi ▸ hr.lt
  · rw [hrel.placed]
    intro earlier i later he d hd
    rcases append_singleton_eq_cut he with ⟨rfl, rfl⟩ | ⟨later', he'⟩
    · exact hr.reads d hd
    · exact h.ordered earlier i later' he' d hd

theorem step_of_ready_nil (h : s.ready = []) : Sorter.step g s = s := by
  unfold Sorter.step
  rw [h]
  rfl

/-- After `n` steps the invariant holds, and either no view is ready or `n` are placed. -/
theorem inv_repeat (g : DependencyGraph) : ∀ n : Nat,
    Inv g (Nat.repeat (Sorter.step g) n (start g)) ∧
      ((Nat.repeat (Sorter.step g) n (start g)).ready = [] ∨
        (Nat.repeat (Sorter.step g) n (start g)).placed.length = n)
  | 0 => ⟨inv_start, .inr rfl⟩
  | n + 1 => by
    obtain ⟨hinv, hend⟩ := inv_repeat g n
    rw [Nat.repeat]
    cases hl : g.least (Nat.repeat (Sorter.step g) n (start g)).ready with
    | none =>
      have hnil := DependencyGraph.least_eq_none hl
      rw [step_of_ready_nil hnil]
      exact ⟨hinv, .inl hnil⟩
    | some id =>
      obtain ⟨hp, hinv'⟩ := hinv.step hl
      refine ⟨hinv', .inr ?_⟩
      rcases hend with hnil | hlen
      · rw [hnil] at hl; cases hl
      · rw [hp, List.length_append, hlen]; rfl

theorem inv_finish (g : DependencyGraph) : Inv g (finish g) := (inv_repeat g g.size).1

/-- Different numbers below `n` are as many as `range n` has, at most. -/
theorem subperm_range {ids : List Nat} {n : Nat} (hnd : ids.Nodup) (hlt : ∀ i ∈ ids, i < n) :
    ids.Subperm (List.range n) :=
  List.subperm_of_subset hnd fun i hi => List.mem_range.2 (hlt i hi)

/-- Not all views are placed while one is ready. -/
theorem Inv.length_placed_lt (h : Inv g s) {id : Nat} (hr : g.Ready s.placed id) :
    s.placed.length < g.size := by
  have hnd : (id :: s.placed).Nodup := List.nodup_cons.2 ⟨hr.fresh, h.placedNodup⟩
  have hsub := subperm_range hnd fun i hi => by
    rcases List.mem_cons.1 hi with rfl | hi
    · exact hr.lt
    · exact h.placedLt i hi
  simpa [Nat.succ_le_iff] using hsub.length_le

/-- As many placed views as there are views are all views. -/
theorem Inv.perm_range (h : Inv g s) (hlen : s.placed.length = g.size) :
    s.placed.Perm (List.range g.size) :=
  (subperm_range h.placedNodup h.placedLt).perm_of_length_le (by simp [hlen])

/-- As many views are placed as there are exactly if all are. -/
theorem Inv.length_placed_iff (h : Inv g s) :
    s.placed.length = g.size ↔ ∀ i < g.size, i ∈ s.placed := by
  constructor
  · intro hlen i hi
    exact (h.perm_range hlen).mem_iff.2 (List.mem_range.2 hi)
  · intro hall
    have hsub : List.range g.size ⊆ s.placed := fun i hi => hall i (List.mem_range.1 hi)
    have hle : g.size ≤ s.placed.length := by
      simpa using (List.subperm_of_subset List.nodup_range hsub).length_le
    have hge : s.placed.length ≤ g.size := by
      simpa using (subperm_range h.placedNodup h.placedLt).length_le
    exact Nat.le_antisymm hge hle

/-- **When the sorting ends, no view is ready.** -/
theorem finish_ready (g : DependencyGraph) : (finish g).ready = [] := by
  rcases (inv_repeat g g.size).2 with h | hlen
  · exact h
  · refine List.eq_nil_iff_forall_not_mem.2 fun i hi => ?_
    have hr := ((inv_finish g).ready i).1 hi
    exact hr.fresh ((inv_finish g).length_placed_iff.1 hlen i hr.lt)

theorem not_ready_finish {i : Nat} : ¬ g.Ready (finish g).placed i := fun h => by
  have := ((inv_finish g).ready i).2 h
  rw [finish_ready] at this
  cases this

/-- A view is stuck exactly if a dependency of it is not placed. -/
theorem Inv.isStuck_iff_dependency (h : Inv g s) {i : Nat} :
    s.isStuck i = true ↔ ∃ d ∈ g.dependencies i, d ∉ s.placed := by
  rw [isStuck, decide_eq_true_eq, Nat.pos_iff_ne_zero, ne_eq, h.waiting_eq_zero]
  simp only [not_forall, exists_prop]

/-- **The views that are stuck in the end are those that are not placed.** -/
theorem isStuck_iff {i : Nat} (hi : i < g.size) :
    (finish g).isStuck i = true ↔ i ∉ (finish g).placed := by
  rw [(inv_finish g).isStuck_iff_dependency]
  constructor
  · intro h hp
    obtain ⟨d, hd, hnot⟩ := h
    exact hnot ((inv_finish g).dependency_placed hp hd)
  · intro hp
    by_contra h
    simp only [not_exists, not_and, not_not] at h
    exact not_ready_finish ⟨hi, hp, h⟩

end Sorter

/-! ## Cycles -/

namespace DependencyGraph

variable {g : DependencyGraph}

/-- No view depends on itself, directly or through others. -/
def Acyclic (g : DependencyGraph) : Prop :=
  ∀ i, ¬ Relation.TransGen (fun i j => j ∈ g.dependencies i) i i

/-- The view `i`, or one that it depends on through others, depends on itself. -/
def ReachesCycle (reads : Nat → Nat → Prop) (i : Nat) : Prop :=
  ∃ j, Relation.ReflTransGen reads i j ∧ Relation.TransGen reads j j

theorem order_eq_ok {ids : List Nat} (h : g.order = .ok ids) :
    ids = (Sorter.finish g).placed ∧ ids.Perm (List.range g.size) ∧
      ∀ earlier id later, ids = earlier ++ id :: later →
        ∀ d ∈ g.dependencies id, d ∈ earlier := by
  unfold order at h
  simp only at h
  split at h
  · rename_i hlen
    cases h
    exact ⟨rfl, (Sorter.inv_finish g).perm_range hlen, (Sorter.inv_finish g).ordered⟩
  · cases h

/-- What a view depends on through others is placed before it. -/
theorem mem_earlier_of_transGen {s : Sorter} (h : Sorter.Inv g s) {i j : Nat}
    (hij : Relation.TransGen (fun i j => j ∈ g.dependencies i) i j) :
    ∀ earlier later, s.placed = earlier ++ i :: later → j ∈ earlier := by
  induction hij with
  | single hd => exact fun earlier later he => h.ordered earlier i later he _ hd
  | tail _ hd ih =>
    intro earlier later he
    obtain ⟨first, rest, hf⟩ := List.append_of_mem (ih earlier later he)
    rw [hf, List.append_assoc, List.cons_append] at he
    rw [hf]
    exact List.mem_append_left _ (h.ordered first _ _ he _ hd)

/-- A placed view does not depend on itself. -/
theorem not_transGen_of_placed {s : Sorter} (h : Sorter.Inv g s) {i : Nat} (hi : i ∈ s.placed) :
    ¬ Relation.TransGen (fun i j => j ∈ g.dependencies i) i i := by
  intro hcycle
  obtain ⟨earlier, later, he⟩ := List.append_of_mem hi
  have hnd := h.placedNodup
  rw [he] at hnd
  exact (List.nodup_append.1 hnd).2.2 i (mem_earlier_of_transGen h hcycle earlier later he) i
    (.head _) rfl

theorem acyclic_of_order {ids : List Nat} (h : g.order = .ok ids) : g.Acyclic := by
  intro i hi
  obtain ⟨d, hd⟩ : ∃ d, d ∈ g.dependencies i := by
    obtain ⟨d, hd, -⟩ := Relation.TransGen.head'_iff.1 hi
    exact ⟨d, hd⟩
  obtain ⟨rfl, hperm, -⟩ := order_eq_ok h
  have hmem : i ∈ (Sorter.finish g).placed :=
    hperm.mem_iff.2 (List.mem_range.2 (lt_size_of_dependency hd))
  exact not_transGen_of_placed (Sorter.inv_finish g) hmem hi

/-- What a placed view depends on is placed. -/
theorem placed_of_reflTransGen {s : Sorter} (h : Sorter.Inv g s) {i j : Nat} (hi : i ∈ s.placed)
    (hij : Relation.ReflTransGen (fun i j => j ∈ g.dependencies i) i j) : j ∈ s.placed := by
  induction hij with
  | refl => exact hi
  | tail _ hd ih => exact h.dependency_placed ih hd

/-- A view from which no cycle can be reached is placed: of the views that it depends on and that
are not, one that depends on no other of them would be ready. -/
theorem placed_of_not_reachesCycle (hclosed : ∀ i, ∀ d ∈ g.dependencies i, d < g.size) {i : Nat}
    (hi : i < g.size) (h : ¬ ReachesCycle (fun i j => j ∈ g.dependencies i) i) :
    i ∈ (Sorter.finish g).placed := by
  let Reached : Type :=
    {a : Fin g.size // Relation.ReflTransGen (fun i j => j ∈ g.dependencies i) i a.1}
  let r : Reached → Reached → Prop := fun a b =>
    Relation.TransGen (fun i j => j ∈ g.dependencies i) b.1.1 a.1.1
  have : IsTrans Reached r := ⟨fun _ _ _ hab hbc => hbc.trans hab⟩
  have : Std.Irrefl r := ⟨fun a ha => h ⟨a.1.1, a.2, ha⟩⟩
  have hwf : WellFounded r := Finite.wellFounded_of_trans_of_irrefl r
  refine hwf.induction (C := fun a => a.1.1 ∈ (Sorter.finish g).placed) ⟨⟨i, hi⟩, .refl⟩
    fun a ih => ?_
  apply Classical.byContradiction
  intro hp
  refine Sorter.not_ready_finish ⟨a.1.2, hp, fun d hd => ?_⟩
  exact ih ⟨⟨d, hclosed _ d hd⟩, a.2.tail hd⟩ (.single hd)

/-- **When the sorting ends, the placed views are those from which no cycle can be reached.** -/
theorem placed_iff_not_reachesCycle (hclosed : ∀ i, ∀ d ∈ g.dependencies i, d < g.size) {i : Nat}
    (hi : i < g.size) : i ∈ (Sorter.finish g).placed ↔
      ¬ ReachesCycle (fun i j => j ∈ g.dependencies i) i := by
  constructor
  · intro hp ⟨j, hij, hj⟩
    have hinv := Sorter.inv_finish g
    exact not_transGen_of_placed hinv (placed_of_reflTransGen hinv hp hij) hj
  · exact placed_of_not_reachesCycle hclosed hi

/-- **Views can be ordered exactly if none depends on itself.** -/
theorem order_ok_iff (hclosed : ∀ i, ∀ d ∈ g.dependencies i, d < g.size) :
    (∃ ids, g.order = .ok ids) ↔ g.Acyclic := by
  constructor
  · exact fun ⟨_, h⟩ => acyclic_of_order h
  · intro h
    have hall : ∀ i < g.size, i ∈ (Sorter.finish g).placed := fun i hi =>
      placed_of_not_reachesCycle hclosed hi fun ⟨j, _, hj⟩ => h j hj
    exact ⟨_, if_pos ((Sorter.inv_finish g).length_placed_iff.2 hall)⟩

end DependencyGraph

end ViewTyping
