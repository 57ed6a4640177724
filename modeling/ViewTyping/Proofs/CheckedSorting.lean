import ViewTyping.Proofs.CycleWalk

/-!
# Sorting with every access checked

`DependencyGraph.sort` looks entries up with a default and lowers a counter only if it is not zero.
`DependencyGraph.checkedSort` takes nothing for granted: it is the same search, but each position is
checked where an entry is looked up, each counter where it is lowered, and ids are words of 32 bits.
It may break off (`Panic`), and its two loops might not come to an end within their limits. It keeps
a record of what it does (`Action`).

* `readerTable_of_missing`, `readerTable_of_closed`: the table of readers is complete if all
  dependencies are views; at the first that is none it breaks off.
* `placeNext_eq`: a step of the loop is the step of the sorter, as long as `Sorter.Inv` holds.
* `Tally`: the record has an entry for each view in the queue or in the order, and for no other.
* `walk_returns`: the walk among stuck views ends with the cycle that is reported.
* `sort_panics_iff`: sorting breaks off exactly if a dependency is no view.
-/

set_option autoImplicit false

namespace ViewTyping

/-! ## Computations that may break off -/

/-- What sorting looks up by position. -/
inductive Site where
  /-- The readers of a view, while the table is filled. -/
  | readerTable
  | readers
  | counter
  | view
  | stuck
  /-- The part of a walk from a view on. -/
  | path
deriving DecidableEq, Repr

/-- Why sorting breaks off. -/
inductive Panic where
  | outOfBounds (site : Site) (i : Nat)
  /-- The counter of a view is lowered, but is zero. -/
  | belowZero (id : Nat)
deriving DecidableEq, Repr

def lookUp {α : Type} (site : Site) (xs : List α) (i : Nat) : Except Panic α :=
  match xs[i]? with
  | some x => .ok x
  | none => .error (.outOfBounds site i)

/-- Repeats a step until it has a result or breaks off. Nothing if it does neither within the
limit. -/
def iterate {σ α : Type} (step : σ → Except Panic (σ ⊕ α)) :
    (limit : Nat) → σ → Option (Except Panic α)
  | 0, _ => none
  | limit + 1, s =>
    match step s with
    | .error p => some (.error p)
    | .ok (.inr a) => some (.ok a)
    | .ok (.inl s') => iterate step limit s'

/-- A position as an id, which is a word of 32 bits. -/
def wordId (i : Nat) : Nat := (UInt32.ofNat i).toNat

/-- What a run of sorting has done, step by step. -/
inductive Action where
  | queue (id : Nat)
  | place (id : Nat)
  /-- The counter of the view has come down to `left`. -/
  | lower (id left : Nat)
deriving DecidableEq, Repr

structure SortRun where
  sorter : Sorter
  actions : List Action

/-- A walk among views: the views met so far, each with its position in the walk, and the view to
which it has come. -/
structure StuckWalk where
  path : List Nat
  visits : List (Nat × Nat)
  current : Nat

structure SortReport where
  /-- The views in order, or the names of a cycle. -/
  result : Except (List String) (List Nat)
  actions : List Action

namespace DependencyGraph

/-! ## The checked search -/

/-- The dependencies of all views, each with its reader behind it, in the order of the readers. -/
def readerEdges (g : DependencyGraph) : List (Nat × Nat) :=
  (List.range g.size).flatMap fun i => (g.dependencies i).map fun d => (d, wordId i)

def addReader (table : List (List Nat)) (edge : Nat × Nat) : Except Panic (List (List Nat)) :=
  if edge.1 < table.length then .ok (table.modify edge.1 (· ++ [edge.2]))
  else .error (.outOfBounds .readerTable edge.1)

/-- For each view the views that read it. -/
def readerTable (g : DependencyGraph) : Except Panic (List (List Nat)) :=
  g.readerEdges.foldlM addReader (List.replicate g.size [])

def startRun (g : DependencyGraph) : SortRun :=
  let ready := (Sorter.start g).ready.map wordId
  ⟨{ Sorter.start g with ready := ready }, ready.map .queue⟩

/-- One dependency of `id` has been placed. -/
def release? (g : DependencyGraph) (r : SortRun) (id : Nat) : Except Panic SortRun := do
  match ← lookUp .counter r.sorter.waiting id with
  | 0 => .error (.belowZero id)
  | left + 1 =>
    let lowered : Sorter := { r.sorter with waiting := r.sorter.waiting.set id left }
    if left = 0 then
      let _ ← lookUp .view g.nodes id
      return ⟨{ lowered with ready := id :: lowered.ready },
        r.actions ++ [.lower id left, .queue id]⟩
    else return ⟨lowered, r.actions ++ [.lower id left]⟩

/-- Places the view with the least name that is queued; ends if there is none. -/
def placeNext (g : DependencyGraph) (table : List (List Nat)) (r : SortRun) :
    Except Panic (SortRun ⊕ SortRun) :=
  match g.least r.sorter.ready with
  | none => .ok (.inr r)
  | some id => do
    let readers ← lookUp .readers table id
    let r ← readers.foldlM g.release?
      ⟨{ r.sorter with ready := r.sorter.ready.erase id, placed := r.sorter.placed ++ [id] },
        r.actions ++ [.place id]⟩
    return .inl r

def nameOf? (g : DependencyGraph) (id : Nat) : Except Panic String := do
  let v ← lookUp .view g.nodes id
  return v.name

/-- Goes on to the first dependency that is stuck; ends if a view is met again, with the names from
its first visit on, or if the view has no such dependency. -/
def walkOn (g : DependencyGraph) (stuck : List Bool) (w : StuckWalk) :
    Except Panic (StuckWalk ⊕ List String) :=
  match w.visits.lookup w.current with
  | some first =>
    if first ≤ w.path.length then do
      let names ← (w.path.drop first ++ [w.current]).mapM g.nameOf?
      return .inr names
    else .error (.outOfBounds .path first)
  | none => do
    let v ← lookUp .view g.nodes w.current
    match ← v.dependencies.findM? (lookUp .stuck stuck) with
    | some d => return .inl ⟨w.path ++ [w.current], (w.current, w.path.length) :: w.visits, d⟩
    | none => do
      let names ← (w.path ++ [w.current]).mapM g.nameOf?
      return .inr names

/-- The positions for which a list of flags says yes. -/
def flagged (stuck : List Bool) : List Nat → Except Panic (List Nat)
  | [] => .ok []
  | i :: is => do
    let flag ← lookUp .stuck stuck i
    let rest ← flagged stuck is
    return if flag then i :: rest else rest

/-- The names of a cycle among stuck views. -/
def stuckCycle (g : DependencyGraph) (stuck : List Bool) : Option (Except Panic (List String)) :=
  match flagged stuck (List.range g.size) with
  | .error p => some (.error p)
  | .ok ids =>
    match g.least ids with
    | none => some (.ok [])
    | some id => iterate (g.walkOn stuck) (g.size + 1) ⟨[], [], wordId id⟩

/-- What is reported when no view is queued any more. -/
def reportOf (g : DependencyGraph) (r : SortRun) : Option (Except Panic SortReport) :=
  if r.sorter.placed.length = g.size then some (.ok ⟨.ok r.sorter.placed, r.actions⟩)
  else (g.stuckCycle (r.sorter.waiting.map (0 < ·))).map fun names =>
    names.map fun names => ⟨.error names, r.actions⟩

/-- The views in an order in which each comes after the views it reads, or a cycle. -/
def checkedSort (g : DependencyGraph) : Option (Except Panic SortReport) :=
  match g.readerTable with
  | .error p => some (.error p)
  | .ok table => (iterate (g.placeNext table) (g.size + 1) g.startRun).bind fun r =>
    match r with
    | .error p => some (.error p)
    | .ok r => g.reportOf r

end DependencyGraph

/-! ## Accesses that are in bounds -/

section
variable {α β σ : Type}

theorem ok_bind (a : α) (f : α → Except Panic β) : (Except.ok a >>= f) = f a := rfl

theorem lookUp_eq {site : Site} {xs : List α} {i : Nat} {x : α} (h : xs[i]? = some x) :
    lookUp site xs i = .ok x := by
  rw [lookUp, h]

variable {step : σ → Except Panic (σ ⊕ α)} {s s' : σ}

theorem iterate_of_next (limit : Nat) (h : step s = .ok (.inl s')) :
    iterate step (limit + 1) s = iterate step limit s' := by
  rw [iterate, h]

theorem iterate_of_done {a : α} (limit : Nat) (h : step s = .ok (.inr a)) :
    iterate step (limit + 1) s = some (.ok a) := by
  rw [iterate, h]

end

theorem wordId_of_lt {i n : Nat} (h : i < n) (hn : n < UInt32.size) : wordId i = i :=
  UInt32.toNat_ofNat_of_lt' (Nat.lt_trans h hn)

namespace DependencyGraph

variable {g : DependencyGraph} {edits : List Edit}

/-! ## The table of readers -/

theorem flatMap_dependencies (g : DependencyGraph) :
    g.nodes.flatMap ViewNode.dependencies = (List.range g.size).flatMap g.dependencies := by
  have hnodes : g.nodes.map ViewNode.dependencies = (List.range g.size).map g.dependencies := by
    refine List.ext_getElem? fun i => ?_
    rw [List.getElem?_map, List.getElem?_map]
    by_cases hi : i < g.nodes.length
    · rw [List.getElem?_range (show i < g.size from hi), Option.map_some, dependencies,
        List.getElem?_eq_getElem hi]
      rfl
    · rw [List.getElem?_eq_none (by omega), List.getElem?_eq_none (by simpa [size] using hi)]
      rfl
  rw [List.flatMap_def, hnodes, ← List.flatMap_def]

theorem map_fst_readerEdges (g : DependencyGraph) :
    g.readerEdges.map Prod.fst = g.nodes.flatMap ViewNode.dependencies := by
  rw [flatMap_dependencies, readerEdges, List.map_flatMap]
  simp only [List.map_map, Function.comp_def, List.map_id']

/-- A table is filled up to the first edge to what is no view. -/
theorem foldlM_addReader_of_missing : ∀ (edges : List (Nat × Nat)) (table : List (List Nat))
    {d : Nat}, (edges.map Prod.fst).find? (table.length ≤ ·) = some d →
    edges.foldlM addReader table = .error (.outOfBounds .readerTable d)
  | [], _, _, h => by cases h
  | e :: edges, table, d, h => by
    rw [List.map_cons, List.find?_cons] at h
    rw [List.foldlM_cons, addReader]
    by_cases he : e.1 < table.length
    · rw [if_pos he]
      refine foldlM_addReader_of_missing edges _ ?_
      simpa [Nat.not_le.2 he] using h
    · rw [if_neg he]
      obtain rfl : e.1 = d := by simpa [Nat.not_lt.1 he] using h
      rfl

/-- Edges to views are all entered, each at the end of its row. -/
theorem foldlM_addReader_of_closed : ∀ (edges : List (Nat × Nat)) (table : List (List Nat)),
    (∀ e ∈ edges, e.1 < table.length) → ∃ table', edges.foldlM addReader table = .ok table' ∧
      ∀ j, table'[j]? = table[j]?.map (· ++ (edges.filter (·.1 == j)).map Prod.snd)
  | [], table, _ => ⟨table, rfl, fun j => by simp⟩
  | e :: edges, table, h => by
    obtain ⟨table', htable', hrows⟩ := foldlM_addReader_of_closed edges
      (table.modify e.1 (· ++ [e.2])) fun e' he' => by simpa using h e' (.tail _ he')
    refine ⟨table', ?_, fun j => ?_⟩
    · rw [List.foldlM_cons, addReader, if_pos (h e (.head _))]
      exact htable'
    · rw [hrows, List.getElem?_modify, List.filter_cons]
      cases table[j]? with
      | none => rfl
      | some row => by_cases hj : e.1 = j <;> simp [hj]

theorem filter_readerEdges (hsize : g.size < UInt32.size) (j : Nat) :
    (g.readerEdges.filter (·.1 == j)).map Prod.snd = g.readers j := by
  rw [readerEdges, readers, List.filter_flatMap, List.map_flatMap]
  refine List.flatMap_congr fun i hi => ?_
  rw [List.filter_map, List.map_map, wordId_of_lt (List.mem_range.1 hi) hsize,
    List.count_eq_length_filter]
  exact List.map_const'

theorem readerTable_of_missing {d : Nat} (h : g.missingView? = some d) :
    g.readerTable = .error (.outOfBounds .readerTable d) := by
  apply foldlM_addReader_of_missing
  rw [map_fst_readerEdges, List.length_replicate]
  exact h

/-- **The table has the readers of each view** if all dependencies are views. -/
theorem readerTable_of_closed (hsize : g.size < UInt32.size) (h : g.missingView? = none) :
    ∃ table, g.readerTable = .ok table ∧ ∀ id < g.size, table[id]? = some (g.readers id) := by
  have hedges : ∀ e ∈ g.readerEdges, e.1 < (List.replicate g.size ([] : List Nat)).length := by
    intro e he
    rw [List.length_replicate]
    have hmem : e.1 ∈ g.nodes.flatMap ViewNode.dependencies := by
      rw [← map_fst_readerEdges]
      exact List.mem_map_of_mem he
    obtain ⟨i, hi⟩ := mem_flatMap_dependencies.1 hmem
    exact missingView?_eq_none.1 h i e.1 hi
  obtain ⟨table, htable, hrows⟩ := foldlM_addReader_of_closed _ _ hedges
  refine ⟨table, htable, fun id hid => ?_⟩
  rw [hrows, filter_readerEdges hsize, List.getElem?_replicate, if_pos hid]
  rfl

/-! ## The loop -/

/-- **What the record says**: each view that is queued or placed has been queued once for it, each
placed view has been placed once for it, and a counter that came down to zero has queued its
view. -/
structure Tally (r : SortRun) : Prop where
  queued : ∀ i, r.actions.count (.queue i) = r.sorter.ready.count i + r.sorter.placed.count i
  placed : ∀ i, r.actions.count (.place i) = r.sorter.placed.count i
  zeroed : ∀ i, r.actions.count (.lower i 0) ≤ r.actions.count (.queue i)

theorem startRun_sorter (hsize : g.size < UInt32.size) : g.startRun.sorter = Sorter.start g := by
  have hready : (Sorter.start g).ready.map wordId = (Sorter.start g).ready := by
    refine (List.map_congr_left fun i hi => ?_).trans (List.map_id _)
    exact wordId_of_lt ((Sorter.inv_start.ready i).1 hi).lt hsize
  unfold startRun
  rw [hready]

theorem tally_startRun (g : DependencyGraph) : Tally g.startRun := by
  have hinj : Function.Injective Action.queue := fun _ _ h => Action.queue.inj h
  constructor
  · intro i
    rw [startRun, List.count_map_of_injective _ _ hinj]
    rfl
  · intro i
    rw [startRun, List.count_eq_zero.2 (by simp)]
    rfl
  · intro i
    rw [startRun, List.count_eq_zero.2 (by simp)]
    exact Nat.zero_le _

variable {r : SortRun} {id left : Nat}

/-- The run after one dependency of `id` has been placed, of which it has `left + 1`. -/
def released (r : SortRun) (id left : Nat) : SortRun :=
  ⟨r.sorter.release id, r.actions ++ .lower id left :: if left = 0 then [.queue id] else []⟩

theorem release?_eq (hlen : r.sorter.waiting.length = g.size)
    (h : r.sorter.waiting.getD id 0 = left + 1) : g.release? r id = .ok (released r id left) := by
  have hid : r.sorter.waiting[id]? = some (left + 1) := by
    rw [List.getD_eq_getElem?_getD] at h
    cases hw : r.sorter.waiting[id]? with
    | none => simp [hw] at h
    | some n => simpa [hw] using h
  have hlt : id < g.nodes.length := by
    obtain ⟨hlt, -⟩ := List.getElem?_eq_some_iff.1 hid
    exact Nat.lt_of_lt_of_eq hlt hlen
  rw [release?, lookUp_eq hid, released, Sorter.release_of_pos h]
  by_cases h0 : left = 0
  · simp [h0, lookUp_eq (List.getElem?_eq_getElem hlt), bind, Except.bind, pure, Except.pure]
  · simp [h0, bind, Except.bind, pure, Except.pure]

theorem Tally.released (ht : Tally r) (h : r.sorter.waiting.getD id 0 = left + 1) :
    Tally (released r id left) := by
  unfold DependencyGraph.released
  rw [Sorter.release_of_pos h]
  by_cases h0 : left = 0
  · constructor <;> intro i
    · have := ht.queued i
      by_cases hi : id = i <;> simp [h0, hi] <;> omega
    · simpa [h0] using ht.placed i
    · have := ht.zeroed i
      by_cases hi : id = i <;> simp [h0, hi] <;> omega
  · constructor <;> intro i
    · simpa [h0] using ht.queued i
    · simpa [h0] using ht.placed i
    · simpa [h0] using ht.zeroed i

/-- **Readers are released without breaking off**, as long as no counter is exceeded. -/
theorem foldlM_release? : ∀ (ids : List Nat) {r : SortRun}, Tally r →
    r.sorter.waiting.length = g.size → (∀ i, ids.count i ≤ r.sorter.waiting.getD i 0) →
    ∃ r', ids.foldlM g.release? r = .ok r' ∧ r'.sorter = ids.foldl Sorter.release r.sorter ∧
      Tally r'
  | [], r, ht, _, _ => ⟨r, rfl, rfl, ht⟩
  | id :: ids, r, ht, hlen, hcount => by
    have hpos : 0 < r.sorter.waiting.getD id 0 := by
      have := hcount id
      rw [List.count_cons_self] at this
      omega
    obtain ⟨left, hleft⟩ : ∃ left, r.sorter.waiting.getD id 0 = left + 1 :=
      ⟨_, (Nat.sub_add_cancel hpos).symm⟩
    have hrel := Sorter.released_release hpos
    obtain ⟨r', hr', hsorter, ht'⟩ := foldlM_release? ids (ht.released hleft)
      (hrel.length.trans hlen) fun i => by
        have := hcount i
        have := hrel.waiting i
        rw [List.count_cons] at *
        simp only [released, List.count_nil] at *
        omega
    refine ⟨r', ?_, hsorter, ht'⟩
    rw [List.foldlM_cons, release?_eq hlen hleft]
    exact hr'

theorem Tally.place (ht : Tally r) (hid : id ∈ r.sorter.ready) :
    Tally ⟨{ r.sorter with ready := r.sorter.ready.erase id, placed := r.sorter.placed ++ [id] },
      r.actions ++ [.place id]⟩ := by
  have hpos := List.count_pos_iff.2 hid
  constructor <;> intro i
  · have := ht.queued i
    by_cases hi : id = i
    · subst hi
      simp
      omega
    · simp [hi, Ne.symm hi]
      omega
  · have := ht.placed i
    by_cases hi : id = i <;> simp [hi] <;> omega
  · simpa using ht.zeroed i

variable {table : List (List Nat)}

/-- **A step of the loop is the step of the sorter.** -/
theorem placeNext_eq (htable : ∀ id < g.size, table[id]? = some (g.readers id))
    (hinv : Sorter.Inv g r.sorter) (ht : Tally r) (hid : g.least r.sorter.ready = some id) :
    ∃ r', g.placeNext table r = .ok (.inl r') ∧ r'.sorter = Sorter.step g r.sorter ∧ Tally r' := by
  have hmem := (least_spec hid).1
  have hr := (hinv.ready id).1 hmem
  obtain ⟨r', hr', hsorter, ht'⟩ := foldlM_release? (g := g) (g.readers id) (ht.place hmem)
    hinv.length (hinv.count_readers_le hr)
  refine ⟨r', ?_, ?_, ht'⟩
  · simp only [placeNext, hid, lookUp_eq (htable id hr.lt), ok_bind]
    rw [hr']
    rfl
  · rw [hsorter, Sorter.step, hid]

/-- **The loop ends where the sorter does.** The induction is on a number that is not less than that
of the views to be placed. -/
theorem iterate_placeNext (htable : ∀ id < g.size, table[id]? = some (g.readers id)) :
    ∀ (n : Nat) {r : SortRun}, Sorter.Inv g r.sorter → Tally r →
    g.size ≤ r.sorter.placed.length + n →
    ∃ r', iterate (g.placeNext table) (n + 1) r = some (.ok r') ∧
      r'.sorter = Nat.repeat (Sorter.step g) n r.sorter ∧ Tally r'
  | n, r, hinv, ht, hn => by
    cases hid : g.least r.sorter.ready with
    | none =>
      have hdone : g.placeNext table r = .ok (.inr r) := by rw [placeNext, hid]
      have hfixed := Sorter.step_of_ready_nil (g := g) (least_eq_none hid)
      exact ⟨r, iterate_of_done n hdone, (repeat_of_fixed hfixed n).symm, ht⟩
    | some id =>
      have hlt := hinv.length_placed_lt ((hinv.ready id).1 (least_spec hid).1)
      obtain ⟨n, rfl⟩ : ∃ m, n = m + 1 := ⟨n - 1, by omega⟩
      obtain ⟨r₁, hr₁, hsorter, ht₁⟩ := placeNext_eq htable hinv ht hid
      obtain ⟨hplaced, hinv₁⟩ := hinv.step hid
      rw [← hsorter] at hplaced hinv₁
      obtain ⟨r', hr', hsorter', ht'⟩ := iterate_placeNext htable n hinv₁ ht₁ (by
        rw [hplaced, List.length_append, List.length_singleton]
        omega)
      refine ⟨r', (iterate_of_next _ hr₁).trans hr', ?_, ht'⟩
      rw [hsorter', hsorter, repeat_succ]

/-! ## The cycle -/

variable {stuck : List Bool}

theorem flagged_eq {p : Nat → Bool} : ∀ (is : List Nat), (∀ i ∈ is, stuck[i]? = some (p i)) →
    flagged stuck is = .ok (is.filter p)
  | [], _ => rfl
  | i :: is, h => by
    rw [flagged, lookUp_eq (h i (.head _)), flagged_eq is fun j hj => h j (.tail _ hj),
      List.filter_cons]
    rfl

theorem findM?_eq {p : Nat → Bool} : ∀ (ds : List Nat), (∀ d ∈ ds, stuck[d]? = some (p d)) →
    ds.findM? (lookUp .stuck stuck) = .ok (ds.find? p)
  | [], _ => rfl
  | d :: ds, h => by
    rw [List.findM?, lookUp_eq (h d (.head _)), List.find?_cons]
    cases hd : p d with
    | true => rfl
    | false => exact findM?_eq ds fun d' hd' => h d' (.tail _ hd')

theorem nameOf?_eq {i : Nat} (h : i < g.size) : g.nameOf? i = .ok (g.name i) := by
  rw [nameOf?, lookUp_eq (List.getElem?_eq_getElem h), name, List.getElem?_eq_getElem h]
  rfl

theorem mapM_nameOf? : ∀ (ids : List Nat), (∀ i ∈ ids, i < g.size) →
    ids.mapM g.nameOf? = .ok (ids.map g.name)
  | [], _ => rfl
  | i :: ids, h => by
    rw [List.mapM_cons, nameOf?_eq (h i (.head _)), mapM_nameOf? ids fun j hj => h j (.tail _ hj)]
    rfl

theorem drop_of_findIdx? : ∀ {path : List Nat} {i first : Nat},
    path.findIdx? (· == i) = some first →
    first ≤ path.length ∧ path.drop first = path.dropWhile (· != i)
  | [], _, _, h => by cases h
  | j :: path, i, first, h => by
    rw [List.findIdx?_cons] at h
    by_cases hj : j = i
    · subst hj
      obtain rfl : 0 = first := by simpa using h
      simp
    · obtain ⟨first', hfirst', rfl⟩ : ∃ k, path.findIdx? (· == i) = some k ∧ k + 1 = first := by
        simpa [hj] using h
      obtain ⟨hle, hdrop⟩ := drop_of_findIdx? hfirst'
      exact ⟨Nat.succ_le_succ hle, by simpa [hj] using hdrop⟩

theorem Trail.lt_size {path : List Nat} {i : Nat} (h : Trail g path id) (hi : i ∈ path ++ [id]) :
    i < g.size :=
  lt_size_of_isStuck (h.stuck i hi)

/-- **The walk ends with the cycle that is reported.** The induction follows the walk; the positions
that it remembers are those at which views stand in its path, which is never longer than there are
views. -/
theorem walk_returns (hclosed : ∀ i, ∀ d ∈ g.dependencies i, d < g.size)
    (hstuck : ∀ i < g.size, stuck[i]? = some ((Sorter.finish g).isStuck i))
    {path cycle : List Nat} (hreturns : Returns g.nextStuck path id cycle)
    (htrail : Trail g path id) {visits : List (Nat × Nat)}
    (hvisits : ∀ i, visits.lookup i = path.findIdx? (· == i)) {limit : Nat}
    (hlimit : g.size < path.length + limit) :
    iterate (g.walkOn stuck) limit ⟨path, visits, id⟩ = some (.ok (cycle.map g.name)) := by
  induction hreturns generalizing visits limit with
  | @met path id hid =>
    have hlength := htrail.length_le
    obtain ⟨limit, rfl⟩ : ∃ n, limit = n + 1 := ⟨limit - 1, by omega⟩
    obtain ⟨first, hfirst⟩ : ∃ first, path.findIdx? (· == id) = some first :=
      Option.isSome_iff_exists.1 (by simpa using hid)
    obtain ⟨hle, hdrop⟩ := drop_of_findIdx? hfirst
    have hlt : ∀ i ∈ path.drop first ++ [id], i < g.size := fun i hi => by
      refine htrail.lt_size ?_
      rcases List.mem_append.1 hi with hi | hi
      · exact List.mem_append_left _ (List.mem_of_mem_drop hi)
      · exact List.mem_append_right _ hi
    apply iterate_of_done limit
    simp only [walkOn, hvisits, hfirst, if_pos hle]
    rw [mapM_nameOf? _ hlt, hdrop]
    rfl
  | @step path cycle id id' hid hnext _ ih =>
    have hlength := htrail.length_le
    obtain ⟨limit, rfl⟩ : ∃ n, limit = n + 1 := ⟨limit - 1, by omega⟩
    have hlt : id < g.nodes.length := htrail.lt_size (by simp)
    have hdeps : g.nodes[id].dependencies = g.dependencies id := by
      rw [dependencies, List.getElem?_eq_getElem hlt]
      rfl
    have hnone : path.findIdx? (· == id) = none := by
      rw [List.findIdx?_eq_none_iff]
      intro i hi
      rw [beq_eq_false_iff_ne]
      rintro rfl
      exact hid hi
    have hfind : (g.dependencies id).findM? (lookUp .stuck stuck) = .ok (some id') := by
      rw [findM?_eq _ fun d hd => hstuck d (hclosed id d hd)]
      exact congrArg Except.ok hnext
    have hstep : g.walkOn stuck ⟨path, visits, id⟩ =
        .ok (.inl ⟨path ++ [id], (id, path.length) :: visits, id'⟩) := by
      simp only [walkOn, hvisits, hnone, lookUp_eq (List.getElem?_eq_getElem hlt), ok_bind]
      rw [hdeps, hfind]
      rfl
    rw [iterate_of_next limit hstep]
    refine ih (htrail.step hid hnext) (fun i => ?_) ?_
    · rw [List.lookup_cons, hvisits, List.findIdx?_append]
      by_cases hi : i = id
      · simp [hi, hnone]
      · rw [beq_eq_false_iff_ne.2 hi]
        simp [Ne.symm hi]
    · rw [List.length_append, List.length_singleton]
      omega

/-- **A graph whose dependencies are views is sorted without breaking off**, as it is ordered. -/
theorem checkedSort_of_closed (hg : g.Proper) (hsize : g.size < UInt32.size) :
    ∃ r, g.checkedSort = some (.ok ⟨g.order, r.actions⟩) ∧ r.sorter = Sorter.finish g ∧
      Tally r := by
  obtain ⟨table, htable, hrows⟩ := readerTable_of_closed hsize (missingView?_eq_none.2 hg.closed)
  have hstart : Sorter.Inv g g.startRun.sorter := by
    rw [startRun_sorter hsize]
    exact Sorter.inv_start
  obtain ⟨r, hr, hsorter, ht⟩ := iterate_placeNext hrows g.size hstart (tally_startRun g) (by simp)
  rw [startRun_sorter hsize] at hsorter
  refine ⟨r, ?_, hsorter, ht⟩
  have hchecked : g.checkedSort = g.reportOf r := by
    rw [checkedSort, htable]
    simp only [hr, Option.bind_some]
  rw [hchecked, reportOf, order, show r.sorter = Sorter.finish g from hsorter]
  by_cases hall : (Sorter.finish g).placed.length = g.size
  · simp only [if_pos hall]
  · have hstuck : ∀ i < g.size, ((Sorter.finish g).waiting.map fun n => decide (0 < n))[i]? =
        some ((Sorter.finish g).isStuck i) := by
      intro i hi
      have hlt : i < (Sorter.finish g).waiting.length := by rwa [(Sorter.inv_finish g).length]
      simp [Sorter.isStuck, List.getElem?_eq_getElem hlt]
    obtain ⟨start, hleast, hreturns, -⟩ := findCycle_returns hg hall
    obtain ⟨hmem, hstart⟩ := List.mem_filter.1 (least_spec hleast).1
    have hcycle : g.stuckCycle ((Sorter.finish g).waiting.map fun n => decide (0 < n)) =
        some (.ok ((g.findCycle (Sorter.finish g)).map g.name)) := by
      rw [stuckCycle, flagged_eq _ fun i hi => hstuck i (List.mem_range.1 hi)]
      simp only [hleast, wordId_of_lt (List.mem_range.1 hmem) hsize]
      exact walk_returns hg.closed hstuck hreturns (trail_nil hstart) (fun _ => rfl) (by simp)
    simp only [if_neg hall, hcycle]
    rfl

theorem checkedSort_of_missing {d : Nat} (h : g.missingView? = some d) :
    g.checkedSort = some (.error (.outOfBounds .readerTable d)) := by
  rw [checkedSort, readerTable_of_missing h]

theorem Tally.le_one (ht : Tally r) (hend : r.sorter = Sorter.finish g) (i : Nat) :
    r.actions.count (.queue i) ≤ 1 ∧ r.actions.count (.place i) ≤ 1 ∧
      r.actions.count (.lower i 0) ≤ 1 := by
  have hplaced : r.sorter.placed.count i ≤ 1 := by
    rw [hend]
    exact List.nodup_iff_count_le_one.1 (Sorter.inv_finish g).placedNodup i
  have hqueued := ht.queued i
  have hready : r.sorter.ready = [] := hend ▸ Sorter.finish_ready g
  rw [hready, List.count_nil] at hqueued
  have := ht.placed i
  have := ht.zeroed i
  omega

/-- **Sorting breaks off exactly if a dependency is no view**, at the first such dependency and
while the table of readers is filled. Else it ends as `sort` does, with no view queued twice. -/
theorem sort_panics_iff (hg : build? edits = some g) (hsize : g.size < UInt32.size) :
    ((∃ p, g.checkedSort = some (.error p)) ↔ ∃ i d, Records edits i d ∧ g.size ≤ d) ∧
    (∀ p, g.checkedSort = some (.error p) → ∃ d, g.size ≤ d ∧
      p = .outOfBounds .readerTable d ∧ g.sort = .error (.missingView d)) ∧
    ((∀ i d, Records edits i d → d < g.size) → ∃ report, g.checkedSort = some (.ok report) ∧
      g.sort = report.result.mapError .cycle ∧
      ∀ i, report.actions.count (.queue i) ≤ 1 ∧ report.actions.count (.place i) ≤ 1 ∧
        report.actions.count (.lower i 0) ≤ 1) := by
  cases hmissing : g.missingView? with
  | some d =>
    have hchecked := checkedSort_of_missing hmissing
    have hd : g.size ≤ d := by simpa using List.find?_some hmissing
    obtain ⟨i, hi⟩ := mem_flatMap_dependencies.1 (List.mem_of_find?_eq_some hmissing)
    have hrec : Records edits i d := (mem_dependencies_build hg).1 hi
    refine ⟨⟨fun _ => ⟨i, d, hrec, hd⟩, fun _ => ⟨_, hchecked⟩⟩, fun p hp => ?_, fun hviews => ?_⟩
    · obtain rfl := Except.error.inj (Option.some.inj (hp.symm.trans hchecked))
      exact ⟨d, hd, rfl, by rw [sort, hmissing]⟩
    · have := hviews i d hrec
      omega
  | none =>
    have hviews : ∀ i d, Records edits i d → d < g.size := fun i d => records_lt hg hmissing
    obtain ⟨r, hchecked, hend, ht⟩ := checkedSort_of_closed (proper_build hg hviews) hsize
    have hnever (p : Panic) : g.checkedSort ≠ some (.error p) := by simp [hchecked]
    refine ⟨⟨?_, ?_⟩, fun p hp => absurd hp (hnever p),
      fun _ => ⟨_, hchecked, ?_, ht.le_one hend⟩⟩
    · rintro ⟨p, hp⟩
      exact absurd hp (hnever p)
    · rintro ⟨i, d, hrec, hd⟩
      have := hviews i d hrec
      omega
    · rw [sort, hmissing]

/-- A dependency on a view that is added only later. -/
def earlyEdits : List Edit := [.addView "total", .addDependency 0 1, .addDependency 0 1]

/-- Before the second view is added sorting breaks off, and afterwards it does not. -/
theorem sort_panics_iff_early :
    build? earlyEdits = some ⟨[⟨"TOTAL", [1]⟩]⟩ ∧
      build? (earlyEdits ++ [.addView "loads"]) = some ⟨[⟨"TOTAL", [1]⟩, ⟨"LOADS", []⟩]⟩ ∧
      (∃ p, (⟨[⟨"TOTAL", [1]⟩]⟩ : DependencyGraph).checkedSort = some (.error p)) ∧
      ∃ actions, (⟨[⟨"TOTAL", [1]⟩, ⟨"LOADS", []⟩]⟩ : DependencyGraph).checkedSort =
        some (.ok ⟨.ok [1, 0], actions⟩) := by
  have hg : build? earlyEdits = some ⟨[⟨"TOTAL", [1]⟩]⟩ := by decide
  have hg' : build? (earlyEdits ++ [.addView "loads"]) =
      some ⟨[⟨"TOTAL", [1]⟩, ⟨"LOADS", []⟩]⟩ := by decide
  obtain ⟨hpanics, -, -⟩ := sort_panics_iff hg (by decide)
  obtain ⟨-, -, hends⟩ := sort_panics_iff hg' (by decide)
  obtain ⟨report, hchecked, hsort, -⟩ := hends fun _ _ => records_lt hg' (by decide)
  have hsorted : (⟨[⟨"TOTAL", [1]⟩, ⟨"LOADS", []⟩]⟩ : DependencyGraph).sort = .ok [1, 0] := by
    decide
  refine ⟨hg, hg', hpanics.2 ⟨0, 1, .tail _ (.head _), by decide⟩, report.actions, ?_⟩
  rw [hchecked]
  obtain ⟨result, actions⟩ := report
  rw [hsorted] at hsort
  cases result with
  | error names => cases hsort
  | ok ids =>
    obtain rfl : [1, 0] = ids := Except.ok.inj hsort
    rfl

end DependencyGraph

end ViewTyping
