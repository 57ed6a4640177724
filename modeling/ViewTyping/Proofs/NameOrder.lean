import ViewTyping.Proofs.Sorting

/-!
# The order of views depends on names alone

Ids are positions, so they change with the order in which views are declared. `NameGraph` keeps
of a graph only the names of its views and which names each of them reads, and
`NameGraph.Placing` describes sorting in these terms: place the least name that is ready, until
none is.

* `Placing.unique`: names determine the run.
* `placing_finish`: the sorter's run, by name, is that run, for a graph whose views have different
  names and whose dependencies are views (`DependencyGraph.Proper`).
* `order_or_cycle`: graphs with the same names and the same reads by name are ordered alike, or
  there is a cycle in both; `order_names`: the same cycle is found in them if the reads also come in
  the same order (`findCycle_names`).
-/

set_option autoImplicit false

namespace ViewTyping

/-- Views known by name: which there are, and which of them each reads. -/
structure NameGraph where
  IsView : String → Prop
  Reads : String → String → Prop

namespace NameGraph

variable {G : NameGraph}

/-- The view is not placed, and the views it reads are. -/
structure Ready (G : NameGraph) (placed : List String) (n : String) : Prop where
  view : G.IsView n
  fresh : n ∉ placed
  reads : ∀ m, G.Reads n m → m ∈ placed

/-- `G.Placing placed rest`: after the views in `placed` come those in `rest`, each of them the
least that is ready at its turn, and no view is ready after the last. -/
inductive Placing (G : NameGraph) : List String → List String → Prop
  | stop {placed : List String} : (∀ n, ¬ G.Ready placed n) → Placing G placed []
  | place {placed rest : List String} {n : String} : G.Ready placed n →
      (∀ m, G.Ready placed m → n ≤ m) → Placing G (placed ++ [n]) rest →
      Placing G placed (n :: rest)

/-- **Names determine the run.** -/
theorem Placing.unique {placed rest rest' : List String} (h : G.Placing placed rest)
    (h' : G.Placing placed rest') : rest = rest' := by
  induction h generalizing rest' with
  | stop hnone =>
    cases h' with
    | stop _ => rfl
    | place hr _ _ => exact absurd hr (hnone _)
  | place hr hmin _ ih =>
    cases h' with
    | stop hnone => exact absurd hr (hnone _)
    | place hr' hmin' h' =>
      obtain rfl := le_antisymm (hmin _ hr') (hmin' _ hr)
      rw [ih h']

end NameGraph

namespace DependencyGraph

variable {g g' : DependencyGraph}

/-- Views have different names, and what they depend on are views. -/
structure Proper (g : DependencyGraph) : Prop where
  distinct : ∀ i j, i < g.size → j < g.size → g.name i = g.name j → i = j
  closed : ∀ i, ∀ d ∈ g.dependencies i, d < g.size

def nameGraph (g : DependencyGraph) : NameGraph where
  IsView n := ∃ i < g.size, g.name i = n
  Reads n m := ∃ i < g.size, g.name i = n ∧ ∃ d ∈ g.dependencies i, g.name d = m

theorem Proper.mem_map_name (hg : g.Proper) {ids : List Nat} (hids : ∀ i ∈ ids, i < g.size)
    {i : Nat} (hi : i < g.size) : g.name i ∈ ids.map g.name ↔ i ∈ ids := by
  constructor
  · intro h
    obtain ⟨j, hj, hn⟩ := List.mem_map.1 h
    exact hg.distinct j i (hids j hj) hi hn ▸ hj
  · exact List.mem_map_of_mem

theorem Proper.ready_iff (hg : g.Proper) {placed : List Nat} (hp : ∀ i ∈ placed, i < g.size)
    {i : Nat} (hi : i < g.size) :
    g.nameGraph.Ready (placed.map g.name) (g.name i) ↔ g.Ready placed i := by
  refine ⟨fun h => ?_, fun h => ?_⟩
  · refine ⟨hi, fun hm => h.fresh (List.mem_map_of_mem hm), fun d hd => ?_⟩
    exact (hg.mem_map_name hp (hg.closed i d hd)).1 (h.reads _ ⟨i, hi, rfl, d, hd, rfl⟩)
  · refine ⟨⟨i, hi, rfl⟩, fun hm => h.fresh ((hg.mem_map_name hp hi).1 hm), ?_⟩
    rintro m ⟨j, hj, hn, d, hd, rfl⟩
    obtain rfl := hg.distinct j i hj hi hn
    exact List.mem_map_of_mem (h.reads d hd)

theorem repeat_succ {α : Type} (f : α → α) : ∀ (n : Nat) (a : α),
    Nat.repeat f (n + 1) a = Nat.repeat f n (f a)
  | 0, _ => rfl
  | n + 1, a => congrArg f (repeat_succ f n a)

theorem repeat_of_fixed {α : Type} {f : α → α} {a : α} (h : f a = a) : ∀ n : Nat,
    Nat.repeat f n a = a
  | 0 => rfl
  | n + 1 => by rw [repeat_succ, h, repeat_of_fixed h n]

/-- The induction is on the number of steps left, which is at least the number of views that are
not placed; so the run stops because no view is ready. -/
theorem Proper.placing_repeat (hg : g.Proper) : ∀ (n : Nat) (s : Sorter), s.Inv g →
    g.size ≤ s.placed.length + n →
    ∃ rest, (Nat.repeat (Sorter.step g) n s).placed = s.placed ++ rest ∧
      g.nameGraph.Placing (s.placed.map g.name) (rest.map g.name)
  | n, s, hs, hn => by
    cases hl : g.least s.ready with
    | none =>
      have hnil := least_eq_none hl
      refine ⟨[], ?_, .stop ?_⟩
      · rw [repeat_of_fixed (Sorter.step_of_ready_nil hnil), List.append_nil]
      · rintro m h
        obtain ⟨i, hi, rfl⟩ := h.view
        have := (hs.ready i).2 ((hg.ready_iff hs.placedLt hi).1 h)
        rw [hnil] at this
        cases this
    | some id =>
      obtain ⟨hmem, hmin⟩ := least_spec hl
      have hr := (hs.ready id).1 hmem
      obtain ⟨hp, hs'⟩ := hs.step hl
      have hlt := hs.length_placed_lt hr
      obtain ⟨n, rfl⟩ : ∃ m, n = m + 1 := ⟨n - 1, by omega⟩
      obtain ⟨rest, hrest, hrun⟩ := hg.placing_repeat n (Sorter.step g s) hs' (by
        rw [hp, List.length_append, List.length_singleton]
        omega)
      refine ⟨id :: rest, ?_, .place ((hg.ready_iff hs.placedLt hr.lt).2 hr) ?_ ?_⟩
      · rw [repeat_succ, hrest, hp, List.append_assoc]
        rfl
      · rintro m h
        obtain ⟨j, hj, rfl⟩ := h.view
        have := (hs.ready j).2 ((hg.ready_iff hs.placedLt hj).1 h)
        rcases hmin j this with rfl | hb
        · exact le_rfl
        · rcases before_iff.1 hb with hlt | ⟨heq, -⟩
          · exact hlt.le
          · exact heq.le
      · rwa [hp, List.map_append] at hrun

/-- **The sorter's run, by name.** -/
theorem Proper.placing_finish (hg : g.Proper) :
    g.nameGraph.Placing [] ((Sorter.finish g).placed.map g.name) := by
  obtain ⟨rest, hrest, hrun⟩ := hg.placing_repeat g.size (Sorter.start g) Sorter.inv_start
    (Nat.le_add_left _ _)
  rw [Sorter.finish, hrest]
  exact hrun

/-! ## Graphs with the same names -/

theorem Proper.nodup_names (hg : g.Proper) : ((List.range g.size).map g.name).Nodup := by
  refine List.Nodup.map_on (fun i hi j hj h => ?_) List.nodup_range
  exact hg.distinct i j (List.mem_range.1 hi) (List.mem_range.1 hj) h

/-- The least of views of the same names has the same name. -/
theorem least_names {is js : List Nat}
    (h : ∀ n, (∃ i ∈ is, g.name i = n) ↔ ∃ j ∈ js, g'.name j = n) :
    (g.least is).map g.name = (g'.least js).map g'.name := by
  have hle : ∀ {g : DependencyGraph} {is : List Nat} {i : Nat}, g.least is = some i →
      ∀ j ∈ is, g.name i ≤ g.name j := by
    intro g is i hi j hj
    rcases (least_spec hi).2 j hj with rfl | hb
    · exact le_rfl
    · rcases before_iff.1 hb with hlt | ⟨heq, -⟩
      · exact hlt.le
      · exact heq.le
  cases hi : g.least is with
  | none =>
    obtain rfl := least_eq_none hi
    cases hj : g'.least js with
    | none => rfl
    | some j =>
      obtain ⟨i, hm, -⟩ := (h (g'.name j)).2 ⟨j, (least_spec hj).1, rfl⟩
      cases hm
  | some i =>
    obtain ⟨j₀, hj₀, hn⟩ := (h (g.name i)).1 ⟨i, (least_spec hi).1, rfl⟩
    cases hj : g'.least js with
    | none =>
      obtain rfl := least_eq_none hj
      cases hj₀
    | some j =>
      obtain ⟨i₀, hi₀, hn₀⟩ := (h (g'.name j)).2 ⟨j, (least_spec hj).1, rfl⟩
      refine congrArg some (le_antisymm ?_ ?_)
      · exact hn₀ ▸ hle hi i₀ hi₀
      · exact hn ▸ hle hj j₀ hj₀

section
variable (hg : g.Proper) (hg' : g'.Proper)
include hg hg'

theorem size_eq_of_nameGraph (h : g.nameGraph = g'.nameGraph) : g.size = g'.size := by
  have hmem : ∀ n, n ∈ (List.range g.size).map g.name ↔ n ∈ (List.range g'.size).map g'.name := by
    intro n
    have : g.nameGraph.IsView n ↔ g'.nameGraph.IsView n := by rw [h]
    simpa [nameGraph] using this
  have hperm := (List.perm_ext_iff_of_nodup hg.nodup_names hg'.nodup_names).2 hmem
  simpa using hperm.length_eq

/-- **Names determine the order.** -/
theorem placed_names (h : g.nameGraph = g'.nameGraph) :
    (Sorter.finish g).placed.map g.name = (Sorter.finish g').placed.map g'.name := by
  have h1 := hg.placing_finish
  rw [h] at h1
  exact h1.unique hg'.placing_finish

/-- Views of the same name are stuck in both graphs or in neither. -/
theorem isStuck_names (h : g.nameGraph = g'.nameGraph) {i j : Nat} (hi : i < g.size)
    (hj : j < g'.size) (hij : g.name i = g'.name j) :
    (Sorter.finish g).isStuck i = (Sorter.finish g').isStuck j := by
  rw [Bool.eq_iff_iff, Sorter.isStuck_iff hi, Sorter.isStuck_iff hj, not_iff_not,
    ← hg.mem_map_name (Sorter.inv_finish g).placedLt hi,
    ← hg'.mem_map_name (Sorter.inv_finish g').placedLt hj, placed_names hg hg' h, hij]

end

theorem Proper.map_dropWhile (hg : g.Proper) {i : Nat} (hi : i < g.size) : ∀ {path : List Nat},
    (∀ j ∈ path, j < g.size) →
    (path.dropWhile (· != i)).map g.name = (path.map g.name).dropWhile (· != g.name i)
  | [], _ => rfl
  | j :: path, h => by
    rw [List.dropWhile_cons, List.map_cons, List.dropWhile_cons]
    by_cases hji : j = i
    · subst hji; simp
    · have hn : g.name j ≠ g.name i := fun hn => hji (hg.distinct j i (h j (.head _)) hi hn)
      simp only [bne_iff_ne, ne_eq, hji, hn, not_false_eq_true, if_true]
      exact hg.map_dropWhile hi fun k hk => h k (.tail _ hk)

theorem find?_names {f f' : Nat → String} {q q' : Nat → Bool} : ∀ (ds ds' : List Nat),
    ds.map f = ds'.map f' → (∀ d ∈ ds, ∀ d' ∈ ds', f d = f' d' → q d = q' d') →
    (ds.find? q).map f = (ds'.find? q').map f'
  | [], [], _, _ => rfl
  | [], _ :: _, h, _ => by cases h
  | _ :: _, [], h, _ => by cases h
  | d :: ds, d' :: ds', h, hq => by
    obtain ⟨hd, hds⟩ := List.cons.inj h
    have hqd := hq d (.head _) d' (.head _) hd
    rw [List.find?_cons, List.find?_cons, hqd]
    split
    · exact congrArg some hd
    · exact find?_names ds ds' hds fun e he e' he' => hq e (.tail _ he) e' (.tail _ he')

section
variable (hg : g.Proper) (hg' : g'.Proper)
include hg hg'

/-- Walks by steps that agree by name agree by name. -/
theorem walk_names {next next' : Nat → Option Nat} (hlt : ∀ i d, next i = some d → d < g.size)
    (hlt' : ∀ i d, next' i = some d → d < g'.size)
    (hnext : ∀ i j, i < g.size → j < g'.size → g.name i = g'.name j →
      (next i).map g.name = (next' j).map g'.name) :
    ∀ (steps : Nat) {path path' : List Nat} {i j : Nat}, (∀ k ∈ path, k < g.size) →
      (∀ k ∈ path', k < g'.size) → i < g.size → j < g'.size →
      path.map g.name = path'.map g'.name → g.name i = g'.name j →
      (walk next steps path i).map g.name = (walk next' steps path' j).map g'.name
  | 0, path, path', i, j, _, _, _, _, hpath, _ => hpath
  | steps + 1, path, path', i, j, hp, hp', hi, hj, hpath, hij => by
    have hmem : i ∈ path ↔ j ∈ path' := by
      rw [← hg.mem_map_name hp hi, ← hg'.mem_map_name hp' hj, hpath, hij]
    have hpath1 : (path ++ [i]).map g.name = (path' ++ [j]).map g'.name := by
      simp [hpath, hij]
    unfold walk
    by_cases him : i ∈ path
    · rw [if_pos him, if_pos (hmem.1 him), List.map_append, List.map_append,
        hg.map_dropWhile hi hp, hg'.map_dropWhile hj hp', hpath, hij]
      simp [hij]
    · rw [if_neg him, if_neg fun h => him (hmem.2 h)]
      have hn := hnext i j hi hj hij
      cases hni : next i with
      | none =>
        rw [hni] at hn
        cases hnj : next' j with
        | none => exact hpath1
        | some d' => rw [hnj] at hn; cases hn
      | some d =>
        rw [hni] at hn
        cases hnj : next' j with
        | none => rw [hnj] at hn; cases hn
        | some d' =>
          rw [hnj] at hn
          refine walk_names hlt hlt' hnext steps ?_ ?_ (hlt i d hni) (hlt' j d' hnj) hpath1
            (Option.some.inj hn)
          · intro k hk
            rcases List.mem_append.1 hk with hk | hk
            · exact hp k hk
            · exact List.mem_singleton.1 hk ▸ hi
          · intro k hk
            rcases List.mem_append.1 hk with hk | hk
            · exact hp' k hk
            · exact List.mem_singleton.1 hk ▸ hj

/-- **The same cycle is found**, if views of the same name list the same names in the same
order. -/
theorem findCycle_names (h : g.nameGraph = g'.nameGraph)
    (hdeps : ∀ i j, i < g.size → j < g'.size → g.name i = g'.name j →
      (g.dependencies i).map g.name = (g'.dependencies j).map g'.name) :
    (g.findCycle (Sorter.finish g)).map g.name =
      (g'.findCycle (Sorter.finish g')).map g'.name := by
  have hsize := size_eq_of_nameGraph hg hg' h
  have hleast : (g.least ((List.range g.size).filter (Sorter.finish g).isStuck)).map g.name =
      (g'.least ((List.range g'.size).filter (Sorter.finish g').isStuck)).map g'.name := by
    refine least_names fun n => ?_
    have hv : g.nameGraph.IsView n ↔ g'.nameGraph.IsView n := by rw [h]
    simp only [List.mem_filter, List.mem_range]
    refine ⟨fun h => ?_, fun h => ?_⟩
    · obtain ⟨i, ⟨hi, hs⟩, hn⟩ := h
      obtain ⟨j, hj, hn'⟩ := hv.1 ⟨i, hi, hn⟩
      exact ⟨j, ⟨hj, isStuck_names hg hg' h hi hj (hn.trans hn'.symm) ▸ hs⟩, hn'⟩
    · obtain ⟨j, ⟨hj, hs⟩, hn⟩ := h
      obtain ⟨i, hi, hn'⟩ := hv.2 ⟨j, hj, hn⟩
      exact ⟨i, ⟨hi, (isStuck_names hg hg' h hi hj (hn'.trans hn.symm)).symm ▸ hs⟩, hn'⟩
  have hfind : ∀ i j, i < g.size → j < g'.size → g.name i = g'.name j →
      ((g.dependencies i).find? (Sorter.finish g).isStuck).map g.name =
        ((g'.dependencies j).find? (Sorter.finish g').isStuck).map g'.name := by
    intro i j hi hj hij
    refine find?_names _ _ (hdeps i j hi hj hij) fun d hd d' hd' hn => ?_
    exact isStuck_names hg hg' h (hg.closed i d hd) (hg'.closed j d' hd') hn
  unfold findCycle
  cases hi : g.least ((List.range g.size).filter (Sorter.finish g).isStuck) with
  | none =>
    cases hj : g'.least ((List.range g'.size).filter (Sorter.finish g').isStuck) with
    | none => rfl
    | some j => rw [hi, hj] at hleast; cases hleast
  | some i =>
    cases hj : g'.least ((List.range g'.size).filter (Sorter.finish g').isStuck) with
    | none => rw [hi, hj] at hleast; cases hleast
    | some j =>
      rw [hi, hj] at hleast
      have hi' := List.mem_range.1 (List.mem_filter.1 (least_spec hi).1).1
      have hj' := List.mem_range.1 (List.mem_filter.1 (least_spec hj).1).1
      simp only [hsize]
      exact walk_names hg hg' (fun i d hd => hg.closed i d (List.mem_of_find?_eq_some hd))
        (fun i d hd => hg'.closed i d (List.mem_of_find?_eq_some hd)) hfind _ (by simp) (by simp)
        hi' hj' rfl (Option.some.inj hleast)

/-- Both graphs are ordered, by name alike, or there is a cycle in both. -/
theorem order_or_cycle (h : g.nameGraph = g'.nameGraph) :
    (∃ ids ids', g.order = .ok ids ∧ g'.order = .ok ids' ∧ ids.map g.name = ids'.map g'.name) ∨
      ∃ path path', g.order = .error path ∧ g'.order = .error path' := by
  have hplaced := placed_names hg hg' h
  have hall : (Sorter.finish g).placed.length = g.size ↔
      (Sorter.finish g').placed.length = g'.size := by
    have hlen : (Sorter.finish g).placed.length = (Sorter.finish g').placed.length := by
      simpa using congrArg List.length hplaced
    rw [hlen, size_eq_of_nameGraph hg hg' h]
  by_cases hfull : (Sorter.finish g).placed.length = g.size
  · exact .inl ⟨_, _, if_pos hfull, if_pos (hall.1 hfull), hplaced⟩
  · exact .inr ⟨_, _, if_neg hfull, if_neg fun hfull' => hfull (hall.2 hfull')⟩

/-- **The outcome of ordering, by name, depends on names alone.** -/
theorem order_names (h : g.nameGraph = g'.nameGraph)
    (hdeps : ∀ i j, i < g.size → j < g'.size → g.name i = g'.name j →
      (g.dependencies i).map g.name = (g'.dependencies j).map g'.name) :
    g.order.map (·.map g.name) = g'.order.map (·.map g'.name) := by
  have hplaced := placed_names hg hg' h
  have hlen : (Sorter.finish g).placed.length = (Sorter.finish g').placed.length := by
    simpa using congrArg List.length hplaced
  unfold order
  simp only [hlen, size_eq_of_nameGraph hg hg' h]
  split
  · exact congrArg Except.ok hplaced
  · exact congrArg Except.error (findCycle_names hg hg' h hdeps)

end

end DependencyGraph

end ViewTyping
