import ViewTyping.Proofs.GraphEdits

/-!
# Views and the index of their names

A view is found by its name: in the list of views, or in an index that is kept beside the list and
gives the id of each view, a word of 32 bits, under its normalized name (`IndexedGraph`). The list
is searched; the index is only ever extended.

* `findIdx?_eq_some_iff`: views of different names are found exactly at their positions.
* `resolve_after`: a view that has been added is found under the same id ever after.
* `indexes_build`: the index agrees with the search, whatever edits have been made.
* `views_indexed`: the list of views and the index of their names are inverse to each other.
-/

set_option autoImplicit false

namespace ViewTyping

/-! ## Spellings of a name -/

/-- The names are spelled alike, apart from the case of ASCII letters. -/
def Name.CaseVariant (name name' : String) : Prop :=
  name.toList.map Char.toLower = name'.toList.map Char.toLower

instance (name name' : String) : Decidable (Name.CaseVariant name name') :=
  inferInstanceAs (Decidable (_ = _))

theorem toUpper_toLower (c : Char) : c.toLower.toUpper = c.toUpper := by
  unfold Char.toLower
  split
  · -- a capital letter is taken to its small one and back again
    rename_i h
    have h1 := UInt32.le_iff_toNat_le.1 h.1
    have h2 := UInt32.le_iff_toNat_le.1 h.2
    have hupper : c.toUpper = c := by
      refine dif_neg fun h' => ?_
      have h3 := UInt32.le_iff_toNat_le.1 h'.1
      simp at h2 h3
      omega
    rw [hupper]
    unfold Char.toUpper
    rw [dif_pos]
    · apply Char.ext
      show c.val + 32 + (65 - 97) = c.val
      rw [UInt32.add_assoc]
      exact UInt32.add_zero _
    · simp at h1 h2
      constructor <;> rw [UInt32.le_iff_toNat_le] <;> simp [UInt32.toNat_add] <;> omega
  · rfl

theorem Name.CaseVariant.normalize_eq {name name' : String} (h : CaseVariant name name') :
    normalize name = normalize name' := by
  have hupper (s : String) : s.toList.map Char.toUpper =
      (s.toList.map Char.toLower).map Char.toUpper := by
    rw [List.map_map]
    exact List.map_congr_left fun c _ => (toUpper_toLower c).symm
  unfold normalize
  rw [hupper, h, ← hupper]

namespace DependencyGraph

variable {g g' : DependencyGraph} {edits : List Edit}

/-! ## The list of views -/

/-- **Views of different names are found exactly at their positions.** -/
theorem findIdx?_eq_some_iff (h : g.nodeNames.Nodup) {key : String} {id : Nat} :
    g.nodeNames.findIdx? (· == key) = some id ↔ id < g.size ∧ g.name id = key := by
  rw [List.findIdx?_eq_some_iff_getElem, size_eq_length_nodeNames, name_eq]
  constructor
  · rintro ⟨hlt, hkey, -⟩
    rw [List.getElem?_eq_getElem hlt]
    exact ⟨hlt, by simpa using hkey⟩
  · rintro ⟨hlt, hkey⟩
    rw [List.getElem?_eq_getElem hlt, Option.getD_some] at hkey
    refine ⟨hlt, by simpa using hkey, fun j hj hj' => ?_⟩
    have hsame : g.nodeNames[j] = g.nodeNames[id] := by rw [hkey]; simpa using hj'
    have := h.getElem_inj_iff.1 hsame
    omega

theorem resolve_eq_some_iff (h : g.nodeNames.Nodup) {name : String} {id : Nat} :
    g.resolve name = some id ↔ id < g.size ∧ g.name id = Name.normalize name := by
  rw [resolve_eq, findIdx?_eq_some_iff h]

theorem normalize_nodeNames_build (h : build? edits = some g) :
    ∀ n ∈ g.nodeNames, Name.normalize n = n := by
  refine edits_induct (P := fun g => ∀ n ∈ g.nodeNames, Name.normalize n = n)
    (fun g e g' hg he => ?_) edits (fun n hn => by cases hn) h
  cases e with
  | addView name =>
    cases he
    rw [nodeNames_addView]
    intro n hn
    rcases mem_insertName.1 hn with hn | rfl
    · exact hg n hn
    · exact normalize_normalize name
  | addDependency reader id => rwa [(g.addDependency?_spec he).1]

/-- Edits leave the views that are there at their positions. -/
theorem nodeNames_prefix_edit {e : Edit} (h : g.edit? e = some g') :
    g.nodeNames <+: g'.nodeNames := by
  cases e with
  | addView name =>
    cases h
    rw [nodeNames_addView, insertName]
    split
    · exact List.prefix_rfl
    · exact List.prefix_append _ _
  | addDependency reader id => rw [(g.addDependency?_spec h).1]

theorem nodeNames_prefix_edits (h : edits.foldlM edit? g = some g') :
    g.nodeNames <+: g'.nodeNames :=
  edits_induct (P := fun g' => g.nodeNames <+: g'.nodeNames)
    (fun _ _ _ hg he => hg.trans (nodeNames_prefix_edit he)) edits List.prefix_rfl h

/-- The view that has been added is at the position that was answered. -/
theorem getElem?_addView (g : DependencyGraph) (name : String) :
    (g.addView name).2.nodeNames[(g.addView name).1]? = some (Name.normalize name) := by
  unfold addView
  cases h : g.resolve name with
  | none => simp [nodeNames, size]
  | some id =>
    obtain ⟨hlt, hname⟩ := name_of_resolve h
    rw [size_eq_length_nodeNames] at hlt
    rw [name_eq, List.getElem?_eq_getElem hlt] at hname
    rw [List.getElem?_eq_getElem hlt]
    exact congrArg some hname

theorem build?_append {later : List Edit} (hg : build? edits = some g) :
    build? (edits ++ later) = later.foldlM edit? g := by
  unfold build? at hg ⊢
  rw [List.foldlM_append, hg]
  rfl

/-- **A view that has been added is found under the same id ever after.** -/
theorem resolve_after (hg : build? edits = some g) {name name' : String} {later : List Edit}
    (hname : Name.normalize name = Name.normalize name')
    (h : build? (edits ++ .addView name :: later) = some g') :
    g'.resolve name' = some (g.addView name).1 := by
  have hnd := nodup_nodeNames_build h
  rw [build?_append hg, List.foldlM_cons] at h
  obtain ⟨rest, hrest⟩ := nodeNames_prefix_edits h
  have hat : g'.nodeNames[(g.addView name).1]? = some (Name.normalize name') := by
    have hadded := getElem?_addView g name
    obtain ⟨hlt, -⟩ := List.getElem?_eq_some_iff.1 hadded
    rw [← hrest, List.getElem?_append_left hlt, hadded, hname]
  obtain ⟨hlt, -⟩ := List.getElem?_eq_some_iff.1 hat
  rw [resolve_eq_some_iff hnd, size_eq_length_nodeNames, name_eq, hat]
  exact ⟨hlt, rfl⟩

end DependencyGraph

/-! ## The index -/

/-- A graph with an index of its views: their ids, words of 32 bits, by normalized name. -/
structure IndexedGraph where
  graph : DependencyGraph := {}
  index : Std.HashMap String UInt32 := ∅

namespace IndexedGraph

open DependencyGraph (Edit)

/-- The id of the view of that name, from the index. -/
def resolve (x : IndexedGraph) (name : String) : Option UInt32 := x.index[Name.normalize name]?

/-- The id of the view of that name, and the graph with that view in it. A new view has its position
as its id, cut to a word. -/
def addView (x : IndexedGraph) (name : String) : UInt32 × IndexedGraph :=
  match x.resolve name with
  | some id => (id, x)
  | none =>
    (UInt32.ofNat x.graph.size,
      { graph := ⟨x.graph.nodes ++ [⟨Name.normalize name, []⟩]⟩
        index := x.index.insert (Name.normalize name) (UInt32.ofNat x.graph.size) })

def edit? (x : IndexedGraph) : Edit → Option IndexedGraph
  | .addView name => some (x.addView name).2
  | .addDependency reader id =>
    (x.graph.addDependency? reader id).map fun g => { x with graph := g }

/-- The graph that edits make of the empty one, with its index, if none is refused. -/
def build? (edits : List Edit) : Option IndexedGraph := edits.foldlM edit? {}

/-- The index gives the position at which a name is found first, cut to a word. -/
def Indexes (x : IndexedGraph) : Prop :=
  ∀ key, x.index[key]? = (x.graph.nodeNames.findIdx? (· == key)).map UInt32.ofNat

variable {x x' : IndexedGraph} {g : DependencyGraph} {edits : List Edit}

theorem Indexes.resolve (h : x.Indexes) (name : String) :
    x.resolve name = (x.graph.resolve name).map UInt32.ofNat := by
  rw [DependencyGraph.resolve_eq]
  exact h _

/-- The graph takes in a view as it does without an index. -/
theorem Indexes.addView (h : x.Indexes) (name : String) :
    (x.addView name).1 = UInt32.ofNat (x.graph.addView name).1 ∧
      (x.addView name).2.graph = (x.graph.addView name).2 := by
  unfold IndexedGraph.addView DependencyGraph.addView
  rw [h.resolve]
  cases x.graph.resolve name <;> exact ⟨rfl, rfl⟩

theorem Indexes.indexes_addView (h : x.Indexes) (name : String) :
    (x.addView name).2.Indexes := by
  cases hr : x.resolve name with
  | some id =>
    unfold IndexedGraph.addView
    rw [hr]
    exact h
  | none =>
    intro key
    have hnew : (x.graph.nodeNames.findIdx? (· == Name.normalize name)) = none := by
      rw [← DependencyGraph.resolve_eq]
      rw [h.resolve] at hr
      exact Option.map_eq_none_iff.1 hr
    have hnames : (x.addView name).2.graph.nodeNames =
        x.graph.nodeNames ++ [Name.normalize name] := by
      simp [IndexedGraph.addView, hr, DependencyGraph.nodeNames]
    have hindex : (x.addView name).2.index =
        x.index.insert (Name.normalize name) (UInt32.ofNat x.graph.size) := by
      simp [IndexedGraph.addView, hr]
    rw [hnames, hindex, Std.HashMap.getElem?_insert, List.findIdx?_append]
    by_cases hkey : Name.normalize name = key
    · subst hkey
      simp [hnew, DependencyGraph.size_eq_length_nodeNames]
    · simp [hkey, h key]

/-- **An edit of the indexed graph is the edit of the graph**, and keeps the index. -/
theorem Indexes.edit (h : x.Indexes) {e : Edit} (he : x.graph.edit? e = some g) :
    ∃ x', x.edit? e = some x' ∧ x'.graph = g ∧ x'.Indexes := by
  cases e with
  | addView name =>
    cases he
    exact ⟨_, rfl, (h.addView name).2, h.indexes_addView name⟩
  | addDependency reader id =>
    refine ⟨{ x with graph := g }, ?_, rfl, fun key => ?_⟩
    · show (x.graph.addDependency? reader id).map _ = _
      rw [show x.graph.addDependency? reader id = some g from he]
      rfl
    · show x.index[key]? = _
      rw [h key, (x.graph.addDependency?_spec he).1]

theorem Indexes.foldlM : ∀ (edits : List Edit) {x : IndexedGraph} {g : DependencyGraph},
    x.Indexes → edits.foldlM DependencyGraph.edit? x.graph = some g →
    ∃ x', edits.foldlM edit? x = some x' ∧ x'.graph = g ∧ x'.Indexes
  | [], x, _, hx, h => by
    cases h
    exact ⟨x, rfl, rfl, hx⟩
  | e :: edits, x, g, hx, h => by
    rw [List.foldlM_cons] at h
    obtain ⟨g₁, h₁, h⟩ := Option.bind_eq_some_iff.1 h
    obtain ⟨x₁, hx₁, rfl, hindexes⟩ := hx.edit h₁
    obtain ⟨x', hx', hgraph, hindexes'⟩ := Indexes.foldlM edits hindexes h
    refine ⟨x', ?_, hgraph, hindexes'⟩
    rw [List.foldlM_cons, hx₁]
    exact hx'

/-- **The index agrees with the search**, whatever edits have been made. -/
theorem indexes_build (h : DependencyGraph.build? edits = some g) :
    ∃ x, build? edits = some x ∧ x.graph = g ∧ x.Indexes := by
  have hempty : ({} : IndexedGraph).Indexes := by
    intro key
    simp [DependencyGraph.nodeNames]
  exact hempty.foldlM edits h

end IndexedGraph

namespace DependencyGraph

variable {g : DependencyGraph} {edits : List Edit}

theorem addView_le (g : DependencyGraph) (name : String) : (g.addView name).1 ≤ g.size := by
  unfold addView
  cases h : g.resolve name with
  | none => exact Nat.le_refl _
  | some id => exact Nat.le_of_lt (name_of_resolve h).1

theorem map_toNat_map_ofNat {id? : Option Nat} (h : ∀ id, id? = some id → id < UInt32.size) :
    (id?.map UInt32.ofNat).map UInt32.toNat = id? := by
  cases id? with
  | none => rfl
  | some id => exact congrArg some (UInt32.toNat_ofNat_of_lt' (h id rfl))

/-- **The list of views and the index of their names are inverse to each other**, and ids are found
ever after under every spelling of the name. So they are in an index of words of 32 bits. -/
theorem views_indexed (hg : build? edits = some g) (hsize : g.size < UInt32.size) :
    (∀ name id, g.resolve name = some id ↔ id < g.size ∧ g.name id = Name.normalize name) ∧
    (∀ n ∈ g.nodeNames, Name.normalize n = n) ∧ g.nodeNames.Nodup ∧
    (∀ i, (g.dependencies i).Nodup ∧
      g.dependencies i = (edits.filterMap (Edit.target? i)).eraseDups) ∧
    (∀ name later g', build? (edits ++ .addView name :: later) = some g' →
      ∀ name', Name.CaseVariant name name' → g'.resolve name' = some (g.addView name).1) ∧
    ∃ x, IndexedGraph.build? edits = some x ∧ x.graph = g ∧
      (∀ key (id : UInt32), x.index[key]? = some id ↔
        id.toNat < g.size ∧ g.name id.toNat = key) ∧
      (∀ name, (x.resolve name).map UInt32.toNat = g.resolve name) ∧
      ∀ name, (x.addView name).1.toNat = (g.addView name).1 := by
  have hnd := nodup_nodeNames_build hg
  have hdeps (i : Nat) : g.dependencies i = (edits.filterMap (Edit.target? i)).eraseDups :=
    (dependencies_build hg i).trans (foldl_eq_eraseDups (fun _ _ => rfl) _)
  obtain ⟨x, hx, rfl, hindexes⟩ := IndexedGraph.indexes_build hg
  refine ⟨fun name id => resolve_eq_some_iff hnd, normalize_nodeNames_build hg, hnd,
    fun i => ⟨hdeps i ▸ nodup_eraseDups _, hdeps i⟩,
    fun name later g' hg' name' hname' => resolve_after hg hname'.normalize_eq hg',
    x, hx, rfl, fun key id => ?_, fun name => ?_, fun name => ?_⟩
  · rw [hindexes, Option.map_eq_some_iff, ← findIdx?_eq_some_iff hnd]
    constructor
    · rintro ⟨i, hi, rfl⟩
      have hlt := ((findIdx?_eq_some_iff hnd).1 hi).1
      rwa [UInt32.toNat_ofNat_of_lt' (Nat.lt_trans hlt hsize)]
    · exact fun hi => ⟨_, hi, UInt32.ofNat_toNat⟩
  · rw [hindexes.resolve]
    exact map_toNat_map_ofNat fun id hid => Nat.lt_trans (name_of_resolve hid).1 hsize
  · rw [(hindexes.addView name).1]
    exact UInt32.toNat_ofNat_of_lt' (Nat.lt_of_le_of_lt (x.graph.addView_le name) hsize)

/-- Edits that add a fourth view and then one of the old views again, in another case. -/
def laterEdits : List Edit :=
  [.addView "größe", .addDependency 3 0, .addView "Hosts", .addDependency 0 3]

/-- Of the dependencies of the first view the one on `LOADS` is recorded twice and listed once. The
view that is added later is found by another spelling of its name, in which only the case of ASCII
letters differs, and `GRÖSSE` is another name. -/
theorem views_indexed_load :
    build? loadEdits = some loadGraph ∧ loadGraph.size < UInt32.size ∧
      loadEdits.filterMap (Edit.target? 0) = [2, 1, 1] ∧ loadGraph.dependencies 0 = [2, 1] ∧
      Name.CaseVariant "größe" "GRößE" ∧ ¬ Name.CaseVariant "größe" "GRÖSSE" ∧
      (∃ g', build? (loadEdits ++ laterEdits) = some g' ∧ g'.resolve "GRößE" = some 3) ∧
      ∃ x, IndexedGraph.build? loadEdits = some x ∧ x.index["LOADS"]? = some 1 ∧
        x.index["Loads"]? = none := by
  have hg : build? loadEdits = some loadGraph := by decide
  have hsize : loadGraph.size < UInt32.size := by decide
  obtain ⟨-, -, -, hdeps, hafter, x, hx, -, hindex, -, -⟩ := views_indexed hg hsize
  have hvariant : Name.CaseVariant "größe" "GRößE" := by decide
  obtain ⟨g', hg'⟩ : ∃ g', build? (loadEdits ++ laterEdits) = some g' := ⟨_, rfl⟩
  refine ⟨hg, hsize, rfl, (hdeps 0).2.trans (by decide), hvariant, by decide,
    ⟨g', hg', hafter _ _ g' hg' _ hvariant⟩, x, hx, (hindex _ _).2 (by decide), ?_⟩
  have hnone : ∀ i < loadGraph.size, loadGraph.name i ≠ "Loads" := by decide
  refine Option.eq_none_iff_forall_ne_some.2 fun id hid => ?_
  obtain ⟨hlt, hname⟩ := (hindex _ _).1 hid
  exact hnone _ hlt hname

end DependencyGraph

end ViewTyping
