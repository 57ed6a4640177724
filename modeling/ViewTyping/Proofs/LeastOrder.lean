import ViewTyping.Proofs.ByteOrder
import ViewTyping.Proofs.GraphEdits

/-!
# The least order of views

There are in general many orders in which each view comes after its dependencies
(`DependencyGraph.Respects`). Sorting finds the one whose names come first in the lexicographic
order, where names are compared by their UTF-8 bytes (`sort_least`).

By name, an order places a view that is ready at each turn (`NameGraph.Listing`), and sorting the
least of them (`NameGraph.Placing`). Up to the first turn at which they differ the same views are
ready for both, so there the order has the greater name (`Placing.least`).
-/

set_option autoImplicit false

namespace ViewTyping

namespace NameGraph

variable {G : NameGraph}

/-- `G.Listing placed rest`: after the views in `placed` come those in `rest`, each of them ready at
its turn, and no view is left out. -/
inductive Listing (G : NameGraph) : List String → List String → Prop
  | stop {placed : List String} : (∀ n, G.IsView n → n ∈ placed) → Listing G placed []
  | place {placed rest : List String} {n : String} : G.Ready placed n →
      Listing G (placed ++ [n]) rest → Listing G placed (n :: rest)

/-- **The run is the least of all lists.** -/
theorem Placing.least {placed rest rest' : List String} (h : G.Placing placed rest)
    (h' : G.Listing placed rest') : rest = rest' ∨ rest < rest' := by
  induction h generalizing rest' with
  | stop hnone =>
    cases h' with
    | stop _ => exact .inl rfl
    | place hr _ => exact absurd hr (hnone _)
  | place hr hmin _ ih =>
    cases h' with
    | stop hall => exact absurd (hall _ hr.view) hr.fresh
    | place hr' h' =>
      -- so far both have placed the same views, so what the list places next was ready for the run
      rcases (hmin _ hr').lt_or_eq with hlt | rfl
      · exact .inr (.rel hlt)
      · rcases ih h' with rfl | hlt
        · exact .inl rfl
        · exact .inr (.cons hlt)

end NameGraph

namespace DependencyGraph

variable {g : DependencyGraph} {edits : List Edit}

/-- `ids` lists all views, each after what has been recorded that it depends on. -/
structure Respects (edits : List Edit) (g : DependencyGraph) (ids : List Nat) : Prop where
  perm : ids.Perm (List.range g.size)
  ordered : ∀ i j, Records edits i j → ids.idxOf j < ids.idxOf i

/-- The name of a view, as bytes. -/
def nameBytes (g : DependencyGraph) (id : Nat) : List UInt8 := Name.bytes (g.name id)

theorem mem_of_idxOf_lt {placed rest : List Nat} {i j : Nat} (hi : i ∉ placed)
    (h : (placed ++ i :: rest).idxOf j < (placed ++ i :: rest).idxOf i) : j ∈ placed := by
  by_contra hj
  rw [List.idxOf_append_of_notMem hi, List.idxOf_append_of_notMem hj, List.idxOf_cons_self] at h
  omega

/-- An order lists, by name, views that are ready. The induction is on what is left of it. -/
theorem Respects.listing {ids : List Nat} (h : Respects edits g ids) (hg : g.Proper)
    (hbuild : build? edits = some g) : ∀ (rest placed : List Nat), ids = placed ++ rest →
    g.nameGraph.Listing (placed.map g.name) (rest.map g.name)
  | [], placed, hcut => by
    apply NameGraph.Listing.stop
    intro n hn
    obtain ⟨i, hi, rfl⟩ := hn
    have hmem : i ∈ ids := h.perm.mem_iff.2 (List.mem_range.2 hi)
    rw [hcut, List.append_nil] at hmem
    exact List.mem_map_of_mem hmem
  | i :: rest, placed, hcut => by
    have hlt : ∀ k ∈ placed ++ i :: rest, k < g.size := by
      intro k hk
      exact List.mem_range.1 (h.perm.mem_iff.1 (hcut ▸ hk))
    have hnodup : (placed ++ i :: rest).Nodup := hcut ▸ h.perm.nodup_iff.2 List.nodup_range
    have hfresh : i ∉ placed := fun hm => (List.nodup_append.1 hnodup).2.2 i hm i (.head _) rfl
    have hready : g.Ready placed i := by
      refine ⟨hlt i (by simp), hfresh, fun d hd => ?_⟩
      have hidx := h.ordered i d ((mem_dependencies_build hbuild).1 hd)
      exact mem_of_idxOf_lt hfresh (hcut ▸ hidx)
    have hplaced : ∀ k ∈ placed, k < g.size := fun k hk => hlt k (List.mem_append_left _ hk)
    apply NameGraph.Listing.place ((hg.ready_iff hplaced hready.lt).2 hready)
    have := h.listing hg hbuild rest (placed ++ [i]) (by simpa using hcut)
    rwa [List.map_append] at this

/-- **Sorting finds the least order**: views that can be sorted are listed in an order that respects
what has been recorded, and no other such order has a lexicographically smaller sequence of names,
compared byte by byte. -/
theorem sort_least (hg : build? edits = some g) (hviews : ∀ i j, Records edits i j → j < g.size)
    {ids : List Nat} (h : g.sort = .ok ids) :
    Respects edits g ids ∧
      ∀ ids', Respects edits g ids' → ids.map g.nameBytes ≤ ids'.map g.nameBytes := by
  have hp := proper_build hg hviews
  have horder := (sort_eq_ok_iff hp.closed).1 h
  obtain ⟨hplaced, hperm, -⟩ := order_eq_ok horder
  have hordered : ∀ i j, Records edits i j → ids.idxOf j < ids.idxOf i := fun i j hij =>
    idxOf_lt_of_order horder ((mem_dependencies_build hg).2 hij)
  refine ⟨⟨hperm, hordered⟩, fun ids' hids' => ?_⟩
  have hrun : g.nameGraph.Placing [] (ids.map g.name) := hplaced ▸ hp.placing_finish
  have hnames := hrun.least (hids'.listing hp hg ids' [] rfl)
  have hbytes : ∀ ids : List Nat, ids.map g.nameBytes = (ids.map g.name).map Name.bytes := by
    intro ids
    rw [List.map_map]
    rfl
  rw [hbytes, hbytes]
  rcases hnames with heq | hlt
  · rw [heq]
    exact List.le_refl _
  · exact List.le_of_lt (List.map_lt (fun _ _ => Name.bytes_lt_bytes) hlt)

/-- Three views, of which the second depends on the third. The names of the first and of the third
are no ASCII names; the first is one character outside the basic plane. -/
def glyphEdits : List Edit :=
  [.addView "😀", .addView "base", .addView "ﬀ", .addDependency 1 2]

def glyphGraph : DependencyGraph := ⟨[⟨"😀", []⟩, ⟨"BASE", [2]⟩, ⟨"ﬀ", []⟩]⟩

/-- The third view comes first, as its name has the smaller bytes (in units of sixteen bits it would
have the greater ones), and the second view, once it is ready, before the first. -/
theorem sort_least_glyph :
    build? glyphEdits = some glyphGraph ∧
      (∀ i j, Records glyphEdits i j → j < glyphGraph.size) ∧ glyphGraph.sort = .ok [2, 1, 0] ∧
      Respects glyphEdits glyphGraph [2, 0, 1] ∧
      [[0xef, 0xac, 0x80], [0x42, 0x41, 0x53, 0x45], [0xf0, 0x9f, 0x98, 0x80]] ≤
        ([2, 0, 1].map glyphGraph.nameBytes) := by
  have hg : build? glyphEdits = some glyphGraph := by decide
  have hviews : ∀ i j, Records glyphEdits i j → j < glyphGraph.size := fun _ _ =>
    records_lt hg (by decide)
  have hsort : glyphGraph.sort = .ok [2, 1, 0] := by decide
  have hother : Respects glyphEdits glyphGraph [2, 0, 1] := by
    refine ⟨by decide, fun i j hij => ?_⟩
    simp only [Records, glyphEdits, List.mem_cons, Edit.addDependency.injEq, reduceCtorEq,
      List.not_mem_nil, false_or, or_false] at hij
    rw [hij.1, hij.2]
    decide
  have hbytes : [2, 1, 0].map glyphGraph.nameBytes =
      [[0xef, 0xac, 0x80], [0x42, 0x41, 0x53, 0x45], [0xf0, 0x9f, 0x98, 0x80]] := by decide
  refine ⟨hg, hviews, hsort, hother, ?_⟩
  rw [← hbytes]
  exact (sort_least hg hviews hsort).2 _ hother

end DependencyGraph

end ViewTyping
