import Mathlib.Data.List.Forall2
import Mathlib.Data.List.TakeWhile
import ViewTyping.Proofs.FirstFault
import ViewTyping.Proofs.IgnoredParts

/-!
# Warnings about sub-queries

Typing warns of each sub-query that it has typed as a value. It goes through the nodes of an
expression from the inside to the outside, so that the warnings of a run, whether it fails or not,
are those of the sub-queries among the nodes before the first that has no type.

* `visited_subset`: typing a node goes through nodes on the way only.
* `Warned`: a run gives the warnings of the nodes that it went through.
* `Warned.bind`: a run over an expression, and over further nodes if that has a type.
* `warned_visited`: typing gives the warnings of the visited nodes.
* `infer_warnings`: the same in a catalog, where nodes without a type are told by `ownFault?`.
-/

set_option autoImplicit false

namespace ViewTyping

theorem Logged.bind_return {α : Type} (x : Logged α) : (x >>= fun a => pure a) = x := by
  cases hx : x.result with
  | error d =>
    refine Logged.ext (Logged.events_bind_of_error hx _) ?_
    rw [Logged.result_bind, hx]
    rfl
  | ok a =>
    refine Logged.ext ?_ ?_
    · rw [Logged.events_bind_of_ok hx]
      exact List.append_nil _
    · rw [Logged.result_bind, hx]
      rfl

/-! ## Nodes on the way -/

/-- Whether the node is a sub-query that selects a single expression, and so can be a value. -/
def Expr.isValueQuery : Expr → Bool
  | .subquery [_] _ _ => true
  | _ => false

/-- A node comes last on its own way. -/
theorem exists_visited_eq (e : Expr) : ∃ parts, e.visited = parts ++ [e] := by
  fun_cases Expr.visited e with
  | case4 op left right =>
    exact ⟨left.visited ++ right.visited, (List.append_assoc _ _ _).symm⟩
  | case1 | case2 | case6 | case9 => exact ⟨[], rfl⟩
  | case3 | case5 | case7 | case8 | case10 => exact ⟨_, rfl⟩

theorem visited_call {function : Builtin} {args : List Expr} (h : ∀ e, args = [e] → False) :
    (Expr.call function args).visited = [.call function args] := by
  rw [Expr.visited]
  exact h

theorem visited_rows {select : List Expr} {qualifiers : List Qualifier}
    {groupBy : Option (List ColumnRef)} (h : ∀ e, select = [e] → False) :
    (Expr.subquery select qualifiers groupBy).visited =
      [.subquery select qualifiers groupBy] := by
  rw [Expr.visited]
  exact h

theorem mem_visited_self (e : Expr) : e ∈ e.visited := by
  obtain ⟨parts, hparts⟩ := exists_visited_eq e
  rw [hparts]
  exact List.mem_append_right _ (.head _)

theorem subset_snoc {e : Expr} {parts : List Expr} (he : e.visited = parts ++ [e])
    (hparts : ∀ n ∈ parts, n.visited ⊆ parts) : ∀ n ∈ e.visited, n.visited ⊆ e.visited := by
  intro n hn
  rw [he, List.mem_append, List.mem_singleton] at hn
  obtain hn | rfl := hn
  · rw [he]
    exact List.subset_append_of_subset_left _ (hparts n hn)
  · exact List.Subset.refl _

/-- **Typing a node on the way goes through nodes on the way only.** -/
theorem visited_subset (e : Expr) : ∀ n ∈ e.visited, n.visited ⊆ e.visited := by
  induction e using Expr.visited.induct with
  | case1 | case2 => exact subset_snoc (List.nil_append _).symm (List.forall_mem_nil _)
  | case3 op arg ih => exact subset_snoc rfl ih
  | case4 op left right ihl ihr =>
    refine subset_snoc (List.append_assoc _ _ _).symm fun n hn => ?_
    obtain hn | hn := List.mem_append.1 hn
    · exact List.subset_append_of_subset_left _ (ihl n hn)
    · exact List.subset_append_of_subset_right _ (ihr n hn)
  | case5 function arg ih => exact subset_snoc rfl ih
  | case6 function args hne =>
    exact subset_snoc (visited_call hne) (List.forall_mem_nil _)
  | case7 t arg ih => exact subset_snoc rfl ih
  | case8 e qualifiers groupBy ih => exact subset_snoc rfl ih
  | case9 select qualifiers groupBy hne =>
    exact subset_snoc (visited_rows hne) (List.forall_mem_nil _)
  | case10 e name ih => exact subset_snoc rfl ih

section
variable {column : ColumnRef → Except Diagnostic ValueType}

/-- An expression that has a type is made of such, as far as typing goes through it. -/
theorem faultOf_of_mem_visited {e n : Expr} {t : ValueType}
    (he : (e.typing column).result = .ok t) (hn : n ∈ e.visited) :
    faultOf (n.typing column).result = none := by
  have hfault : faultOf (e.typing column).result = none := by rw [he]; rfl
  rw [faultOf_typing, List.findSome?_eq_none_iff] at hfault ⊢
  exact fun m hm => hfault m (visited_subset e n hn hm)

/-! ## Nodes before the first without a type -/

theorem takeWhile_append_of_stop {α : Type} {p : α → Bool} {xs : List α} (ys : List α) {x : α}
    (hx : x ∈ xs) (hp : p x = false) : (xs ++ ys).takeWhile p = xs.takeWhile p := by
  rw [List.takeWhile_append, if_neg]
  intro hlen
  rw [← (List.takeWhile_sublist p).eq_of_length hlen] at hx
  have := List.mem_takeWhile_imp hx
  rw [hp] at this
  cases this

/-- The nodes before the first that has no type. -/
def typedNodes (column : ColumnRef → Except Diagnostic ValueType) (nodes : List Expr) :
    List Expr :=
  nodes.takeWhile fun n => (faultOf (n.typing column).result).isNone

/-- The nodes before the first that is at fault by itself. -/
def faultlessNodes (column : ColumnRef → Except Diagnostic ValueType) (nodes : List Expr) :
    List Expr :=
  nodes.takeWhile fun n => (n.ownFault? fun ref => faultOf (column ref)).isNone

/-- The node is a sub-query that has been typed as a value, and the event warns of that. -/
def Warns (column : ColumnRef → Except Diagnostic ValueType) (n : Expr) (event : Event) : Prop :=
  ∃ t, (n.typing column).result = .ok t ∧ event = .typedSubquery n.render t

/-- A run gives the warnings of the nodes that it goes through, and ends at the first that is at
fault. -/
structure Warned (column : ColumnRef → Except Diagnostic ValueType) (nodes : List Expr)
    (run : Logged ValueType) : Prop where
  typed_eq : typedNodes column nodes = faultlessNodes column nodes
  warnings : List.Forall₂ (Warns column) ((typedNodes column nodes).filter Expr.isValueQuery)
    run.events

/-- A run over an expression, and over further nodes if that has a type. -/
theorem Warned.bind {e : Expr} {rest : List Expr} {k : ValueType → Logged ValueType}
    (he : Warned column e.visited (e.typing column))
    (hk : ∀ t, (e.typing column).result = .ok t → Warned column rest (k t)) :
    Warned column (e.visited ++ rest) (e.typing column >>= k) := by
  cases hresult : (e.typing column).result with
  | error d =>
    have hfault : faultOf (e.typing column).result = some d := by rw [hresult]; rfl
    have htyped : typedNodes column (e.visited ++ rest) = typedNodes column e.visited :=
      takeWhile_append_of_stop rest (mem_visited_self e) (by rw [hfault]; rfl)
    have hfaultless : faultlessNodes column (e.visited ++ rest) =
        faultlessNodes column e.visited := by
      rw [faultOf_typing] at hfault
      obtain ⟨n, hn, hown⟩ := List.exists_of_findSome?_eq_some hfault
      exact takeWhile_append_of_stop rest hn (by rw [hown]; rfl)
    refine ⟨by rw [htyped, hfaultless, he.typed_eq], ?_⟩
    rw [htyped, Logged.events_bind_of_error hresult]
    exact he.warnings
  | ok t =>
    have hfault : faultOf (e.typing column).result = none := by rw [hresult]; rfl
    have hall : ∀ n ∈ e.visited, (faultOf (n.typing column).result).isNone = true :=
      fun n hn => by rw [faultOf_of_mem_visited hresult hn]; rfl
    have htyped : typedNodes column (e.visited ++ rest) = e.visited ++ typedNodes column rest :=
      List.takeWhile_append_of_pos hall
    have hfaultless : faultlessNodes column (e.visited ++ rest) =
        e.visited ++ faultlessNodes column rest := by
      rw [faultOf_typing, List.findSome?_eq_none_iff] at hfault
      exact List.takeWhile_append_of_pos fun n hn => by rw [hfault n hn]; rfl
    obtain ⟨heq, hwarnings⟩ := hk t hresult
    refine ⟨by rw [htyped, hfaultless, heq], ?_⟩
    have hself : typedNodes column e.visited = e.visited :=
      List.takeWhile_eq_self_iff.2 hall
    rw [htyped, Logged.events_bind_of_ok hresult, List.filter_append]
    exact List.rel_append (hself ▸ he.warnings) hwarnings

/-- A node whose parts have types is at fault only by itself. -/
theorem faultOf_of_parts {e : Expr} {parts : List Expr} (he : e.visited = parts ++ [e])
    (hparts : ∀ n ∈ parts, faultOf (n.typing column).result = none) :
    faultOf (e.typing column).result = e.ownFault? fun ref => faultOf (column ref) := by
  have hnone : parts.findSome? (Expr.ownFault? fun ref => faultOf (column ref)) = none := by
    refine List.findSome?_eq_none_iff.2 fun n hn => ?_
    have hn := hparts n hn
    rw [faultOf_typing, List.findSome?_eq_none_iff] at hn
    exact hn n (mem_visited_self n)
  rw [faultOf_typing, he, List.findSome?_append, hnone, List.findSome?_singleton, Option.none_or]

theorem typedNodes_last {e : Expr} {parts : List Expr} (he : e.visited = parts ++ [e])
    (hparts : ∀ n ∈ parts, faultOf (n.typing column).result = none) :
    typedNodes column [e] = faultlessNodes column [e] := by
  rw [typedNodes, faultlessNodes, List.takeWhile_cons, List.takeWhile_cons,
    faultOf_of_parts he hparts]
  rfl

/-- The end of a run at a node that is not warned of. -/
theorem warned_last {e : Expr} {parts : List Expr} {run : Logged ValueType}
    (he : e.visited = parts ++ [e])
    (hparts : ∀ n ∈ parts, faultOf (n.typing column).result = none)
    (hquery : e.isValueQuery = false) (hevents : run.events = []) : Warned column [e] run := by
  refine ⟨typedNodes_last he hparts, ?_⟩
  have hnone : (typedNodes column [e]).filter Expr.isValueQuery = [] := by
    refine List.filter_eq_nil_iff.2 fun n hn => ?_
    rw [List.mem_singleton.1 ((List.takeWhile_sublist _).subset hn), hquery]
    exact Bool.false_ne_true
  rw [hnone, hevents]
  exact .nil

/-- The end of a run at a sub-query, whose value has a type. -/
theorem warned_value {e : Expr} {qualifiers : List Qualifier} {groupBy : Option (List ColumnRef)}
    {t : ValueType} (he : (e.typing column).result = .ok t) :
    Warned column [.subquery [e] qualifiers groupBy] (do
      Logged.emit (.typedSubquery (Expr.subquery [e] qualifiers groupBy).render t)
      return t) := by
  have htyped : ((Expr.subquery [e] qualifiers groupBy).typing column).result = .ok t := by
    rw [Expr.typing, Logged.result_bind, he]
    rfl
  have hall : typedNodes column [.subquery [e] qualifiers groupBy] =
      [.subquery [e] qualifiers groupBy] := by
    rw [typedNodes, List.takeWhile_cons, htyped]
    rfl
  refine ⟨?_, ?_⟩
  · exact typedNodes_last rfl fun _ => faultOf_of_mem_visited he
  · rw [hall]
    exact .cons ⟨t, htyped, rfl⟩ .nil

/-- **Typing gives the warnings of the visited nodes**, up to the first that is at fault. -/
theorem warned_visited (e : Expr) : Warned column e.visited (e.typing column) := by
  induction e using Expr.typing.induct with
  | case1 ref => exact warned_last rfl (List.forall_mem_nil _) rfl (by rw [Expr.typing]; rfl)
  | case2 value => exact warned_last rfl (List.forall_mem_nil _) rfl (by rw [Expr.typing]; rfl)
  | case3 op arg ih =>
    rw [Expr.typing]
    refine ih.bind fun t ht => ?_
    exact warned_last rfl (fun _ => faultOf_of_mem_visited ht) rfl rfl
  | case4 op left right ihl ihr =>
    rw [Expr.typing]
    refine ihl.bind fun l hl => ihr.bind fun r hr => ?_
    refine warned_last (List.append_assoc _ _ _).symm (fun n hn => ?_) rfl rfl
    obtain hn | hn := List.mem_append.1 hn
    · exact faultOf_of_mem_visited hl hn
    · exact faultOf_of_mem_visited hr hn
  | case5 function arg ih =>
    rw [Expr.typing]
    refine ih.bind fun t ht => ?_
    refine warned_last rfl (fun _ => faultOf_of_mem_visited ht) rfl ?_
    cases function.aggregateType? t <;> rfl
  | case6 function args hne t ht =>
    rw [visited_call hne, Expr.typing, ht]
    · exact warned_last (visited_call hne) (List.forall_mem_nil _) rfl rfl
    · exact hne
  | case7 function args hne hnone =>
    rw [visited_call hne, Expr.typing, hnone]
    · exact warned_last (visited_call hne) (List.forall_mem_nil _) rfl rfl
    · exact hne
  | case8 t arg ih =>
    rw [Expr.typing]
    refine ih.bind fun t ht => ?_
    exact warned_last rfl (fun _ => faultOf_of_mem_visited ht) rfl rfl
  | case9 e qualifiers groupBy ih =>
    rw [Expr.typing]
    exact ih.bind fun t ht => warned_value ht
  | case10 select qualifiers groupBy hne =>
    have hquery : (Expr.subquery select qualifiers groupBy).isValueQuery = false := by
      rw [Expr.isValueQuery]
      exact fun e _ _ h => hne e (Expr.subquery.inj h).1
    rw [visited_rows hne, Expr.typing]
    · exact warned_last (visited_rows hne) (List.forall_mem_nil _) hquery rfl
    · exact hne
  | case11 e name ih =>
    rw [Expr.typing, ← Logged.bind_return (e.typing column)]
    refine ih.bind fun t ht => ?_
    exact warned_last rfl (fun _ => faultOf_of_mem_visited ht) rfl rfl

end

namespace Catalog

variable {c : Catalog}

/-- The nodes that an inference is through with before the first that has no type. -/
def finished (c : Catalog) (e : Expr) : List Expr :=
  e.visited.takeWhile fun n => (faultOf (c.infer n)).isNone

/-- The events that an inference gives. -/
def inferEvents (c : Catalog) (e : Expr) : List Event :=
  (c.perform (.infer e)).events

theorem inferEvents_of_error {x : Expr} {d : Diagnostic} (h : c.infer x = .error d)
    (qualifiers : List Qualifier) (groupBy : Option (List ColumnRef)) :
    c.inferEvents (.subquery [x] qualifiers groupBy) = c.inferEvents x := by
  show ((Expr.subquery [x] qualifiers groupBy).typing c.columnType).events = _
  rw [Expr.typing]
  exact Logged.events_bind_of_error h _

theorem inferEvents_rows {select : List Expr} (h : select.length ≠ 1)
    (qualifiers : List Qualifier) (groupBy : Option (List ColumnRef)) :
    c.inferEvents (.subquery select qualifiers groupBy) = [] := by
  show ((Expr.subquery select qualifiers groupBy).typing c.columnType).events = []
  rw [Expr.typing]
  · rfl
  · exact ne_singleton h

theorem inferEvents_constraint {args : List Expr} (h : args.length ≠ 1) (function : Builtin) :
    c.inferEvents (.call function args) = [] := by
  show ((Expr.call function args).typing c.columnType).events = []
  rw [Expr.typing]
  · cases function.constraintType? args.length <;> rfl
  · exact ne_singleton h

/-- **The warnings of an inference are those of the sub-queries that it has typed as values**, in
the order in which it is through with them, up to the first fault. -/
theorem infer_warnings (h : c.Reachable) (e : Expr) :
    List.Forall₂ (fun n event => ∃ t, c.infer n = .ok t ∧ event = .typedSubquery n.render t)
      ((c.finished e).filter Expr.isValueQuery) (c.inferEvents e) ∧
    c.finished e = (e.visited.takeWhile fun n => (c.ownFault? n).isNone) ∧
    (∀ event ∈ c.inferEvents e, event.level = .warn) ∧
    (∀ x qualifiers groupBy d, c.infer x = .error d →
      c.inferEvents (.subquery [x] qualifiers groupBy) = c.inferEvents x) ∧
    (∀ select qualifiers groupBy, select.length ≠ 1 →
      c.inferEvents (.subquery select qualifiers groupBy) = []) ∧
    (∀ function args, args.length ≠ 1 → c.inferEvents (.call function args) = []) ∧
    (c.inferEvents e).map Event.withoutText = (c.inferEvents e.blanked).map Event.withoutText := by
  have hcolumns : (fun ref => faultOf (c.columnType ref)) = c.columnFault? :=
    funext h.consistent.faultOf_columnType
  obtain ⟨hfinished, hwarnings⟩ : Warned c.columnType e.visited (c.typing e) := warned_visited e
  refine ⟨hwarnings, ?_, fun event hevent => ?_, fun _ q g _ hx => inferEvents_of_error hx q g,
    fun _ q g hlen => inferEvents_rows hlen q g, fun f _ hlen => inferEvents_constraint hlen f,
    events_blanked c e⟩
  · rw [faultlessNodes, hcolumns] at hfinished
    exact hfinished
  · obtain ⟨n, -, t, -, rfl⟩ := exists_mem_left hwarnings hevent
    rfl

/-- A sub-query with a single value and with another sub-query in its predicate. -/
def valueOf (e : Expr) : Expr :=
  .subquery [e]
    [.source "node", .filter (.test .existence (.subquery [.literal (.int 1)] [] none))] none

def leastId : Expr :=
  valueOf (.call .min [.column ⟨"node", ⟨"ID", .bool, true⟩⟩])

/-- A value inside a value, then one that has no type, then one more. -/
def nestedValues : Expr :=
  .binary .and
    (.binary .lessThan (.call .max [valueOf (.call .sum [leastId])]) (valueOf lostField)) leastId

/-- Only the first two values are warned of, the inner one first. -/
theorem infer_warnings_nestedValues :
    nodeCatalog.Reachable ∧ nodeCatalog.inferEvents nestedValues =
      [.typedSubquery leastId.render .intVar,
        .typedSubquery (valueOf (.call .sum [leastId])).render .intVar] := by
  have hreach : nodeCatalog.Reachable := ⟨nodeCalls, rfl⟩
  obtain ⟨hwarnings, -⟩ := infer_warnings hreach nestedValues
  have hfinished : (nodeCatalog.finished nestedValues).filter Expr.isValueQuery =
      [leastId, valueOf (.call .sum [leastId])] := rfl
  have hinner : nodeCatalog.infer leastId = .ok .intVar := by decide
  have houter : nodeCatalog.infer (valueOf (.call .sum [leastId])) = .ok .intVar := by decide
  rw [hfinished] at hwarnings
  refine ⟨hreach, ?_⟩
  generalize nodeCatalog.inferEvents nestedValues = events at hwarnings
  obtain _ | ⟨⟨s, hs, rfl⟩, _ | ⟨⟨t, ht, rfl⟩, _ | _⟩⟩ := hwarnings
  rw [hinner] at hs
  rw [houter] at ht
  cases hs
  cases ht
  rfl

end Catalog

end ViewTyping
