import Mathlib.Data.List.Induction
import Mathlib.Data.List.Nodup
import ViewTyping.Expr.Tables
import ViewTyping.Typing

/-!
# What an expression reads

`Expr.columns` lists the column references of an expression, those in predicates and in the
arguments of constraints included; the columns of a grouping are no expressions and are left out.
`Expr.Mentions e n` says that the name `n` of a table or a view stands somewhere in `e`.

* `Expr.induct`: induction over expressions, with a hypothesis for each part that stands in a list.
* `typing_congr`: typing asks for the types of columns in `Expr.columns` only.
* `mem_tables`: `Expr.tables` holds exactly the names that are mentioned; so every column that
  typing asks for belongs to a table or view of `Expr.tables` (`mentions_of_mem_columns`).
* `addTables_eq`: `Expr.tables` collects `Expr.names`, all names in order, one after the other.
* `foldl_eq_eraseDups`: what is added only if it is not there yet stands where it came first.
* `tables_firstOccurrences`: so `Expr.tables` is `Expr.names` without the repetitions.
-/

set_option autoImplicit false

namespace ViewTyping

/-! ## Induction -/

def Qualifier.predicate? : Qualifier → Option Expr
  | .source _ => none
  | .filter e => some e
  | .join e => some e

theorem Expr.induct {P : Expr → Prop}
    (column : ∀ ref, P (.column ref))
    (literal : ∀ value, P (.literal value))
    (unary : ∀ op arg, P arg → P (.unary op arg))
    (binary : ∀ op left right, P left → P right → P (.binary op left right))
    (call : ∀ function args, (∀ a ∈ args, P a) → P (.call function args))
    (test : ∀ t arg, P arg → P (.test t arg))
    (subquery : ∀ select qualifiers groupBy, (∀ e ∈ select, P e) →
      (∀ q ∈ qualifiers, ∀ e, q.predicate? = some e → P e) →
      P (.subquery select qualifiers groupBy))
    (aliased : ∀ e name, P e → P (.aliased e name)) (e : Expr) : P e := by
  refine @Expr.rec P (fun q => ∀ e, q.predicate? = some e → P e) (fun es => ∀ e ∈ es, P e)
    (fun qs => ∀ q ∈ qs, ∀ e, q.predicate? = some e → P e)
    column literal unary binary call test subquery aliased ?_ ?_ ?_ ?_ ?_ ?_ ?_ e
  · intro table e h; cases h
  · intro e ih e' h; cases h; exact ih
  · intro e ih e' h; cases h; exact ih
  · intro e h; cases h
  · intro e es ih ihs e' h
    rcases List.mem_cons.1 h with rfl | h
    · exact ih
    · exact ihs e' h
  · intro q h; cases h
  · intro q qs ih ihs q' h
    rcases List.mem_cons.1 h with rfl | h
    · exact ih
    · exact ihs q' h

/-! ## Columns -/

mutual

/-- The column references of an expression, in the order in which `Expr.tables` visits them. -/
def Expr.columns : Expr → List ColumnRef
  | .column ref => [ref]
  | .literal _ => []
  | .unary _ arg => arg.columns
  | .binary _ left right => left.columns ++ right.columns
  | .call _ args => columnsOfExprs args
  | .test _ arg => arg.columns
  | .subquery select qualifiers _ => columnsOfQualifiers qualifiers ++ columnsOfExprs select
  | .aliased e _ => e.columns

def columnsOfExprs : List Expr → List ColumnRef
  | [] => []
  | e :: es => e.columns ++ columnsOfExprs es

def Qualifier.columns : Qualifier → List ColumnRef
  | .source _ => []
  | .filter e => e.columns
  | .join e => e.columns

def columnsOfQualifiers : List Qualifier → List ColumnRef
  | [] => []
  | q :: qs => q.columns ++ columnsOfQualifiers qs

end

theorem columnsOfExprs_eq (es : List Expr) : columnsOfExprs es = es.flatMap Expr.columns := by
  induction es with
  | nil => rfl
  | cons e es ih => rw [columnsOfExprs, ih, List.flatMap_cons]

theorem columnsOfQualifiers_eq (qs : List Qualifier) :
    columnsOfQualifiers qs = qs.flatMap Qualifier.columns := by
  induction qs with
  | nil => rfl
  | cons q qs ih => rw [columnsOfQualifiers, ih, List.flatMap_cons]

/-- **Typing looks at the columns of an expression only.** -/
theorem typing_congr {f g : ColumnRef → Except Diagnostic ValueType} {e : Expr}
    (h : ∀ ref ∈ e.columns, f ref = g ref) : e.typing f = e.typing g := by
  induction e using Expr.typing.induct with
  | case1 ref => rw [Expr.typing, Expr.typing, h ref (by simp [Expr.columns])]
  | case2 value => rw [Expr.typing, Expr.typing]
  | case3 op arg ih => rw [Expr.typing, Expr.typing, ih h]
  | case4 op left right ihl ihr =>
    simp only [Expr.columns, List.mem_append] at h
    rw [Expr.typing, Expr.typing, ihl fun ref hr => h ref (.inl hr),
      ihr fun ref hr => h ref (.inr hr)]
  | case5 function arg ih =>
    simp only [Expr.columns, columnsOfExprs, List.append_nil] at h
    rw [Expr.typing, Expr.typing, ih h]
  | case6 function args hne t ht => rw [Expr.typing, Expr.typing] <;> assumption
  | case7 function args hne ht => rw [Expr.typing, Expr.typing] <;> assumption
  | case8 t arg ih => rw [Expr.typing, Expr.typing, ih h]
  | case9 e qualifiers groupBy ih =>
    simp only [Expr.columns, columnsOfExprs, List.append_nil, List.mem_append] at h
    rw [Expr.typing, Expr.typing, ih fun ref hr => h ref (.inr hr)]
  | case10 select qualifiers groupBy hne => rw [Expr.typing, Expr.typing] <;> assumption
  | case11 e name ih => rw [Expr.typing, Expr.typing, ih h]

/-! ## Names -/

theorem toUpper_toUpper (c : Char) : c.toUpper.toUpper = c.toUpper := by
  unfold Char.toUpper
  split
  · -- the result is 32 below a lower-case letter, so it is none itself
    rename_i h
    refine dif_neg fun h' => ?_
    have h1 := UInt32.le_iff_toNat_le.1 h.1
    have h2 := UInt32.le_iff_toNat_le.1 h.2
    have h3 := UInt32.le_iff_toNat_le.1 h'.1
    simp [UInt32.toNat_add] at h1 h2 h3
    omega
  · rfl

@[simp] theorem normalize_normalize (name : String) :
    Name.normalize (Name.normalize name) = Name.normalize name := by
  unfold Name.normalize
  rw [String.toList_ofList, List.map_map]
  exact congrArg String.ofList (List.map_congr_left fun c _ => toUpper_toUpper c)

mutual

/-- The name stands in the expression: as the table of a column, of a grouping's column too, or as
a source. -/
inductive Expr.Mentions : Expr → String → Prop
  | column (ref : ColumnRef) : Expr.Mentions (.column ref) ref.table
  | unary {op arg n} : Expr.Mentions arg n → Expr.Mentions (.unary op arg) n
  | left {op left right n} : Expr.Mentions left n → Expr.Mentions (.binary op left right) n
  | right {op left right n} : Expr.Mentions right n → Expr.Mentions (.binary op left right) n
  | arg {function args a n} : a ∈ args → Expr.Mentions a n → Expr.Mentions (.call function args) n
  | test {test arg n} : Expr.Mentions arg n → Expr.Mentions (.test test arg) n
  | select {select qualifiers groupBy e n} : e ∈ select → Expr.Mentions e n →
      Expr.Mentions (.subquery select qualifiers groupBy) n
  | qualifier {select qualifiers groupBy q n} : q ∈ qualifiers → Qualifier.Mentions q n →
      Expr.Mentions (.subquery select qualifiers groupBy) n
  | groupBy {select qualifiers refs} {ref : ColumnRef} : ref ∈ refs →
      Expr.Mentions (.subquery select qualifiers (some refs)) ref.table
  | aliased {e name n} : Expr.Mentions e n → Expr.Mentions (.aliased e name) n

inductive Qualifier.Mentions : Qualifier → String → Prop
  | source (table : String) : Qualifier.Mentions (.source table) table
  | filter {e n} : Expr.Mentions e n → Qualifier.Mentions (.filter e) n
  | join {e n} : Expr.Mentions e n → Qualifier.Mentions (.join e) n

end

theorem mentions_of_mem_columns {e : Expr} {ref : ColumnRef} (h : ref ∈ e.columns) :
    e.Mentions ref.table := by
  induction e using Expr.induct with
  | column r =>
    obtain rfl : ref = r := by simpa [Expr.columns] using h
    exact .column ref
  | literal value => simp [Expr.columns] at h
  | unary op arg ih => exact .unary (ih h)
  | binary op left right ihl ihr =>
    rcases List.mem_append.1 h with h | h
    · exact .left (ihl h)
    · exact .right (ihr h)
  | call function args ih =>
    rw [Expr.columns, columnsOfExprs_eq] at h
    obtain ⟨a, ha, hr⟩ := List.mem_flatMap.1 h
    exact .arg ha (ih a ha hr)
  | test t arg ih => exact .test (ih h)
  | subquery select qualifiers groupBy ihs ihq =>
    rw [Expr.columns, columnsOfExprs_eq, columnsOfQualifiers_eq] at h
    rcases List.mem_append.1 h with h | h
    · obtain ⟨q, hq, hr⟩ := List.mem_flatMap.1 h
      refine .qualifier hq ?_
      cases q with
      | source table => simp [Qualifier.columns] at hr
      | filter e => exact .filter (ihq _ hq e rfl hr)
      | join e => exact .join (ihq _ hq e rfl hr)
    · obtain ⟨e, he, hr⟩ := List.mem_flatMap.1 h
      exact .select he (ihs e he hr)
  | aliased e name ih => exact .aliased (ih h)

theorem mem_insertName {names : List String} {name n : String} :
    n ∈ insertName names name ↔ n ∈ names ∨ n = name := by
  unfold insertName
  split
  · exact ⟨.inl, fun h => h.elim id fun h => h ▸ ‹_›⟩
  · simp

theorem nodup_insertName {names : List String} (h : names.Nodup) (name : String) :
    (insertName names name).Nodup := by
  unfold insertName
  split
  · exact h
  · rename_i hname
    refine List.nodup_append.2 ⟨h, by simp, fun n hn m hm => ?_⟩
    rw [List.mem_singleton.1 hm]
    exact fun heq => hname (heq ▸ hn)

/-- A fold in which each item adds the names that it mentions adds those that any item mentions. -/
theorem mem_foldl_names {α : Type} {n : String} {f : List String → α → List String}
    {P : α → Prop} : ∀ (items : List α),
    (∀ x ∈ items, ∀ names, n ∈ f names x ↔ n ∈ names ∨ P x) → ∀ names,
    (n ∈ items.foldl f names ↔ n ∈ names ∨ ∃ x ∈ items, P x)
  | [], _, names => by simp
  | x :: items, h, names => by
    rw [List.foldl_cons, mem_foldl_names items fun y hy => h y (.tail _ hy),
      h x (.head _) names]
    simp only [List.mem_cons, exists_eq_or_imp, or_assoc]

theorem addTablesOfExprs_eq (es : List Expr) (names : List String) :
    addTablesOfExprs names es = es.foldl (fun names e => e.addTables names) names := by
  induction es generalizing names with
  | nil => rfl
  | cons e es ih => rw [addTablesOfExprs, ih, List.foldl_cons]

theorem addTablesOfQualifiers_eq (qs : List Qualifier) (names : List String) :
    addTablesOfQualifiers names qs = qs.foldl (fun names q => q.addTables names) names := by
  induction qs generalizing names with
  | nil => rfl
  | cons q qs ih => rw [addTablesOfQualifiers, ih, List.foldl_cons]

theorem mentions_subquery {select : List Expr} {qualifiers : List Qualifier}
    {groupBy : Option (List ColumnRef)} {n : String} :
    (Expr.subquery select qualifiers groupBy).Mentions n ↔
      (∃ q ∈ qualifiers, q.Mentions n) ∨ (∃ e ∈ select, e.Mentions n) ∨
        ∃ ref ∈ groupBy.getD [], n = ref.table := by
  constructor
  · intro h
    cases h with
    | select he h => exact .inr (.inl ⟨_, he, h⟩)
    | qualifier hq h => exact .inl ⟨_, hq, h⟩
    | groupBy hr => exact .inr (.inr ⟨_, hr, rfl⟩)
  · rintro (⟨q, hq, h⟩ | ⟨e, he, h⟩ | ⟨ref, hr, rfl⟩)
    · exact .qualifier hq h
    · exact .select he h
    · cases groupBy with
      | none => cases hr
      | some refs => exact .groupBy hr

theorem mem_addTables {e : Expr} {n : String} (names : List String) :
    n ∈ e.addTables names ↔ n ∈ names ∨ e.Mentions n := by
  induction e using Expr.induct generalizing names with
  | column ref =>
    rw [Expr.addTables, mem_insertName]
    exact or_congr_right ⟨fun h => h ▸ .column ref, fun h => by cases h; rfl⟩
  | literal value =>
    rw [Expr.addTables]
    exact ⟨.inl, fun h => h.elim id fun h => by cases h⟩
  | unary op arg ih =>
    rw [Expr.addTables, ih]
    exact or_congr_right ⟨.unary, fun h => by cases h; assumption⟩
  | binary op left right ihl ihr =>
    rw [Expr.addTables, ihr, ihl, or_assoc]
    refine or_congr_right ⟨fun h => h.elim .left .right, fun h => ?_⟩
    cases h with
    | left h => exact .inl h
    | right h => exact .inr h
  | call function args ih =>
    rw [Expr.addTables, addTablesOfExprs_eq, mem_foldl_names args ih]
    refine or_congr_right ⟨fun ⟨a, ha, h⟩ => .arg ha h, fun h => ?_⟩
    cases h with
    | arg ha h => exact ⟨_, ha, h⟩
  | test t arg ih =>
    rw [Expr.addTables, ih]
    exact or_congr_right ⟨.test, fun h => by cases h; assumption⟩
  | subquery select qualifiers groupBy ihs ihq =>
    have hq : ∀ q ∈ qualifiers, ∀ names, n ∈ q.addTables names ↔ n ∈ names ∨ q.Mentions n := by
      intro q hq names
      cases q with
      | source table =>
        rw [Qualifier.addTables, mem_insertName]
        exact or_congr_right ⟨fun h => h ▸ .source table, fun h => by cases h; rfl⟩
      | filter e =>
        rw [Qualifier.addTables, ihq _ hq e rfl]
        exact or_congr_right ⟨.filter, fun h => by cases h; assumption⟩
      | join e =>
        rw [Qualifier.addTables, ihq _ hq e rfl]
        exact or_congr_right ⟨.join, fun h => by cases h; assumption⟩
    have hg : ∀ ref ∈ groupBy.getD [], ∀ names, n ∈ insertName names ref.table ↔
        n ∈ names ∨ n = ref.table := fun _ _ _ => mem_insertName
    rw [Expr.addTables, mem_foldl_names _ hg, addTablesOfExprs_eq, mem_foldl_names select ihs,
      addTablesOfQualifiers_eq, mem_foldl_names qualifiers hq, mentions_subquery, or_assoc,
      or_assoc]
  | aliased e name ih =>
    rw [Expr.addTables, ih]
    exact or_congr_right ⟨.aliased, fun h => by cases h; assumption⟩

/-- **The names that an expression reads are those that it mentions.** -/
theorem mem_tables {e : Expr} {n : String} : n ∈ e.tables ↔ e.Mentions n := by
  rw [Expr.tables, mem_addTables]
  simp

/-! ## All names, in order -/

mutual

/-- Every name of a table or a view in the expression, from left to right and with repetitions. -/
def Expr.names : Expr → List String
  | .column ref => [ref.table]
  | .literal _ => []
  | .unary _ arg => arg.names
  | .binary _ left right => left.names ++ right.names
  | .call _ args => namesOfExprs args
  | .test _ arg => arg.names
  | .subquery select qualifiers groupBy =>
    namesOfQualifiers qualifiers ++ namesOfExprs select ++ (groupBy.getD []).map ColumnRef.table
  | .aliased e _ => e.names

def namesOfExprs : List Expr → List String
  | [] => []
  | e :: es => e.names ++ namesOfExprs es

def Qualifier.names : Qualifier → List String
  | .source table => [table]
  | .filter e => e.names
  | .join e => e.names

def namesOfQualifiers : List Qualifier → List String
  | [] => []
  | q :: qs => q.names ++ namesOfQualifiers qs

end

theorem namesOfExprs_eq (es : List Expr) : namesOfExprs es = es.flatMap Expr.names := by
  induction es with
  | nil => rfl
  | cons e es ih => rw [namesOfExprs, ih, List.flatMap_cons]

theorem namesOfQualifiers_eq (qs : List Qualifier) :
    namesOfQualifiers qs = qs.flatMap Qualifier.names := by
  induction qs with
  | nil => rfl
  | cons q qs ih => rw [namesOfQualifiers, ih, List.flatMap_cons]

/-- A fold in which each item adds its names adds the names of all items. -/
theorem foldl_insertName_flatMap {α : Type} {f : List String → α → List String}
    {namesOf : α → List String} : ∀ (items : List α),
    (∀ x ∈ items, ∀ names, f names x = (namesOf x).foldl insertName names) → ∀ names,
    items.foldl f names = (items.flatMap namesOf).foldl insertName names
  | [], _, _ => rfl
  | x :: items, h, names => by
    rw [List.foldl_cons, h x (.head _), List.flatMap_cons, List.foldl_append,
      foldl_insertName_flatMap items fun y hy => h y (.tail _ hy)]

/-- **The names that an expression reads are all its names, each where it stands first.** -/
theorem addTables_eq (e : Expr) (names : List String) :
    e.addTables names = e.names.foldl insertName names := by
  induction e using Expr.induct generalizing names with
  | column ref => rfl
  | literal value => rfl
  | unary op arg ih => exact ih names
  | binary op left right ihl ihr =>
    rw [Expr.addTables, Expr.names, List.foldl_append, ihl, ihr]
  | call function args ih =>
    rw [Expr.addTables, Expr.names, addTablesOfExprs_eq, namesOfExprs_eq,
      foldl_insertName_flatMap args ih]
  | test t arg ih => exact ih names
  | subquery select qualifiers groupBy ihs ihq =>
    have hq : ∀ q ∈ qualifiers, ∀ names, q.addTables names = q.names.foldl insertName names := by
      intro q hq names
      cases q with
      | source table => rfl
      | filter e => exact ihq _ hq e rfl names
      | join e => exact ihq _ hq e rfl names
    rw [Expr.addTables, Expr.names, addTablesOfExprs_eq, addTablesOfQualifiers_eq,
      foldl_insertName_flatMap qualifiers hq, foldl_insertName_flatMap select ihs,
      namesOfExprs_eq, namesOfQualifiers_eq, List.foldl_append, List.foldl_append, List.foldl_map]
  | aliased e name ih => exact ih names

/-! ## First occurrences -/

section
variable {α : Type} [DecidableEq α]

theorem removeAll_singleton (a : α) (l : List α) : [a].removeAll l = if a ∈ l then [] else [a] := by
  by_cases h : a ∈ l <;> simp [List.removeAll, h]

/-- **A fold that adds what is not there yet keeps the first occurrences.** -/
theorem foldl_eq_eraseDups {insert : List α → α → List α}
    (h : ∀ l a, insert l a = if a ∈ l then l else l ++ [a]) (l : List α) :
    l.foldl insert [] = l.eraseDups := by
  induction l using List.reverseRecOn with
  | nil => rfl
  | append_singleton l a ih =>
    rw [List.foldl_append, ih, List.foldl_cons, List.foldl_nil, h, List.eraseDups_append,
      removeAll_singleton]
    by_cases ha : a ∈ l
    · rw [if_pos (List.mem_eraseDups.2 ha), if_pos ha, List.eraseDups_nil, List.append_nil]
    · rw [if_neg fun hm => ha (List.mem_eraseDups.1 hm), if_neg ha]
      rfl

theorem nodup_eraseDups (l : List α) : l.eraseDups.Nodup := by
  induction l using List.reverseRecOn with
  | nil => exact List.nodup_nil
  | append_singleton l a ih =>
    rw [List.eraseDups_append, removeAll_singleton]
    by_cases ha : a ∈ l
    · rwa [if_pos ha, List.eraseDups_nil, List.append_nil]
    · rw [if_neg ha]
      refine ih.append (List.nodup_singleton a) fun b hb hb' => ?_
      exact ha (List.mem_eraseDups.1 (List.mem_singleton.1 hb' ▸ hb))

end

/-- **An expression reads each of its names once, in the order in which they first occur.** In a
sub-query the names of the qualifiers come first, then the selection's, then the grouping's. -/
theorem tables_firstOccurrences (e : Expr) :
    e.tables.Nodup ∧ e.tables = e.names.eraseDups ∧ ∀ n, n ∈ e.tables ↔ e.Mentions n := by
  have hfirst : e.tables = e.names.eraseDups := by
    rw [Expr.tables, addTables_eq]
    exact foldl_eq_eraseDups (fun _ _ => rfl) e.names
  refine ⟨?_, hfirst, fun n => mem_tables⟩
  rw [hfirst]
  exact nodup_eraseDups e.names

end ViewTyping
