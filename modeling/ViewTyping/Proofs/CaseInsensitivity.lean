import ViewTyping.Proofs.DeclarationOrder
import ViewTyping.Proofs.Faults
import ViewTyping.Proofs.RegistrationOrder
import ViewTyping.Proofs.TypingShape

/-!
# The case of letters in views

`View.normalized` is a view with every name in it in its normal form: its own, those of tables and
columns in column references and groupings, those of sources, and aliases. Two views differ only in
the case of such names exactly if their normal forms are equal.

A program is compared with its normal form, stage by stage.

* `viewOrder_normalized`: its views come in the same order, or the same fault is reported.
* `typing_normalized`: its expressions have the same types.
* `addToCatalog_normalized`: its views get the same layouts.
* `check_caseInsensitive`: programs with one normal form have the same result.

A fault may differ in the text of an expression, and in an unknown field, which is named as
written; `Diagnostic.caseFolded` puts the latter into its normal form.
-/

set_option autoImplicit false

namespace ViewTyping

/-! ## Normal forms -/

def ColumnRef.normalized (ref : ColumnRef) : ColumnRef where
  table := Name.normalize ref.table
  column := { ref.column with name := Name.normalize ref.column.name }

mutual

/-- The expression with every name in it normalized. -/
def Expr.normalized : Expr → Expr
  | .column ref => .column ref.normalized
  | .literal value => .literal value
  | .unary op arg => .unary op arg.normalized
  | .binary op left right => .binary op left.normalized right.normalized
  | .call function args => .call function (normalizedExprs args)
  | .test t arg => .test t arg.normalized
  | .subquery select qualifiers groupBy =>
    .subquery (normalizedExprs select) (normalizedQualifiers qualifiers)
      (groupBy.map (·.map ColumnRef.normalized))
  | .aliased e name => .aliased e.normalized (Name.normalize name)

def normalizedExprs : List Expr → List Expr
  | [] => []
  | e :: es => e.normalized :: normalizedExprs es

def Qualifier.normalized : Qualifier → Qualifier
  | .source table => .source (Name.normalize table)
  | .filter e => .filter e.normalized
  | .join e => .join e.normalized

def normalizedQualifiers : List Qualifier → List Qualifier
  | [] => []
  | q :: qs => q.normalized :: normalizedQualifiers qs

end

def View.normalized (v : View) : View := ⟨Name.normalize v.name, v.select.map Expr.normalized⟩

/-- The program with every name in its views normalized. -/
def Program.normalized (p : Program) : Program := ⟨p.tables, p.views.map View.normalized⟩

theorem normalizedExprs_eq (es : List Expr) : normalizedExprs es = es.map Expr.normalized := by
  induction es with
  | nil => rfl
  | cons e es ih => rw [normalizedExprs, ih, List.map_cons]

theorem normalizedQualifiers_eq (qs : List Qualifier) :
    normalizedQualifiers qs = qs.map Qualifier.normalized := by
  induction qs with
  | nil => rfl
  | cons q qs ih => rw [normalizedQualifiers, ih, List.map_cons]

@[simp] theorem View.key_normalized (v : View) : v.normalized.key = v.key :=
  normalize_normalize v.name

/-! ## The names that are read -/

/-- The normal form reads the same names, normalized. -/
theorem names_normalized (e : Expr) : e.normalized.names = e.names.map Name.normalize := by
  induction e using Expr.induct with
  | column ref => rfl
  | literal value => rfl
  | unary op arg ih => exact ih
  | binary op left right ihl ihr =>
    rw [Expr.normalized, Expr.names, Expr.names, ihl, ihr, List.map_append]
  | call function args ih =>
    rw [Expr.normalized, Expr.names, Expr.names, normalizedExprs_eq, namesOfExprs_eq,
      namesOfExprs_eq, List.flatMap_map, List.map_flatMap, List.flatMap_congr ih]
  | test t arg ih => exact ih
  | subquery select qualifiers groupBy ihs ihq =>
    have hq : ∀ q ∈ qualifiers, q.normalized.names = q.names.map Name.normalize := by
      intro q hq
      cases q with
      | source table => rfl
      | filter e => exact ihq _ hq e rfl
      | join e => exact ihq _ hq e rfl
    have hg : ((groupBy.map (·.map ColumnRef.normalized)).getD []).map ColumnRef.table =
        ((groupBy.getD []).map ColumnRef.table).map Name.normalize := by
      cases groupBy with
      | none => rfl
      | some refs =>
        simp only [Option.map_some, Option.getD_some, List.map_map]
        rfl
    rw [Expr.normalized, Expr.names, Expr.names, hg, normalizedExprs_eq, normalizedQualifiers_eq,
      namesOfExprs_eq, namesOfExprs_eq, namesOfQualifiers_eq, namesOfQualifiers_eq,
      List.flatMap_map, List.flatMap_map, List.map_append, List.map_append, List.map_flatMap,
      List.map_flatMap, List.flatMap_congr ihs, List.flatMap_congr hq]
  | aliased e name ih => exact ih

/-- A fold in which a name counts the first time only may leave out repetitions. -/
theorem foldl_foldl_insertName {β : Type} {step : β → String → β}
    (habsorb : ∀ (ns : List String) n b, n ∈ ns → step (ns.foldl step b) n = ns.foldl step b)
    (ns : List String) (b : β) : (ns.foldl insertName []).foldl step b = ns.foldl step b := by
  induction ns using List.reverseRecOn with
  | nil => rfl
  | append_singleton ns n ih =>
    rw [List.foldl_append, List.foldl_append, List.foldl_cons, List.foldl_nil, List.foldl_cons,
      List.foldl_nil, insertName]
    split
    · rename_i hn
      have hn : n ∈ ns := by simpa [Program.mem_foldl_insertName] using hn
      rw [ih, habsorb ns n b hn]
    · rw [List.foldl_append, ih, List.foldl_cons, List.foldl_nil]

namespace Program

variable {p q : Program} {c : Catalog}

/-- The views that a view reads come from all names in its outputs. -/
theorem readKeys_eq (p : Program) (v : View) : p.readKeys v =
    (((v.select.flatMap Expr.names).map Name.normalize).filter (· ∈ p.keys)).foldl
      insertName [] := by
  let step (keys : List String) (n : String) : List String :=
    if Name.normalize n ∈ p.keys then insertName keys (Name.normalize n) else keys
  have hfold : ∀ (ns keys : List String),
      ((ns.map Name.normalize).filter (· ∈ p.keys)).foldl insertName keys =
        ns.foldl step keys := by
    intro ns keys
    simp only [List.foldl_filter, List.foldl_map, decide_eq_true_eq, step]
  have habsorb : ∀ (ns : List String) n keys, n ∈ ns → step (ns.foldl step keys) n = ns.foldl step keys := by
    intro ns n keys hn
    by_cases hk : Name.normalize n ∈ p.keys
    · have hmem : Name.normalize n ∈ ns.foldl step keys := by
        rw [← hfold, mem_foldl_insertName, List.mem_filter]
        exact .inr ⟨List.mem_map_of_mem hn, by simpa using hk⟩
      exact (if_pos hk).trans (if_pos hmem)
    · exact if_neg hk
  have hselect : ∀ (es : List Expr) (keys : List String),
      (es.flatMap Expr.tables).foldl step keys = (es.flatMap Expr.names).foldl step keys := by
    intro es
    induction es with
    | nil => intro keys; rfl
    | cons e es ih =>
      intro keys
      rw [List.flatMap_cons, List.flatMap_cons, List.foldl_append, List.foldl_append, ih,
        Expr.tables, addTables_eq, foldl_foldl_insertName habsorb]
  rw [readKeys, hfold, hfold, View.reads, hselect]

theorem keys_normalized : p.normalized.keys = p.keys := by
  unfold keys normalized
  rw [List.map_map]
  exact List.map_congr_left fun v _ => v.key_normalized

theorem readKeys_normalized (v : View) : p.normalized.readKeys v.normalized = p.readKeys v := by
  rw [readKeys_eq, readKeys_eq, keys_normalized, View.normalized, List.flatMap_map]
  simp only [names_normalized, List.map_flatMap, List.map_map, Function.comp_def,
    normalize_normalize]

theorem nameGraph_normalized : p.normalized.nameGraph = p.nameGraph := by
  have hreads : ∀ n m, (∃ v ∈ p.normalized.views, v.key = n ∧ m ∈ p.normalized.readKeys v) ↔
      ∃ v ∈ p.views, v.key = n ∧ m ∈ p.readKeys v := by
    intro n m
    have hmem : ∀ w, w ∈ p.normalized.views ↔ ∃ v ∈ p.views, v.normalized = w := fun _ =>
      List.mem_map
    simp only [hmem, exists_exists_and_eq_and, View.key_normalized, readKeys_normalized]
  unfold nameGraph
  simp only [keys_normalized, hreads]

/-! ## The order of the views -/

theorem addViews_normalized : ∀ (g : DependencyGraph) (vs : List View),
    addViews g (vs.map View.normalized) = addViews g vs
  | _, [] => rfl
  | g, v :: vs => by
    have hresolve : g.resolve v.normalized.name = g.resolve v.name := by
      simp [DependencyGraph.resolve, View.normalized]
    have hadd : g.addView v.normalized.name = g.addView v.name := by
      unfold DependencyGraph.addView
      rw [hresolve]
      simp [View.normalized]
    have hname : Name.normalize v.normalized.name = Name.normalize v.name :=
      normalize_normalize v.name
    rw [List.map_cons, addViews, addViews, hresolve, hadd, hname, addViews_normalized _ vs]

/-- **The views of the normal form come in the same order**, or are refused alike. -/
theorem viewOrder_normalized :
    p.normalized.viewOrder c = (p.viewOrder c).map (List.map View.normalized) := by
  have hfind : (p.normalized.views.find? fun v => c.namesTable v.name) =
      (p.views.find? fun v => c.namesTable v.name).map View.normalized := by
    simp [normalized, View.normalized, List.find?_map, Function.comp_def]
  cases hclash : p.views.find? fun v => c.namesTable v.name with
  | some v =>
    unfold viewOrder
    rw [hfind, hclash]
    simp [View.normalized, Except.map]
  | none =>
    have hapart : p.Apart c := fun v hv => by simpa using List.find?_eq_none.1 hclash v hv
    have hapart' : p.normalized.Apart c := fun v hv => by
      rw [hclash] at hfind
      simpa using List.find?_eq_none.1 hfind v hv
    by_cases hnd : p.keys.Nodup
    · have hnd' : p.normalized.keys.Nodup := by rwa [keys_normalized]
      have hreads : ∀ v ∈ p.views, ∀ w ∈ p.normalized.views, w.key = v.key →
          p.normalized.readKeys w = p.readKeys v := by
        intro v hv w hw hkey
        obtain ⟨u, hu, rfl⟩ := List.mem_map.1 hw
        rw [eq_of_key_eq hnd hu hv (u.key_normalized.symm.trans hkey), readKeys_normalized]
      refine viewOrder_congr nameGraph_normalized hreads hapart hapart' hnd hnd'
        fun name => ?_
      simp only [view?, normalized, List.find?_map, Function.comp_def, View.key_normalized]
    · obtain ⟨s, hs⟩ := graph_error hnd
      have hs' : p.normalized.graph = .error (.scopeAlreadyRegistered s) := by
        unfold graph at hs ⊢
        rw [normalized, addViews_normalized]
        cases h : addViews {} p.views with
        | error d => rw [h] at hs; exact hs
        | ok g => rw [h] at hs; cases hs
      rw [viewOrder_of_apart hapart, viewOrder_of_apart hapart', hs, hs']
      rfl

end Program

/-! ## Types and layouts -/

/-- The diagnostic with an unknown field in its normal form. -/
def Diagnostic.caseFolded : Diagnostic → Diagnostic
  | unknownField scope field => unknownField scope (Name.normalize field)
  | d => d

/-- What is kept of a fault when names are normalized. -/
def Diagnostic.essence : Diagnostic → Diagnostic := Diagnostic.caseFolded ∘ Diagnostic.withoutText

/-- Typing looks at the same shape. -/
theorem alike_normalized (e : Expr) :
    Expr.Alike (fun ref ref' => ref' = ref.normalized) e e.normalized := by
  induction e using Expr.induct with
  | column ref => exact .column rfl
  | literal value => exact .literal value
  | unary op arg ih => exact .unary ih
  | binary op left right ihl ihr => exact .binary ihl ihr
  | call function args ih =>
    rw [Expr.normalized, normalizedExprs_eq]
    by_cases hlen : args.length = 1
    · obtain ⟨arg, rfl⟩ := List.length_eq_one_iff.1 hlen
      exact .aggregate (ih arg (.head _))
    · exact .constraint (by simp) hlen
  | test t arg ih => exact .test ih
  | subquery select qualifiers groupBy ihs ihq =>
    rw [Expr.normalized, normalizedExprs_eq]
    by_cases hlen : select.length = 1
    · obtain ⟨e, rfl⟩ := List.length_eq_one_iff.1 hlen
      exact .value (ihs e (.head _))
    · exact .rows (by simp) hlen
  | aliased e name ih => exact .aliasedLeft (.aliasedRight ih)

section
variable {c : Catalog} (hc : c.Consistent)
include hc

theorem columnType_normalized (ref : ColumnRef) :
    (c.columnType ref).mapError Diagnostic.essence =
      (c.columnType ref.normalized).mapError Diagnostic.essence := by
  unfold Catalog.columnType Catalog.typeOf Catalog.field Catalog.layout
  simp only [ColumnRef.normalized, Catalog.isView_normalize, Catalog.view?_normalize]
  split
  · rfl
  split
  · -- no table has either spelling of the view's name
    rename_i hview
    obtain ⟨l, hl⟩ := Option.isSome_iff_exists.1 hview
    have hl' : c.view? (Name.normalize ref.table) = some l := by rw [Catalog.view?_normalize, hl]
    simp only [hl, hc.table?_of_view? hl, hc.table?_of_view? hl', (Catalog.view?_eq_some hl).2.1,
      if_true, normalize_normalize]
    cases l.field? (Name.normalize ref.column.name) with
    | some f => rfl
    | none => simp [Except.map, Except.mapError, Diagnostic.essence, Diagnostic.withoutText,
        Diagnostic.caseFolded]
  · rfl

/-- **The normal form has the same type**, or the same fault but for its details. -/
theorem typing_normalized (e : Expr) :
    (e.typing c.columnType).result.mapError Diagnostic.essence =
      (e.normalized.typing c.columnType).result.mapError Diagnostic.essence := by
  refine typing_alike (fun ref ref' href => ?_) (alike_normalized e)
  rw [href]
  exact columnType_normalized hc ref

theorem outputField_normalized (view : String) (e : Expr) :
    (e.outputField c.columnType view).mapError Diagnostic.essence =
      (e.normalized.outputField c.columnType view).mapError Diagnostic.essence := by
  refine mapError_bind ?_ fun name _ => mapError_map _ (typing_normalized hc e)
  cases e <;> simp [Expr.outputName, Expr.alias?, Expr.column?, Expr.unaliased, Expr.normalized,
    ColumnRef.normalized, Except.mapError, Diagnostic.essence, Diagnostic.withoutText]

theorem viewLayout_normalized (v : View) :
    (c.viewLayout v.name v.select).result.mapError Diagnostic.essence =
      (c.viewLayout v.normalized.name v.normalized.select).result.mapError
        Diagnostic.essence := by
  have hguard : (c.isView v.normalized.name || c.namesTable v.normalized.name) =
      (c.isView v.name || c.namesTable v.name) := by simp [View.normalized]
  rw [result_viewLayout, result_viewLayout, hguard, View.key_normalized]
  split
  · rfl
  · rw [result_foldlM_addOutput, result_foldlM_addOutput, List.foldlM_map, List.foldlM_map]
    refine mapError_foldlM (I := fun _ => True) (fun l e _ => ?_) (fun _ _ _ _ _ => trivial)
      v.select _ trivial
    exact mapError_bind (outputField_normalized hc v.key e) fun _ _ => rfl

end

namespace Program

variable {p q : Program} {c : Catalog}

/-- **Views get the layouts of their normal forms.** -/
theorem addToCatalog_normalized (hc : c.Consistent) (vs : List View) :
    (addToCatalog c vs).mapError Diagnostic.essence =
      (addToCatalog c (vs.map View.normalized)).mapError Diagnostic.essence := by
  refine mapError_foldlM (I := Catalog.Consistent) (fun c v hc => ?_) (fun c v c' hc h => ?_)
    vs c hc
  · exact mapError_map _ (viewLayout_normalized hc v)
  · obtain ⟨l, hl, rfl⟩ := exceptMap_eq_ok.1 h
    obtain ⟨hwf, hn, hfree⟩ := hc.grants (.view v hl)
    exact hc.push hwf hn hfree

theorem check_normalized :
    p.check.mapError Diagnostic.essence = p.normalized.check.mapError Diagnostic.essence := by
  have htables : p.normalized.tableCatalog = p.tableCatalog := rfl
  rw [check_eq, check_eq, htables]
  refine mapError_bind rfl fun c hc => ?_
  rw [viewOrder_normalized]
  cases p.viewOrder c with
  | error d => rfl
  | ok vs => exact addToCatalog_normalized (reachable_tableCatalog hc).consistent vs

/-- **Views are named without regard to the case of letters.** A diagnostic may differ in the text
of an expression and in the case of an unknown field, which is named as an output writes it. -/
theorem check_caseInsensitive (htables : q.tables = p.tables)
    (hviews : q.views.map View.normalized = p.views.map View.normalized) :
    (∀ c, q.check = .ok c ↔ p.check = .ok c) ∧
    (∀ d, p.check = .error d → ∃ d', q.check = .error d' ∧
      d'.withoutText.caseFolded = d.withoutText.caseFolded) ∧
    ∀ scope field, p.check = .error (.unknownField scope field) →
      ∃ v ∈ p.views, ∃ e ∈ v.select, ∃ ref ∈ e.columns,
        Name.normalize ref.table = Name.normalize scope ∧ ref.column.name = field := by
  have hnormal : q.normalized = p.normalized := by rw [normalized, normalized, htables, hviews]
  have hcheck : q.check.mapError Diagnostic.essence = p.check.mapError Diagnostic.essence :=
    calc q.check.mapError Diagnostic.essence
      _ = q.normalized.check.mapError Diagnostic.essence := check_normalized
      _ = p.normalized.check.mapError Diagnostic.essence := by rw [hnormal]
      _ = p.check.mapError Diagnostic.essence := check_normalized.symm
  refine ⟨fun c => ?_, fun d hd => ?_, fun scope field h => ?_⟩
  · have hok : ∀ x : Except Diagnostic Catalog,
        x.mapError Diagnostic.essence = .ok c ↔ x = .ok c := fun x => by
      cases x <;> simp [Except.mapError]
    rw [← hok, hcheck, hok]
  · rw [hd] at hcheck
    cases hq : q.check with
    | ok c => rw [hq] at hcheck; cases hcheck
    | error d' =>
      rw [hq] at hcheck
      exact ⟨d', rfl, Except.error.inj hcheck⟩
  · rcases faults_check _ h with ⟨_, h⟩ | ⟨ref, ⟨v, hv, e, he, hr⟩, href⟩
    · cases h
    · exact ⟨v, hv, e, he, ref, hr, href⟩

/-- A sum over a field of the view `Loads`, for each host that has an id; the view and the field are
written as given. -/
def hostReport (view field : String) : Program where
  tables := totalLoad.tables
  views := [
    ⟨"report", [.aliased (.subquery [.call .sum [.column ⟨view, ⟨field, .integer, false⟩⟩]]
      [.source view, .filter (.test .isNotNull (.column ⟨view, ⟨"id", .string, false⟩⟩))]
      (some [⟨view, ⟨"id", .string, false⟩⟩])) "total"]⟩,
    ⟨"Loads", [.column ⟨"hosts", ⟨"id", .string, false⟩⟩,
      .column ⟨"hosts", ⟨"load", .integer, true⟩⟩]⟩]

def hostReportCatalog : Catalog :=
  ⟨[⟨"hosts", .table, [⟨"id", 0, .string⟩, ⟨"load", 1, .intVar⟩]⟩,
    ⟨"LOADS", .view, [⟨"ID", 0, .string⟩, ⟨"LOAD", 1, .intVar⟩]⟩,
    ⟨"REPORT", .view, [⟨"TOTAL", 0, .intVar⟩]⟩]⟩

theorem hostReport_normalized {view view' field field' : String}
    (hview : Name.normalize view' = Name.normalize view)
    (hfield : Name.normalize field' = Name.normalize field) :
    (hostReport view' field').views.map View.normalized =
      (hostReport view field).views.map View.normalized := by
  simp [hostReport, View.normalized, Expr.normalized, normalizedExprs, normalizedQualifiers,
    Qualifier.normalized, ColumnRef.normalized, hview, hfield]

/-- One spelling of a report is accepted as another is; of a field that is unknown each spelling is
reported as written. -/
theorem check_caseInsensitive_hostReport :
    ((hostReport "Loads" "Load").check = .ok hostReportCatalog ∧
      (hostReport "LOADS" "load").check = .ok hostReportCatalog) ∧
    (hostReport "Loads" "Speed").check = .error (.unknownField "LOADS" "Speed") ∧
    ∃ d, (hostReport "LOADS" "speed").check = .error d ∧
      d.withoutText.caseFolded = .unknownField "LOADS" "SPEED" := by
  have hok : (hostReport "Loads" "Load").check = .ok hostReportCatalog := by decide +kernel
  have hfault : (hostReport "Loads" "Speed").check = .error (.unknownField "LOADS" "Speed") := by
    decide +kernel
  have hview : Name.normalize "LOADS" = Name.normalize "Loads" := by decide +kernel
  have hload : Name.normalize "load" = Name.normalize "Load" := by decide +kernel
  have hspeed : Name.normalize "speed" = Name.normalize "Speed" := by decide +kernel
  have htables (view field view' field' : String) :
      (hostReport view field).tables = (hostReport view' field').tables := rfl
  refine ⟨⟨hok, ?_⟩, hfault, ?_⟩
  · exact ((check_caseInsensitive (htables ..) (hostReport_normalized hview hload)).1 _).2 hok
  · obtain ⟨d, hd, hsame⟩ := (check_caseInsensitive (htables ..)
      (hostReport_normalized hview hspeed)).2.1 _ hfault
    have hfolded : (Diagnostic.unknownField "LOADS" "Speed").withoutText.caseFolded =
        .unknownField "LOADS" "SPEED" := by decide +kernel
    exact ⟨d, hd, hsame.trans hfolded⟩

end Program

end ViewTyping
