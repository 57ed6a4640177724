import ViewTyping.Proofs.CatalogHistory
import ViewTyping.Proofs.CheckRun

/-!
# The log of registrations

Typing reports events of its own, also for outputs of views that are refused later. Those aside
(`Logged.Quiet`), a registration reports the layout that it enters, and nothing if it enters none
(`announces_tableLayout`, `announces_viewLayout`).

* `milestones_performAll`: the registrations that calls report are the layouts they enter.
* `Run.Told`: what a check has reported and registered. A step keeps it (`Told.registerTable`,
  `Told.typeView`), so every state that a check passes has it (`Passes.told`).
* `log_mirrors_catalog`: the log lists what the catalog lists, after every call and at every stage
  of a check.
-/

set_option autoImplicit false

namespace ViewTyping

open Catalog (Call Outcome)

/-! ## What the log shows -/

/-- What the log shows of an event. -/
def Event.entry (e : Event) : Level × String × List (String × Attribute) :=
  (e.level, e.message, e.attributes)

/-- A registration, or the begin of one by a check. -/
def Event.isMilestone (e : Event) : Bool := e.level == .debug

def Event.isRegistration : Event → Bool
  | registeredTable .. | registeredView .. => true
  | typedField .. | typingView _ | typedSubquery .. => false

/-- The typing of a view begins, or a view has been registered. -/
def Event.isViewStep : Event → Bool
  | typingView _ | registeredView .. => true
  | registeredTable .. | typedField .. | typedSubquery .. => false

def ScopeKind.word : ScopeKind → String
  | table => "table"
  | view => "view"

/-- The line of the log that stands for a scope: its name, how many fields it has, and their
types. -/
def Layout.entry (l : Layout) : Level × String × List (String × Attribute) :=
  (.debug, "registered " ++ l.kind.word, [(l.kind.word, .text l.scope),
    ("fields", .count l.fields.length), ("tuple", .text (ValueType.renderTuple l.types))])

/-- The event that reports the registration of a scope. -/
def Layout.event (l : Layout) : Event :=
  match l.kind with
  | .table => .registeredTable l.scope l.types
  | .view => .registeredView l.scope l.types

theorem entry_event (l : Layout) : l.event.entry = l.entry := by
  obtain ⟨scope, kind, fields⟩ := l
  cases kind <;> simp [Layout.event, Event.entry, Event.level, Event.message, Event.attributes,
    Layout.entry, ScopeKind.word, Layout.types]

@[simp] theorem isMilestone_event (l : Layout) : l.event.isMilestone = true := by
  unfold Layout.event
  cases l.kind <;> rfl

@[simp] theorem isRegistration_event (l : Layout) : l.event.isRegistration = true := by
  unfold Layout.event
  cases l.kind <;> rfl

@[simp] theorem isRegistration_typingView (name : String) :
    (Event.typingView name).isRegistration = false := rfl

theorem isMilestone_of_isRegistration {e : Event} (h : e.isRegistration = true) :
    e.isMilestone = true := by
  cases e <;> first | rfl | cases h

theorem isMilestone_of_isViewStep {e : Event} (h : e.isViewStep = true) :
    e.isMilestone = true := by
  cases e <;> first | rfl | cases h

/-- **The log lists what the catalog lists**, one line for each scope and in the same order. -/
def Mirrors (events : List Event) (c : Catalog) : Prop :=
  (events.filter Event.isRegistration).map Event.entry = c.layouts.map Layout.entry

/-- A part of the milestones can be picked from all events as well. -/
theorem filter_milestones {q : Event → Bool} (hq : ∀ e, q e = true → e.isMilestone = true)
    (events : List Event) :
    (events.filter Event.isMilestone).filter q = events.filter q := by
  rw [List.filter_filter]
  refine List.filter_congr fun e _ => ?_
  cases h : q e with
  | false => rfl
  | true => simp [hq e h]

theorem mirrors_of_milestones {events : List Event} {c : Catalog}
    (h : events.filter Event.isRegistration = c.layouts.map Layout.event) : Mirrors events c := by
  rw [Mirrors, h, List.map_map]
  exact List.map_congr_left fun l _ => entry_event l

/-! ## Computations without milestones -/

namespace Logged

variable {α β : Type}

/-- The computation reports no milestone, whether it fails or not. -/
def Quiet (x : Logged α) : Prop := x.events.filter Event.isMilestone = []

theorem quiet_of_nil {x : Logged α} (h : x.events = []) : x.Quiet := by rw [Quiet, h]; rfl

theorem Quiet.bind {x : Logged α} {f : α → Logged β} (hx : x.Quiet) (hf : ∀ a, (f a).Quiet) :
    (x >>= f).Quiet := by
  unfold Quiet
  cases h : x.result with
  | error d =>
    rw [events_bind_of_error h]
    exact hx
  | ok a =>
    rw [events_bind_of_ok h, List.filter_append, hx, hf a]
    rfl

theorem Quiet.foldlM {f : β → α → Logged β} (hf : ∀ b a, (f b a).Quiet) :
    ∀ (as : List α) (b : β), (as.foldlM f b).Quiet
  | [], _ => quiet_of_nil rfl
  | a :: as, b => by
    rw [List.foldlM_cons]
    exact (hf b a).bind fun b' => Quiet.foldlM hf as b'

theorem Quiet.mapM {f : α → Logged β} (hf : ∀ a, (f a).Quiet) :
    ∀ as : List α, (as.mapM f).Quiet
  | [] => by rw [List.mapM_nil]; exact quiet_of_nil rfl
  | a :: as => by
    rw [List.mapM_cons]
    exact (hf a).bind fun b => (Quiet.mapM hf as).bind fun bs => quiet_of_nil rfl

end Logged

open Logged (Quiet quiet_of_nil)

/-- **Typing reports no milestone.** -/
theorem quiet_typing (column : ColumnRef → Except Diagnostic ValueType) (e : Expr) :
    (e.typing column).Quiet := by
  induction e using Expr.typing.induct with
  | case1 ref => rw [Expr.typing]; exact quiet_of_nil rfl
  | case2 value => rw [Expr.typing]; exact quiet_of_nil rfl
  | case3 op arg ih => rw [Expr.typing]; exact ih.bind fun _ => quiet_of_nil rfl
  | case4 op left right ihl ihr =>
    rw [Expr.typing]
    exact ihl.bind fun _ => ihr.bind fun _ => quiet_of_nil rfl
  | case5 function arg ih =>
    rw [Expr.typing]
    refine ih.bind fun t => ?_
    cases function.aggregateType? t <;> exact quiet_of_nil rfl
  | case6 function args hne t ht =>
    rw [Expr.typing, ht]
    · exact quiet_of_nil rfl
    · exact hne
  | case7 function args hne hnone =>
    rw [Expr.typing, hnone]
    · exact quiet_of_nil rfl
    · exact hne
  | case8 t arg ih => rw [Expr.typing]; exact ih.bind fun _ => quiet_of_nil rfl
  | case9 e qualifiers groupBy ih =>
    rw [Expr.typing]
    refine ih.bind fun t => ?_
    have hemit : (Logged.emit (.typedSubquery
        (Expr.subquery [e] qualifiers groupBy).render t)).Quiet := rfl
    exact hemit.bind fun _ => quiet_of_nil rfl
  | case10 select qualifiers groupBy hne =>
    rw [Expr.typing]
    · exact quiet_of_nil rfl
    · exact hne
  | case11 e name ih => rw [Expr.typing]; exact ih

/-- Neither does the next output of a view: it may be refused yet. -/
theorem quiet_addOutput (c : Catalog) (l : Layout) (e : Expr) : (c.addOutput l e).Quiet := by
  unfold Catalog.addOutput
  have hname : (Logged.ofExcept (e.outputName l.scope)).Quiet := quiet_of_nil rfl
  refine hname.bind fun name => (quiet_typing c.columnType e).bind fun t => ?_
  have hemit : (Logged.emit (.typedField l.scope name t)).Quiet := rfl
  refine hemit.bind fun _ => ?_
  cases l.push? name t <;> exact quiet_of_nil rfl

/-! ## Registrations -/

/-- The layouts that a registration enters: one, or none if it is refused. -/
def granted : Except Diagnostic Layout → List Layout
  | .ok l => [l]
  | .error _ => []

/-- The milestones of the computation are the layouts that it grants. -/
def Logged.Announces (x : Logged Layout) : Prop :=
  x.events.filter Event.isMilestone = (granted x.result).map Layout.event

theorem announces_of_error {x : Logged Layout} {d : Diagnostic} (h : x.result = .error d)
    (hx : x.Quiet) : x.Announces := by
  rw [Logged.Announces, h]
  exact hx

/-- A layout that is reported as soon as it is complete. -/
theorem announces_report {x : Logged Layout} {event : Layout → Event} (hx : x.Quiet)
    (hevent : ∀ l, x.result = .ok l → event l = l.event) :
    (do let l ← x; Logged.emit (event l); return l : Logged Layout).Announces := by
  cases h : x.result with
  | error d =>
    refine announces_of_error (d := d) ?_ ?_
    · rw [Logged.result_report, h]
    · rw [Quiet, Logged.events_bind_of_error h]
      exact hx
  | ok l =>
    have hevents : (do let l ← x; Logged.emit (event l); return l : Logged Layout).events =
        x.events ++ [l.event] := by
      rw [Logged.events_bind_of_ok h, ← hevent l h]
      rfl
    rw [Logged.Announces, hevents, Logged.result_report, h, List.filter_append, hx]
    simp [granted]

theorem announces_tableLayout (c : Catalog) (t : Table) : (c.tableLayout t).Announces := by
  have hkind : ∀ l, (c.tableLayout t).result = .ok l → l.kind = .table := fun l h =>
    (tableLayout_iff.1 h).2.2.kind
  rw [result_tableLayout] at hkind
  unfold Catalog.tableLayout
  split at hkind
  · rename_i htaken
    rw [if_pos htaken]
    exact announces_of_error rfl rfl
  · rename_i hfree
    rw [if_neg hfree]
    refine announces_report (quiet_of_nil rfl) fun l hl => ?_
    rw [Layout.event, hkind l hl]

theorem announces_viewLayout (c : Catalog) (v : View) :
    (c.viewLayout v.name v.select).Announces := by
  have hkind : ∀ l, (c.viewLayout v.name v.select).result = .ok l → l.kind = .view := fun l h =>
    (viewLayout_iff.1 h).2.2.kind
  rw [result_viewLayout] at hkind
  unfold Catalog.viewLayout
  simp only [Catalog.isView_normalize, Catalog.namesTable_normalize]
  split at hkind
  · rename_i htaken
    rw [if_pos htaken]
    exact announces_of_error rfl rfl
  · rename_i hfree
    rw [if_neg hfree]
    refine announces_report (Quiet.foldlM (quiet_addOutput c) _ _) fun l hl => ?_
    rw [Layout.event, hkind l hl]

/-! ## Calls -/

theorem layouts_afterRegistration (c : Catalog) (x : Except Diagnostic Layout) :
    (c.afterRegistration x).layouts = c.layouts ++ granted x := by
  cases x with
  | ok l => rfl
  | error d => exact (List.append_nil _).symm

/-- **What a call reports and what it enters.** -/
theorem milestones_perform (c : Catalog) (call : Call) : ∃ new : List Layout,
    (c.perform call).catalog.layouts = c.layouts ++ new ∧
      (c.perform call).events.filter Event.isMilestone = new.map Layout.event := by
  cases call with
  | registerTable t =>
    exact ⟨_, layouts_afterRegistration c _, announces_tableLayout c t⟩
  | registerView name select =>
    exact ⟨_, layouts_afterRegistration c _, announces_viewLayout c ⟨name, select⟩⟩
  | infer e => exact ⟨[], (List.append_nil _).symm, quiet_typing c.columnType e⟩
  | inferTuple es =>
    exact ⟨[], (List.append_nil _).symm, Quiet.mapM (quiet_typing c.columnType) es⟩
  | _ => exact ⟨[], (List.append_nil _).symm, rfl⟩

/-- **What calls report and what they enter**, from any catalog on. -/
theorem milestones_performAll (calls : List Call) (c : Catalog) : ∃ new : List Layout,
    (c.after calls).layouts = c.layouts ++ new ∧
      ((c.performAll calls).flatMap Outcome.events).filter Event.isMilestone =
        new.map Layout.event := by
  induction calls generalizing c with
  | nil => exact ⟨[], (List.append_nil _).symm, rfl⟩
  | cons call calls ih =>
    obtain ⟨new₁, hlayouts₁, hevents₁⟩ := milestones_perform c call
    obtain ⟨new₂, hlayouts₂, hevents₂⟩ := ih (c.perform call).catalog
    refine ⟨new₁ ++ new₂, ?_, ?_⟩
    · rw [← List.append_assoc, ← hlayouts₁]
      exact hlayouts₂
    · rw [Catalog.performAll, List.flatMap_cons, List.filter_append, hevents₁, hevents₂,
        List.map_append]

/-! ## Checks -/

theorem events_registerTable (c : Catalog) (t : Table) :
    (c.registerTable t).events = (c.tableLayout t).events :=
  Logged.events_map c.push (c.tableLayout t)

theorem events_typeView (c : Catalog) (v : View) : (Program.typeView v c).events =
    .typingView v.name :: (c.viewLayout v.name v.select).events := by
  have hregister : (c.registerView v.name v.select).events =
      (c.viewLayout v.name v.select).events := Logged.events_map c.push _
  rw [Program.typeView, Logged.events_bind_of_ok rfl, hregister]
  rfl

namespace Run

variable {r : Run} {tables : List Layout} {done : List (View × Layout)} {last : Option View}

/-- **What a check has reported and registered:** the tables, then the views, each after the begin
of its typing. A view that is being typed when a fault is found is reported, but not registered. -/
structure Told (r : Run) (tables : List Layout) (done : List (View × Layout))
    (last : Option View) : Prop where
  layouts : r.catalog.layouts = tables ++ done.map Prod.snd
  events : r.events.filter Event.isMilestone = tables.map Layout.event ++
    done.flatMap (fun x => [.typingView x.1.name, x.2.event]) ++
      last.toList.map fun v => .typingView v.name
  tables : ∀ l ∈ tables, l.kind = .table
  views : ∀ x ∈ done, x.1.Stored x.2
  fault : last.isSome = true → r.fault?.isSome = true

theorem told_start : Told {} [] [] none :=
  ⟨rfl, rfl, fun _ h => (by cases h), fun _ h => (by cases h), fun h => (by cases h)⟩

theorem Told.with_fault (h : r.Told tables done last) (d : Diagnostic) :
    Told { r with fault? := some d } tables done last :=
  ⟨h.layouts, h.events, h.tables, h.views, fun _ => rfl⟩

theorem Told.registerTable (h : r.Told tables [] none) (t : Table) :
    ∃ tables', (r.step (·.registerTable t)).Told tables' [] none := by
  cases hfault : r.fault? with
  | some d => exact ⟨tables, by simpa only [step, hfault] using h⟩
  | none =>
    have hevents := h.events
    have htold := announces_tableLayout r.catalog t
    simp only [step, hfault, result_registerTable, events_registerTable]
    cases hl : (r.catalog.tableLayout t).result with
    | error d =>
      rw [Logged.Announces, hl] at htold
      refine ⟨tables, h.layouts, ?_, h.tables, h.views, fun _ => rfl⟩
      simp [Except.map, hevents, htold, granted]
    | ok l =>
      rw [Logged.Announces, hl] at htold
      refine ⟨tables ++ [l], ?_, ?_, fun l' hl' => ?_, h.views, fun h => by cases h⟩
      · simp [Except.map, Catalog.push, h.layouts]
      · simp [Except.map, hevents, htold, granted]
      · rcases List.mem_append.1 hl' with hl' | hl'
        · exact h.tables l' hl'
        · rw [List.mem_singleton.1 hl']
          exact (tableLayout_iff.1 hl).2.2.kind

theorem Told.typeView (h : r.Told tables done last) (v : View) :
    ∃ done' last', (r.step (Program.typeView v)).Told tables done' last' := by
  cases hfault : r.fault? with
  | some d => exact ⟨done, last, by simpa only [step, hfault] using h⟩
  | none =>
    -- the run has not ended, so no view is left unregistered
    obtain rfl : last = none := by
      cases last with
      | none => rfl
      | some v => simpa [hfault] using h.fault rfl
    have hevents := h.events
    have htold := announces_viewLayout r.catalog v
    have hbegin : (Event.typingView v.name).isMilestone = true := rfl
    simp only [step, hfault, result_typeView, events_typeView]
    cases hl : (r.catalog.viewLayout v.name v.select).result with
    | error d =>
      rw [Logged.Announces, hl] at htold
      refine ⟨done, some v, h.layouts, ?_, h.tables, h.views, fun _ => rfl⟩
      simp [Except.map, hevents, htold, granted, hbegin]
    | ok l =>
      rw [Logged.Announces, hl] at htold
      refine ⟨done ++ [(v, l)], none, ?_, ?_, h.tables, fun x hx => ?_, fun h => by cases h⟩
      · simp [Except.map, Catalog.push, h.layouts]
      · simp [Except.map, hevents, htold, granted, hbegin]
      · rcases List.mem_append.1 hx with hx | hx
        · exact h.views x hx
        · obtain rfl := List.mem_singleton.1 hx
          have hlayout := (viewLayout_iff.1 hl).2.2
          exact ⟨hlayout.scope, hlayout.kind⟩

theorem Told.registerTables (h : r.Told tables [] none) (ts : List Table) :
    ∃ tables', (ts.foldl (fun r t => r.step (·.registerTable t)) r).Told tables' [] none := by
  induction ts generalizing r tables with
  | nil => exact ⟨tables, h⟩
  | cons t ts ih =>
    obtain ⟨tables', h'⟩ := h.registerTable t
    exact ih h'

theorem Told.typeViews (h : r.Told tables done last) (vs : List View) :
    ∃ done' last',
      (vs.foldl (fun r v => r.step (Program.typeView v)) r).Told tables done' last' := by
  induction vs generalizing r done last with
  | nil => exact ⟨done, last, h⟩
  | cons v vs ih =>
    obtain ⟨done', last', h'⟩ := h.typeView v
    exact ih h'

/-- Of the milestones, the registrations are the layouts, the tables first. -/
theorem Told.registrations (h : r.Told tables done last) :
    r.events.filter Event.isRegistration = r.catalog.layouts.map Layout.event := by
  have htables : (tables.map Layout.event).filter Event.isRegistration = tables.map Layout.event :=
    List.filter_eq_self.2 (by simp)
  have hlast :
      (last.toList.map fun v => Event.typingView v.name).filter Event.isRegistration = [] :=
    List.filter_eq_nil_iff.2 (by simp)
  have hdone : (done.flatMap fun x => [Event.typingView x.1.name, x.2.event]).filter
      Event.isRegistration = (done.map Prod.snd).map Layout.event := by
    rw [List.filter_flatMap, List.map_map, List.map_eq_flatMap]
    simp
  rw [← filter_milestones fun e => isMilestone_of_isRegistration, h.events, h.layouts,
    List.filter_append, List.filter_append, htables, hdone, hlast, List.append_nil,
    List.map_append]

/-- Of the milestones, those of views stand in pairs, and at most one is left over. -/
theorem Told.viewSteps (h : r.Told tables done last) : r.events.filter Event.isViewStep =
    (done.flatMap fun x => [.typingView x.1.name, .registeredView x.1.key x.2.types]) ++
      last.toList.map fun v => .typingView v.name := by
  have htables : (tables.map Layout.event).filter Event.isViewStep = [] := by
    refine List.filter_eq_nil_iff.2 fun e he => ?_
    obtain ⟨l, hl, rfl⟩ := List.mem_map.1 he
    simp [Layout.event, h.tables l hl, Event.isViewStep]
  have hlast : (last.toList.map fun v => Event.typingView v.name).filter Event.isViewStep =
      last.toList.map fun v => .typingView v.name :=
    List.filter_eq_self.2 (by simp [Event.isViewStep])
  have hdone : (done.flatMap fun x => [Event.typingView x.1.name, x.2.event]).filter
      Event.isViewStep =
        done.flatMap fun x => [.typingView x.1.name, .registeredView x.1.key x.2.types] := by
    rw [List.filter_flatMap]
    refine List.flatMap_congr fun x hx => ?_
    obtain ⟨hscope, hkind⟩ := h.views x hx
    simp [Layout.event, hkind, hscope, Event.isViewStep]
  rw [← filter_milestones fun e => isMilestone_of_isViewStep, h.events,
    List.filter_append, List.filter_append, htables, hdone, hlast, List.nil_append]

end Run

namespace Program

/-- The states that a check passes: while it registers tables, while it types views, and at its
end. -/
inductive Passes (p : Program) : Run → Prop
  | tables {ts : List Table} (h : ts <+: p.tables) :
      Passes p (ts.foldl (fun r t => r.step (·.registerTable t)) {})
  | views {vs vs' : List View} (htables : p.tableRun.fault? = none)
      (horder : p.viewOrder p.tableRun.catalog = .ok vs) (h : vs' <+: vs) :
      Passes p (vs'.foldl (fun r v => r.step (typeView v)) p.tableRun)
  | finish : Passes p p.run

theorem told_run (p : Program) : ∃ tables done last, p.run.Told tables done last := by
  obtain ⟨tables, htables⟩ : ∃ tables, p.tableRun.Told tables [] none :=
    Run.told_start.registerTables p.tables
  unfold run
  cases hfault : p.tableRun.fault? with
  | some d => exact ⟨tables, [], none, by simpa only [hfault] using htables⟩
  | none =>
    simp only [hfault]
    cases p.viewOrder p.tableRun.catalog with
    | error d => exact ⟨tables, [], none, htables.with_fault d⟩
    | ok vs =>
      obtain ⟨done, last, h⟩ := htables.typeViews vs
      exact ⟨tables, done, last, h⟩

/-- **Every state that a check passes** has told what it has registered. -/
theorem Passes.told {p : Program} {r : Run} (h : p.Passes r) :
    ∃ tables done last, r.Told tables done last := by
  cases h with
  | @tables ts _ =>
    obtain ⟨tables, htables⟩ := Run.told_start.registerTables ts
    exact ⟨tables, [], none, htables⟩
  | @views vs vs' _ _ _ =>
    obtain ⟨tables, htables⟩ := Run.told_start.registerTables p.tables
    obtain ⟨done, last, h⟩ := htables.typeViews vs'
    exact ⟨tables, done, last, h⟩
  | finish => exact p.told_run

end Program

/-- **The log lists what the catalog lists**, after any calls and at every stage of a check. A view
is typed and registered before the next one is begun, and only a fault leaves one unregistered. -/
theorem log_mirrors_catalog :
    (∀ calls : List Call, Mirrors ((({} : Catalog).performAll calls).flatMap Outcome.events)
      (({} : Catalog).after calls)) ∧
    ∀ (p : Program) (r : Run), p.Passes r → Mirrors r.events r.catalog ∧
      ∃ (done : List (View × List ValueType)) (last : Option View),
        r.events.filter Event.isViewStep =
          (done.flatMap fun x => [.typingView x.1.name, .registeredView x.1.key x.2]) ++
            last.toList.map (fun v => .typingView v.name) ∧
        (last.isSome = true → r.fault?.isSome = true) := by
  refine ⟨fun calls => ?_, fun p r hr => ?_⟩
  · obtain ⟨new, hlayouts, hevents⟩ := milestones_performAll calls {}
    apply mirrors_of_milestones
    rw [← filter_milestones fun e => isMilestone_of_isRegistration, hevents, hlayouts]
    exact List.filter_eq_self.2 (by simp)
  · obtain ⟨tables, done, last, h⟩ := hr.told
    refine ⟨mirrors_of_milestones h.registrations, done.map fun x => (x.1, x.2.types), last, ?_,
      h.fault⟩
    rw [h.viewSteps, List.flatMap_map]

end ViewTyping
