import ViewTyping.Program.Check
import ViewTyping.Proofs.ProgramGraph

/-!
# What a check comes to

A check registers tables and then views, one after the other, so each layout is built on a catalog
that is only partly filled. `Catalog.Registers` follows such a sequence; the results here lead
from it to one equation about the finished catalog.

* `check_eq`: the check without its events, a fold over the tables and one over the ordered views.
* `registers_tables`: tables get their layouts exactly if they have different names.
* `registers_views`: views that are listed after the views they read get the layouts that they
  have **in the finished catalog**; a view is never typed too early.
* `check_eq_ok`: a program is accepted exactly with the catalogs of `Program.Checked`.
-/

set_option autoImplicit false

namespace ViewTyping

/-! ## Runs as folds -/

theorem Run.result_step (r : Run) (action : Catalog → Logged Catalog) :
    (r.step action).result = r.result.bind fun c => (action c).result := by
  obtain ⟨c, events, fault?⟩ := r
  cases fault? with
  | some d => rfl
  | none =>
    simp only [Run.step, Run.result, Except.bind]
    cases (action c).result <;> rfl

theorem Run.result_foldl_step {α : Type} (action : α → Catalog → Logged Catalog) :
    ∀ (xs : List α) (r : Run), (xs.foldl (fun r x => r.step (action x)) r).result =
      r.result.bind fun c => xs.foldlM (fun c x => (action x c).result) c
  | [], r => by cases h : r.result <;> simp [Except.bind, pure, Except.pure, h]
  | x :: xs, r => by
    rw [List.foldl_cons, Run.result_foldl_step action xs, Run.result_step]
    cases r.result with
    | error d => rfl
    | ok c => rw [Except.bind, Except.bind, List.foldlM_cons]; rfl

theorem result_registerTable (c : Catalog) (t : Table) :
    (c.registerTable t).result = (c.tableLayout t).result.map c.push := by
  rw [Catalog.registerTable, Logged.result_bind]
  cases (c.tableLayout t).result <;> rfl

theorem result_typeView (c : Catalog) (v : View) :
    (Program.typeView v c).result = (c.viewLayout v.name v.select).result.map c.push := by
  rw [Program.typeView, Logged.result_bind, Catalog.registerView]
  simp only [Logged.emit, Except.bind, Logged.result_bind]
  cases (c.viewLayout v.name v.select).result <;> rfl

namespace Program

/-- The catalog of the tables of a program. -/
def tableCatalog (p : Program) : Except Diagnostic Catalog :=
  p.tables.foldlM (fun c t => (c.tableLayout t).result.map c.push) {}

/-- The catalog with more views, typed one after the other. -/
def addToCatalog (c : Catalog) (vs : List View) : Except Diagnostic Catalog :=
  vs.foldlM (fun c v => (c.viewLayout v.name v.select).result.map c.push) c

/-- **A check without its events.** -/
theorem check_eq (p : Program) : p.check = p.tableCatalog.bind fun c =>
    (p.viewOrder c).bind (addToCatalog c) := by
  have htables : p.tableRun.result = p.tableCatalog := by
    rw [tableRun, Run.result_foldl_step]
    simp only [result_registerTable]
    rfl
  rw [check, run, ← htables]
  cases hfault : p.tableRun.fault? with
  | some d => simp only [Run.result, hfault, Except.bind]
  | none =>
    simp only [Run.result, hfault, Except.bind]
    cases p.viewOrder p.tableRun.catalog with
    | error d => rfl
    | ok vs =>
      have h := Run.result_foldl_step typeView vs p.tableRun
      simp only [Run.result, hfault, result_typeView] at h
      exact h

end Program

/-! ## Registering one after the other -/

/-- Registered one after the other, from the catalog on, the items get the layouts. -/
inductive Catalog.Registers {α : Type} (layout : Catalog → α → Except Diagnostic Layout) :
    Catalog → List α → List Layout → Prop
  | nil (c : Catalog) : Registers layout c [] []
  | cons {c : Catalog} {x : α} {l : Layout} {xs : List α} {ls : List Layout} :
      layout c x = .ok l → Registers layout (c.push l) xs ls →
      Registers layout c (x :: xs) (l :: ls)

open Catalog (Registers)

theorem foldlM_push_iff {α : Type} {layout : Catalog → α → Except Diagnostic Layout} :
    ∀ (xs : List α) {c c' : Catalog},
    xs.foldlM (fun c x => (layout c x).map c.push) c = .ok c' ↔
      ∃ ls, Registers layout c xs ls ∧ c' = ⟨c.layouts ++ ls⟩
  | [], c, c' => by
    refine ⟨fun h => ?_, fun h => ?_⟩
    · cases h
      exact ⟨[], .nil _, by simp⟩
    · obtain ⟨ls, h, rfl⟩ := h
      cases h
      simp [pure, Except.pure]
  | x :: xs, c, c' => by
    rw [List.foldlM_cons]
    cases hl : layout c x with
    | error d =>
      refine ⟨fun h => (by cases h), ?_⟩
      rintro ⟨ls, h, -⟩
      cases h with
      | cons h _ => rw [hl] at h; cases h
    | ok l =>
      refine (foldlM_push_iff xs).trans ⟨?_, ?_⟩
      · rintro ⟨ls, h, rfl⟩
        exact ⟨l :: ls, .cons hl h, by simp [Catalog.push]⟩
      · rintro ⟨ls, h, rfl⟩
        cases h with
        | @cons _ _ l' _ ls h hls =>
          rw [hl] at h
          cases h
          exact ⟨ls, hls, by simp [Catalog.push]⟩

theorem registers_cons_iff {α : Type} {layout : Catalog → α → Except Diagnostic Layout}
    {c : Catalog} {x : α} {l : Layout} {xs : List α} {ls : List Layout} :
    Registers layout c (x :: xs) (l :: ls) ↔
      layout c x = .ok l ∧ Registers layout (c.push l) xs ls :=
  ⟨fun h => by cases h with | cons h hs => exact ⟨h, hs⟩, fun h => .cons h.1 h.2⟩

/-! ## Tables -/

theorem view?_of_tables {ls : List Layout} (h : ∀ l ∈ ls, l.kind = .table) (name : String) :
    Catalog.view? ⟨ls⟩ name = none :=
  Catalog.view?_eq_none.2 fun l hl hk => by rw [h l hl] at hk; cases hk

theorem nodup_scopes_push {c : Catalog} {t : Table} {l : Layout}
    (hnd : (c.layouts.map Layout.scope).Nodup) (hkind : ∀ l ∈ c.layouts, l.kind = .table)
    (hnew : c.table? t.name = none) (hl : l.scope = t.name) :
    ((c.push l).layouts.map Layout.scope).Nodup := by
  rw [Catalog.push, List.map_append]
  refine hnd.append (List.nodup_singleton _) fun n hn hn' => ?_
  obtain ⟨l', hl', rfl⟩ := List.mem_map.1 hn
  have hs : l'.scope = l.scope := by simpa using hn'
  exact Catalog.table?_eq_none.1 hnew l' hl' (hkind l' hl') (hs.trans hl)

/-- **Tables are registered exactly if their names are different**, and have their own layouts. -/
theorem registers_tables : ∀ (ts : List Table) {c : Catalog} {ls : List Layout},
    (∀ l ∈ c.layouts, l.kind = .table) → (c.layouts.map Layout.scope).Nodup →
    (Registers (fun c t => (c.tableLayout t).result) c ts ls ↔
      List.Forall₂ Table.HasLayout ts ls ∧
        (c.layouts.map Layout.scope ++ ts.map Table.name).Nodup)
  | [], c, ls, hkind, hnd => by
    refine ⟨fun h => ?_, fun h => ?_⟩
    · cases h
      exact ⟨.nil, by simpa using hnd⟩
    · obtain ⟨h, -⟩ := h
      cases h
      exact .nil c
  | t :: ts, c, [], hkind, hnd => ⟨fun h => (by cases h), fun h => (by cases h.1)⟩
  | t :: ts, c, l :: ls, hkind, hnd => by
    have hrest (hl : t.HasLayout l) (hnew : c.table? t.name = none) :=
      @registers_tables ts (c.push l) ls
        (fun l' h' => (List.mem_append.1 h').elim (hkind l') fun h' => by
          rw [List.mem_singleton.1 h', hl.kind])
        (nodup_scopes_push hnd hkind hnew hl.scope)
    have hnames (hl : t.HasLayout l) : (c.push l).layouts.map Layout.scope ++ ts.map Table.name =
        c.layouts.map Layout.scope ++ (t :: ts).map Table.name := by
      simp [Catalog.push, hl.scope]
    rw [registers_cons_iff, tableLayout_iff, List.forall₂_cons]
    refine ⟨fun h => ?_, fun h => ?_⟩
    · obtain ⟨⟨hnew, -, hl⟩, hls⟩ := h
      obtain ⟨hls, hnd'⟩ := (hrest hl hnew).1 hls
      exact ⟨⟨hl, hls⟩, hnames hl ▸ hnd'⟩
    · obtain ⟨⟨hl, hls⟩, hnd'⟩ := h
      have hnew : c.table? t.name = none := Catalog.table?_eq_none.2 fun l' hl' _ hs =>
        (List.nodup_append.1 hnd').2.2 _ (List.mem_map_of_mem hl') t.name (by simp) hs
      have hview : c.isView t.name = false :=
        Catalog.isView_eq_false.2 (view?_of_tables hkind t.name)
      exact ⟨⟨hnew, hview, hl⟩, (hrest hl hnew).2 ⟨hls, hnames hl ▸ hnd'⟩⟩

namespace Program

theorem tableCatalog_eq_ok {p : Program} {c : Catalog} : p.tableCatalog = .ok c ↔
    List.Forall₂ Table.HasLayout p.tables c.layouts ∧ (p.tables.map Table.name).Nodup := by
  have hstart {ls : List Layout} := @registers_tables p.tables {} ls (fun l hl => by cases hl)
    List.nodup_nil
  rw [tableCatalog, foldlM_push_iff]
  refine ⟨fun h => ?_, fun h => ?_⟩
  · obtain ⟨ls, h, rfl⟩ := h
    exact hstart.1 h
  · exact ⟨c.layouts, hstart.2 h, rfl⟩

/-! ## Views -/

theorem Ordered.nodup_keys {p : Program} {vs : List View} (h : p.Ordered vs) :
    (vs.map View.key).Nodup :=
  (h.perm.map View.key).nodup_iff.2 h.nodup

/-- A view reads neither itself nor a view that is listed later. -/
theorem Ordered.not_reads {p : Program} {earlier later : List View} {v w : View}
    (h : p.Ordered (earlier ++ v :: later)) (hw : w ∈ v :: later) : ¬ p.Reads v w := fun hr =>
  (List.nodup_append.1 h.nodup_keys.of_map).2.2 w (h.reads earlier v later rfl w hr) w hw rfl

/-- Induction along the views that views read. -/
theorem Ordered.induct {p : Program} {vs : List View} (h : p.Ordered vs) {P : View → Prop}
    (step : ∀ v ∈ p.views, (∀ w, p.Reads v w → P w) → P v) : ∀ v ∈ p.views, P v := by
  have hall : ∀ (later earlier : List View), vs = earlier ++ later → (∀ v ∈ earlier, P v) →
      ∀ v ∈ later, P v := by
    intro later
    induction later with
    | nil => intro _ _ _ v hv; cases hv
    | cons v later ih =>
      intro earlier he hearlier
      have hv : P v := step v (h.perm.mem_iff.1 (by simp [he])) fun w hr =>
        hearlier w (h.reads earlier v later he w hr)
      have hlater := ih (earlier ++ [v]) (by simp [he]) fun w hw =>
        (List.mem_append.1 hw).elim (hearlier w) fun hw => List.mem_singleton.1 hw ▸ hv
      intro w hw
      rcases List.mem_cons.1 hw with rfl | hw
      · exact hv
      · exact hlater w hw
  intro v hv
  exact hall vs [] rfl (fun v hv => by cases hv) v (h.perm.mem_iff.2 hv)

end Program

/-- The layout is stored for the view. -/
def View.Stored (v : View) (l : Layout) : Prop := l.scope = v.key ∧ l.kind = .view

/-- The layout that is found under a name belongs to the view that is found under it. -/
theorem rel_view? {R : View → Layout → Prop} (hR : ∀ v l, R v l → v.Stored l) {vs : List View}
    {ls : List Layout} (h : List.Forall₂ R vs ls) (name : String) :
    Option.Rel R (vs.find? fun v => v.key == Name.normalize name) (Catalog.view? ⟨ls⟩ name) := by
  refine rel_find? (fun v l hvl => ?_) h
  obtain ⟨hs, hk⟩ := hR v l hvl
  simp [hs, hk]

theorem view?_of_stored {vs : List View} {ls : List Layout} (h : List.Forall₂ View.Stored vs ls)
    {name : String} (hname : ∀ v ∈ vs, v.key ≠ Name.normalize name) :
    Catalog.view? ⟨ls⟩ name = none := by
  have hrel := rel_view? (fun _ _ => id) h name
  rw [List.find?_eq_none.2 fun v hv => by simpa using hname v hv] at hrel
  generalize Catalog.view? ⟨ls⟩ name = found at hrel
  cases hrel
  rfl

theorem kind_of_stored {vs : List View} {ls : List Layout} (h : List.Forall₂ View.Stored vs ls)
    (l : Layout) (hl : l ∈ ls) : l.kind = .view :=
  have ⟨_, _, hvl⟩ := exists_mem_left h hl
  hvl.2

theorem stored_of_registers {c : Catalog} {vs : List View} {ls : List Layout}
    (h : Registers (fun c v => (c.viewLayout v.name v.select).result) c vs ls) :
    List.Forall₂ View.Stored vs ls := by
  induction h with
  | nil => exact .nil
  | cons hl _ ih =>
    have hl := (viewLayout_iff.1 hl).2.2
    exact .cons ⟨hl.scope, hl.kind⟩ ih

section
variable {p : Program} {all : List View} (hp : p.Ordered all)
  {tables : List Layout} (htables : ∀ l ∈ tables, l.kind = .table) (hapart : p.Apart ⟨tables⟩)
include hp

/-- Layouts of views that a view does not read leave the types of its columns. -/
theorem columnType_append {earlier later : List View} {v : View} (before : List Layout)
    {after : List Layout} (hall : all = earlier ++ v :: later)
    (hafter : List.Forall₂ View.Stored (v :: later) after)
    {e : Expr} (he : e ∈ v.select) {ref : ColumnRef} (href : ref ∈ e.columns) :
    Catalog.columnType ⟨before ++ after⟩ ref = Catalog.columnType ⟨before⟩ ref := by
  have hmem : ∀ w ∈ v :: later, w ∈ p.views := fun w hw =>
    hp.perm.mem_iff.1 (hall ▸ List.mem_append_right earlier hw)
  have hview : Catalog.view? ⟨after⟩ ref.table = none :=
    view?_of_stored hafter fun w hw hkey => (hall ▸ hp).not_reads hw
      ⟨hmem v (.head _), hmem w hw, e, he, ref.table, mentions_of_mem_columns href, hkey.symm⟩
  have htable : Catalog.table? ⟨after⟩ ref.table = none :=
    Catalog.table?_eq_none.2 fun l hl hk => by rw [kind_of_stored hafter l hl] at hk; cases hk
  refine Catalog.columnType_congr ?_ ?_
  · rw [Catalog.view?_append, hview, Option.or_none]
  · rw [Catalog.table?_append, htable, Option.or_none]

include htables hapart

/-- The name of the next view is free. -/
theorem free_of_ordered {earlier later : List View} {v : View} {ls : List Layout}
    (hall : all = earlier ++ v :: later) (hls : List.Forall₂ View.Stored earlier ls) :
    Catalog.isView ⟨tables ++ ls⟩ v.name = false ∧
      Catalog.namesTable ⟨tables ++ ls⟩ v.name = false := by
  have hkeys := hp.nodup_keys
  rw [hall, List.map_append] at hkeys
  constructor
  · rw [Catalog.isView_eq_false, Catalog.view?_append, view?_of_tables htables, Option.none_or]
    exact view?_of_stored hls fun w hw hkey =>
      (List.nodup_append.1 hkeys).2.2 w.key (List.mem_map_of_mem hw) v.key (by simp) hkey
  · have hv := Catalog.namesTable_eq_false.1
      (hapart v (hp.perm.mem_iff.1 (by simp [hall])))
    refine Catalog.namesTable_eq_false.2 fun l hl hk => ?_
    rcases List.mem_append.1 hl with hl | hl
    · exact hv l hl hk
    · rw [kind_of_stored hls l hl] at hk
      cases hk

/-- **No view is typed too early**: the layouts that ordered views get on the way are those that
they have in the finished catalog. -/
theorem registers_views : ∀ (vs earlier : List View) {before ls : List Layout},
    all = earlier ++ vs → List.Forall₂ View.Stored earlier before →
    List.Forall₂ View.Stored vs ls →
    (Registers (fun c v => (c.viewLayout v.name v.select).result) ⟨tables ++ before⟩ vs ls ↔
      List.Forall₂ (View.HasLayout (Catalog.columnType ⟨tables ++ before ++ ls⟩)) vs ls)
  | [], _, before, ls, _, _, hls => by
    cases hls
    exact ⟨fun _ => .nil, fun _ => .nil _⟩
  | v :: vs, earlier, before, ls, hall, hbefore, hls => by
    cases hls with
    | @cons _ l _ ls hl hls =>
      have hfree := free_of_ordered hp htables hapart hall hbefore
      have hhead : v.HasLayout (Catalog.columnType ⟨tables ++ before⟩) l ↔
          v.HasLayout (Catalog.columnType ⟨tables ++ before ++ l :: ls⟩) l := by
        have hsame := fun e (he : e ∈ v.select) ref (href : ref ∈ e.columns) =>
          columnType_append hp (tables ++ before) hall (.cons hl hls) he href
        exact ⟨fun h => h.congr fun e he ref href => (hsame e he ref href).symm,
          fun h => h.congr hsame⟩
      have hrest := registers_views vs (earlier ++ [v]) (by simp [hall])
        (List.rel_append hbefore (.cons hl .nil)) hls
      rw [registers_cons_iff, viewLayout_iff, List.forall₂_cons, ← hhead, Catalog.push]
      simp only [List.append_assoc, List.singleton_append] at hrest ⊢
      rw [hrest]
      exact ⟨fun h => ⟨h.1.2.2, h.2⟩, fun h => ⟨⟨hfree.1, hfree.2, h.1⟩, h.2⟩⟩

end

/-! ## Accepted programs -/

theorem kind_of_tables {ts : List Table} {ls : List Layout}
    (h : List.Forall₂ Table.HasLayout ts ls) (l : Layout) (hl : l ∈ ls) : l.kind = .table :=
  have ⟨_, _, htl⟩ := exists_mem_left h hl
  htl.kind

theorem stored_of_hasLayout {column : ColumnRef → Except Diagnostic ValueType} (v : View)
    (l : Layout) (h : v.HasLayout column l) : v.Stored l :=
  ⟨h.scope, h.kind⟩

namespace Program

/-- The layouts of an accepted program: its tables have theirs, and its views, in order, have those
that the layouts themselves give their columns the types for. -/
structure Checked (p : Program) (vs : List View) (tl vl : List Layout) : Prop where
  tables : List.Forall₂ Table.HasLayout p.tables tl
  names : (p.tables.map Table.name).Nodup
  order : p.viewOrder ⟨tl⟩ = .ok vs
  views : List.Forall₂ (View.HasLayout (Catalog.columnType ⟨tl ++ vl⟩)) vs vl

theorem Checked.apart {p : Program} {vs : List View} {tl vl : List Layout}
    (h : p.Checked vs tl vl) : p.Apart ⟨tl⟩ := (viewOrder_eq_ok h.order).1

theorem Checked.ordered {p : Program} {vs : List View} {tl vl : List Layout}
    (h : p.Checked vs tl vl) : p.Ordered vs := (viewOrder_eq_ok h.order).2

theorem addToCatalog_eq_ok {p : Program} {vs : List View} (hp : p.Ordered vs) {tl : List Layout}
    (htl : ∀ l ∈ tl, l.kind = .table) (hapart : p.Apart ⟨tl⟩) {c : Catalog} :
    addToCatalog ⟨tl⟩ vs = .ok c ↔
      ∃ vl, List.Forall₂ (View.HasLayout (Catalog.columnType ⟨tl ++ vl⟩)) vs vl ∧
        c = ⟨tl ++ vl⟩ := by
  have hviews {vl : List Layout} (h : List.Forall₂ View.Stored vs vl) :=
    registers_views hp htl hapart vs [] rfl .nil h
  simp only [List.append_nil] at hviews
  rw [addToCatalog, foldlM_push_iff]
  refine ⟨fun h => ?_, fun h => ?_⟩
  · obtain ⟨vl, h, rfl⟩ := h
    exact ⟨vl, (hviews (stored_of_registers h)).1 h, rfl⟩
  · obtain ⟨vl, h, rfl⟩ := h
    exact ⟨vl, (hviews (h.imp stored_of_hasLayout)).2 h, rfl⟩

/-- **A program is accepted exactly with the layouts that type themselves.** -/
theorem check_eq_ok {p : Program} {c : Catalog} :
    p.check = .ok c ↔ ∃ vs tl vl, p.Checked vs tl vl ∧ c = ⟨tl ++ vl⟩ := by
  rw [check_eq]
  refine ⟨fun h => ?_, fun h => ?_⟩
  · cases ht : p.tableCatalog with
    | error d => rw [ht] at h; cases h
    | ok ct =>
      rw [ht, Except.bind] at h
      obtain ⟨htl, hnames⟩ := tableCatalog_eq_ok.1 ht
      cases ho : p.viewOrder ct with
      | error d => rw [ho] at h; cases h
      | ok vs =>
        rw [ho] at h
        obtain ⟨hapart, hp⟩ := viewOrder_eq_ok ho
        obtain ⟨vl, hvl, rfl⟩ := (addToCatalog_eq_ok hp (kind_of_tables htl) hapart).1 h
        exact ⟨vs, ct.layouts, vl, ⟨htl, hnames, ho, hvl⟩, rfl⟩
  · obtain ⟨vs, tl, vl, h, rfl⟩ := h
    have ht : p.tableCatalog = .ok ⟨tl⟩ := tableCatalog_eq_ok.2 ⟨h.tables, h.names⟩
    rw [ht, Except.bind, h.order]
    exact (addToCatalog_eq_ok h.ordered (kind_of_tables h.tables) h.apart).2 ⟨vl, h.views, rfl⟩

end Program

end ViewTyping
