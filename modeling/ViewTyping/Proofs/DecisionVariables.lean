import ViewTyping.Proofs.Unfolding

/-!
# Decision variables

A field holds decision variables if the solver can get at it: through a controllable column or a
constraint at a value position of its output, or through such a field of another view.

* `Expr.ValuePart`: the parts of an expression at its value positions. Predicates, groupings and the
  arguments of constraints hold none.
* `typing_isVar_iff`: an expression has the type of a variable exactly if a variable stands at one
  of its value positions, as long as no integer variable is negated there.
* `Program.FieldReads`, `Program.FieldDecides`: the hops between the fields of views, and where they
  may end.
* `Ordered.isVar_iff_reaches`: a field holds variables exactly if such hops lead to a decision.
-/

set_option autoImplicit false

namespace ViewTyping

/-! ## Value positions -/

namespace Expr

/-- A scalar product of two arguments, or a capacity constraint of four. -/
def isConstraint : Expr → Bool
  | call .scalarProduct args => args.length == 2
  | call .capacityConstraint args => args.length == 4
  | _ => false

/-- The expressions that an expression is made of, but for its qualifiers, its grouping and, if it
is a constraint, its arguments. -/
def valueParts : Expr → List Expr
  | column _ | literal _ => []
  | unary _ arg => [arg]
  | binary _ left right => [left, right]
  | call function args => if (call function args).isConstraint then [] else args
  | test _ arg => [arg]
  | subquery select _ _ => select
  | aliased e _ => [e]

/-- `e.ValuePart x`: the expression `x` stands at a value position of `e`. -/
inductive ValuePart : Expr → Expr → Prop
  | self (e : Expr) : ValuePart e e
  | inner {e a x : Expr} : a ∈ e.valueParts → ValuePart a x → ValuePart e x

/-- What the solver decides by itself: a controllable column, or a constraint. -/
def IsDecision : Expr → Prop
  | column ref => ref.column.controllable = true
  | e => e.isConstraint = true

/-- The expression is by itself a variable, if columns have the types that `columnType` gives. -/
def IsVariable (columnType : ColumnRef → Except Diagnostic ValueType) : Expr → Prop
  | column ref => ∃ t, columnType ref = .ok t ∧ t.isVar = true
  | e => e.isConstraint = true

/-- A variable stands at a value position. -/
def HasVariable (columnType : ColumnRef → Except Diagnostic ValueType) (e : Expr) : Prop :=
  ∃ x, e.ValuePart x ∧ x.IsVariable columnType

end Expr

section
variable {column : ColumnRef → Except Diagnostic ValueType}

theorem valuePart_iff {e x : Expr} :
    e.ValuePart x ↔ x = e ∨ ∃ a ∈ e.valueParts, a.ValuePart x := by
  constructor
  · intro h
    cases h with
    | self => exact .inl rfl
    | inner ha hx => exact .inr ⟨_, ha, hx⟩
  · rintro (rfl | ⟨a, ha, hx⟩)
    · exact .self x
    · exact .inner ha hx

@[simp] theorem valuePart_column {ref : ColumnRef} {x : Expr} :
    (Expr.column ref).ValuePart x ↔ x = .column ref := by
  rw [valuePart_iff]
  simp [Expr.valueParts]

@[simp] theorem valuePart_literal {value : Literal} {x : Expr} :
    (Expr.literal value).ValuePart x ↔ x = .literal value := by
  rw [valuePart_iff]
  simp [Expr.valueParts]

@[simp] theorem valuePart_unary {op : UnaryOp} {arg x : Expr} :
    (Expr.unary op arg).ValuePart x ↔ x = .unary op arg ∨ arg.ValuePart x := by
  rw [valuePart_iff]
  simp [Expr.valueParts]

@[simp] theorem valuePart_binary {op : BinaryOp} {left right x : Expr} :
    (Expr.binary op left right).ValuePart x ↔
      x = .binary op left right ∨ left.ValuePart x ∨ right.ValuePart x := by
  rw [valuePart_iff]
  simp [Expr.valueParts]

@[simp] theorem valuePart_aliased {e x : Expr} {name : String} :
    (Expr.aliased e name).ValuePart x ↔ x = .aliased e name ∨ e.ValuePart x := by
  rw [valuePart_iff]
  simp [Expr.valueParts]

theorem hasVariable_iff {e : Expr} : e.HasVariable column ↔
    e.IsVariable column ∨ ∃ a ∈ e.valueParts, a.HasVariable column := by
  constructor
  · rintro ⟨x, hx, hvar⟩
    rcases valuePart_iff.1 hx with rfl | ⟨a, ha, hx⟩
    · exact .inl hvar
    · exact .inr ⟨a, ha, x, hx, hvar⟩
  · rintro (hvar | ⟨a, ha, x, hx, hvar⟩)
    · exact ⟨e, .self e, hvar⟩
    · exact ⟨x, .inner ha hx, hvar⟩

/-- An expression with one part is a variable through that part. -/
theorem hasVariable_part_iff {e a : Expr} (hparts : e.valueParts = [a])
    (hself : ¬ e.IsVariable column) : a.HasVariable column ↔ e.HasVariable column := by
  rw [@hasVariable_iff _ e, hparts]
  simp [hself]

theorem isConstraint_of_constraintType? {function : Builtin} {args : List Expr} {t : ValueType}
    (h : function.constraintType? args.length = some t) :
    (Expr.call function args).isConstraint = true ∧ t.isVar = true := by
  unfold Builtin.constraintType? at h
  split at h
  · cases h
    exact ⟨beq_iff_eq.2 ‹_›, rfl⟩
  · cases h
    exact ⟨beq_iff_eq.2 ‹_›, rfl⟩
  · cases h

/-- The constraints take several arguments. -/
theorem isConstraint_singleton (function : Builtin) (arg : Expr) :
    (Expr.call function [arg]).isConstraint = false := by
  cases function <;> rfl

theorem valueParts_singleton (function : Builtin) (arg : Expr) :
    (Expr.call function [arg]).valueParts = [arg] := by
  rw [Expr.valueParts, isConstraint_singleton]
  rfl

@[simp] theorem valuePart_aggregate {function : Builtin} {arg x : Expr} :
    (Expr.call function [arg]).ValuePart x ↔ x = .call function [arg] ∨ arg.ValuePart x := by
  rw [valuePart_iff, valueParts_singleton]
  simp

/-- Columns at value positions are among those that the expression reads. -/
theorem mem_columns_of_valuePart {e : Expr} {ref : ColumnRef} (h : e.ValuePart (.column ref)) :
    ref ∈ e.columns := by
  generalize hx : Expr.column ref = x at h
  induction h with
  | self e => simp [← hx, Expr.columns]
  | @inner e a x ha _ ih =>
    have hmem := ih hx
    cases e with
    | column _ => cases ha
    | literal _ => cases ha
    | unary op arg => cases List.mem_singleton.1 ha; exact hmem
    | binary op left right =>
      simp only [Expr.valueParts, List.mem_cons, List.not_mem_nil, or_false] at ha
      rcases ha with rfl | rfl
      · exact List.mem_append_left _ hmem
      · exact List.mem_append_right _ hmem
    | call function args =>
      have ha : a ∈ args := by
        rw [Expr.valueParts] at ha
        split at ha
        · cases ha
        · exact ha
      rw [Expr.columns, columnsOfExprs_eq]
      exact List.mem_flatMap.2 ⟨a, ha, hmem⟩
    | test t arg => cases List.mem_singleton.1 ha; exact hmem
    | subquery select qualifiers groupBy =>
      rw [Expr.columns, columnsOfExprs_eq]
      exact List.mem_append_right _ (List.mem_flatMap.2 ⟨a, ha, hmem⟩)
    | aliased e name => cases List.mem_singleton.1 ha; exact hmem

/-! ## Types of variables -/

@[simp] theorem isVar_boolLike (var : Bool) : (ValueType.boolLike var).isVar = var := by
  cases var <;> rfl

@[simp] theorem isVar_intLike (var : Bool) : (ValueType.intLike var).isVar = var := by
  cases var <;> rfl

@[simp] theorem isVar_ofKind (k : Kind) : (ValueType.ofKind k).isVar = false := by
  cases k <;> rfl

/-- Operators keep variables, but a negation makes a plain value of an integer variable. -/
theorem isVar_unary {op : UnaryOp} {t : ValueType} (h : op = .not → t ≠ .intVar) :
    (op.resultType t).isVar = t.isVar := by
  cases op with
  | not =>
    have ht := h rfl
    cases t <;> first | rfl | exact absurd rfl ht
  | minus => rfl
  | plus => rfl

theorem isVar_binary (op : BinaryOp) (l r : ValueType) :
    (op.resultType l r).isVar = (l.isVar || r.isVar) := by
  unfold BinaryOp.resultType
  split <;> simp

theorem isVar_aggregate {function : Builtin} {t t' : ValueType}
    (h : function.aggregateType? t = some t') : t'.isVar = t.isVar := by
  cases function <;> cases h <;> cases t <;> rfl

/-- **An expression is a variable exactly if a variable stands at a value position**, as long as no
integer variable is negated there. -/
theorem typing_isVar_iff {e : Expr} {t : ValueType} (ht : (e.typing column).result = .ok t)
    (hnot : ∀ arg, e.ValuePart (.unary .not arg) → (arg.typing column).result ≠ .ok .intVar) :
    t.isVar = true ↔ e.HasVariable column := by
  induction e using Expr.typing.induct generalizing t with
  | case1 ref =>
    rw [Expr.typing] at ht
    rw [hasVariable_iff]
    refine ⟨fun hvar => .inl ⟨t, ht, hvar⟩, ?_⟩
    rintro (⟨t', ht', hvar⟩ | ⟨a, ha, -⟩)
    · cases ht.symm.trans ht'
      exact hvar
    · cases ha
  | case2 value =>
    rw [Expr.typing] at ht
    rw [hasVariable_iff]
    refine ⟨fun hvar => ?_, ?_⟩
    · cases value <;> cases ht <;> cases hvar
    · rintro (h | ⟨a, ha, -⟩)
      · cases h
      · cases ha
  | case3 op arg ih =>
    rw [Expr.typing, Logged.result_bind_eq_ok] at ht
    obtain ⟨a, ha, hr⟩ := ht
    cases hr
    have hop : op = .not → a ≠ .intVar := by
      rintro rfl rfl
      exact hnot arg (.self _) ha
    rw [isVar_unary hop, ih ha fun x hx => hnot x (.inner (.head _) hx)]
    exact hasVariable_part_iff rfl Bool.false_ne_true
  | case4 op left right ihl ihr =>
    simp only [Expr.typing, Logged.result_bind_eq_ok] at ht
    obtain ⟨a, ha, b, hb, hr⟩ := ht
    cases hr
    have hboth : (Expr.binary op left right).HasVariable column ↔
        left.HasVariable column ∨ right.HasVariable column := by
      rw [hasVariable_iff]
      simp [Expr.IsVariable, Expr.isConstraint, Expr.valueParts]
    rw [isVar_binary, Bool.or_eq_true, hboth, ihl ha fun x hx => hnot x (.inner (.head _) hx),
      ihr hb fun x hx => hnot x (.inner (.tail _ (.head _)) hx)]
  | case5 function arg ih =>
    simp only [Expr.typing, Logged.result_bind_eq_ok] at ht
    obtain ⟨a, ha, hr⟩ := ht
    have hparts := valueParts_singleton function arg
    have hvar : t.isVar = a.isVar := by
      cases hagg : function.aggregateType? a with
      | none => rw [hagg] at hr; cases hr
      | some t' =>
        rw [hagg] at hr
        cases hr
        exact isVar_aggregate hagg
    have harg : arg ∈ (Expr.call function [arg]).valueParts := by simp [hparts]
    rw [hvar, ih ha fun x hx => hnot x (.inner harg hx)]
    exact hasVariable_part_iff hparts (by simp [Expr.IsVariable, isConstraint_singleton])
  | case6 function args hne t' ht' =>
    rw [Expr.typing, ht'] at ht
    · cases ht
      obtain ⟨hconstraint, hvar⟩ := isConstraint_of_constraintType? ht'
      exact ⟨fun _ => hasVariable_iff.2 (.inl hconstraint), fun _ => hvar⟩
    · exact hne
  | case7 function args hne hnone =>
    rw [Expr.typing, hnone] at ht
    · cases ht
    · exact hne
  | case8 t' arg ih =>
    rw [Expr.typing, Logged.result_bind_eq_ok] at ht
    obtain ⟨a, ha, hr⟩ := ht
    cases hr
    rw [isVar_boolLike, ih ha fun x hx => hnot x (.inner (.head _) hx)]
    exact hasVariable_part_iff rfl Bool.false_ne_true
  | case9 e qualifiers groupBy ih =>
    simp only [Expr.typing, Logged.result_bind_eq_ok] at ht
    obtain ⟨a, ha, -, -, hr⟩ := ht
    cases hr
    rw [ih ha fun x hx => hnot x (.inner (.head _) hx)]
    exact hasVariable_part_iff rfl Bool.false_ne_true
  | case10 select qualifiers groupBy hne =>
    rw [Expr.typing] at ht
    · cases ht
    · exact hne
  | case11 e name ih =>
    rw [Expr.typing] at ht
    rw [ih ht fun x hx => hnot x (.inner (.head _) hx)]
    exact hasVariable_part_iff rfl Bool.false_ne_true

end

/-! ## Chains of fields -/

namespace Program

variable {p : Program} {c : Catalog}

/-- The output that defines a field, which is given by the key of its view and its name. -/
def fieldOutput? (p : Program) (field : String × String) : Option Expr :=
  (p.view? field.1).bind fun v => v.output? field.2

/-- The output of the field `a` has, at a value position, a column that is not controllable and
that refers to the field `b` of a view. -/
def FieldReads (p : Program) (a b : String × String) : Prop :=
  ∃ e ref, p.fieldOutput? a = some e ∧ e.ValuePart (.column ref) ∧
    ref.column.controllable = false ∧
    b = (Name.normalize ref.table, Name.normalize ref.column.name) ∧
    (p.fieldOutput? b).isSome = true

/-- The output of the field has, at a value position, a controllable column or a constraint. -/
def FieldDecides (p : Program) (a : String × String) : Prop :=
  ∃ e x, p.fieldOutput? a = some e ∧ e.ValuePart x ∧ x.IsDecision

/-- A chain of fields leads from the field to one that decides. -/
def FieldReaches (p : Program) (a : String × String) : Prop :=
  ∃ b, Relation.ReflTransGen p.FieldReads a b ∧ p.FieldDecides b

theorem fieldOutput?_of_mem (h : p.keys.Nodup) {v : View} (hv : v ∈ p.views) (name : String) :
    p.fieldOutput? (v.key, name) = v.output? name := by
  have hfound : p.view? v.key = some v := view?_of_mem h hv (normalize_normalize v.name).symm
  rw [fieldOutput?, hfound, Option.bind_some]

theorem definition?_of_free {ref : ColumnRef} (h : ref.column.controllable = false) :
    p.definition? ref =
      p.fieldOutput? (Name.normalize ref.table, Name.normalize ref.column.name) := by
  simp [definition?, fieldOutput?, view?, h]

/-- A field reaches a decision by itself, or through a field that it refers to. -/
theorem fieldReaches_iff {a : String × String} {e : Expr} (he : p.fieldOutput? a = some e) :
    p.FieldReaches a ↔ (∃ x, e.ValuePart x ∧ x.IsDecision) ∨
      ∃ ref d, e.ValuePart (.column ref) ∧ p.definition? ref = some d ∧
        p.FieldReaches (Name.normalize ref.table, Name.normalize ref.column.name) := by
  constructor
  · rintro ⟨b, hchain, hdecides⟩
    rcases hchain.cases_head with rfl | ⟨a', ⟨e', ref, he', hx, hfree, rfl, hsome⟩, hrest⟩
    · obtain ⟨e', x, he', hx⟩ := hdecides
      obtain rfl : e = e' := Option.some.inj (he.symm.trans he')
      exact .inl ⟨x, hx⟩
    · obtain rfl : e = e' := Option.some.inj (he.symm.trans he')
      obtain ⟨d, hd⟩ := Option.isSome_iff_exists.1 hsome
      exact .inr ⟨ref, d, hx, (definition?_of_free hfree).trans hd, b, hrest, hdecides⟩
  · rintro (⟨x, hx⟩ | ⟨ref, d, hx, hd, b, hchain, hdecides⟩)
    · exact ⟨a, .refl, e, x, he, hx⟩
    · have hfree := (definition?_eq_some hd).1
      rw [definition?_of_free hfree] at hd
      exact ⟨b, hchain.head ⟨e, ref, he, hx, hfree, rfl, by rw [hd]; rfl⟩, hdecides⟩

/-- A column that holds variables is controllable, or defined by an output that does. -/
theorem Recorded.isVariable_column (h : p.Recorded c.columnType c) {ref : ColumnRef} :
    (Expr.column ref).IsVariable c.columnType ↔ (Expr.column ref).IsDecision ∨
      ∃ d t, p.definition? ref = some d ∧ c.infer d = .ok t ∧ t.isVar = true := by
  cases hfree : ref.column.controllable with
  | true =>
    have htype : c.columnType ref = .ok .intVar := by simp [Catalog.columnType, hfree]
    exact ⟨fun _ => .inl hfree, fun _ => ⟨_, htype, rfl⟩⟩
  | false =>
    constructor
    · rintro ⟨t, ht, hvar⟩
      refine .inr ?_
      cases hd : p.definition? ref with
      | some d => exact ⟨d, t, rfl, h.columnType_of_definition hd ▸ ht, hvar⟩
      | none =>
        -- without a definition the type is that of the declared kind
        have hplain := h.columnType_of_undefined hd ht
        simp only [Catalog.columnType, hfree, Catalog.isView, Catalog.view?] at hplain
        cases hplain
        simp at hvar
    · rintro (hd | ⟨d, t, hd, ht, hvar⟩)
      · exact absurd (hfree.symm.trans hd) Bool.false_ne_true
      · exact ⟨t, (h.columnType_of_definition hd).trans ht, hvar⟩

/-- What stands at value positions are decisions and columns that outputs define. -/
theorem Recorded.hasVariable_iff (h : p.Recorded c.columnType c) {e : Expr} :
    e.HasVariable c.columnType ↔ (∃ x, e.ValuePart x ∧ x.IsDecision) ∨
      ∃ ref d t, e.ValuePart (.column ref) ∧ p.definition? ref = some d ∧ c.infer d = .ok t ∧
        t.isVar = true := by
  constructor
  · rintro ⟨x, hx, hvar⟩
    cases x with
    | column ref =>
      rcases h.isVariable_column.1 hvar with hdec | ⟨d, t, hd⟩
      · exact .inl ⟨_, hx, hdec⟩
      · exact .inr ⟨ref, d, t, hx, hd⟩
    | _ => exact .inl ⟨_, hx, hvar⟩
  · rintro (⟨x, hx, hdec⟩ | ⟨ref, d, t, hx, hd⟩)
    · cases x with
      | column ref => exact ⟨_, hx, h.isVariable_column.2 (.inl hdec)⟩
      | _ => exact ⟨_, hx, hdec⟩
    · exact ⟨_, hx, h.isVariable_column.2 (.inr ⟨d, t, hd⟩)⟩

/-- **A field holds variables exactly if it reaches a decision.** The induction is along the views
that views read: the fields that an output refers to belong to such views. -/
theorem Ordered.isVar_iff_reaches {vs : List View} (hp : p.Ordered vs)
    (h : p.Recorded c.columnType c)
    (hnot : ∀ v ∈ p.views, ∀ e ∈ v.select, ∀ arg, e.ValuePart (.unary .not arg) →
      c.infer arg ≠ .ok .intVar) :
    ∀ v ∈ p.views, ∀ name e t, v.output? name = some e → c.infer e = .ok t →
      (t.isVar = true ↔ p.FieldReaches (v.key, name)) := by
  refine hp.induct fun v hv ih name e t he ht => ?_
  have hmem : e ∈ v.select := List.mem_of_find?_eq_some he
  have hfield : p.fieldOutput? (v.key, name) = some e :=
    (fieldOutput?_of_mem h.nodup hv name).trans he
  have hhop : ∀ ref d, e.ValuePart (.column ref) → p.definition? ref = some d →
      ((∃ t, c.infer d = .ok t ∧ t.isVar = true) ↔
        p.FieldReaches (Name.normalize ref.table, Name.normalize ref.column.name)) := by
    intro ref d hx hd
    obtain ⟨-, w, hw, hkey, houtput⟩ := definition?_eq_some hd
    have hreads : p.Reads v w := ⟨hv, hw, e, hmem, ref.table,
      mentions_of_mem_columns (mem_columns_of_valuePart hx), hkey.symm⟩
    obtain ⟨l, -, -, hl⟩ := h.exists_layout hw
    obtain ⟨f, -, -, htype⟩ := exists_of_rel (hl.rel_field? _) houtput
    rw [← hkey, ← ih w hreads _ d f.type houtput htype]
    refine ⟨fun ⟨t, ht, hvar⟩ => ?_, fun hvar => ⟨_, htype, hvar⟩⟩
    cases htype.symm.trans ht
    exact hvar
  rw [typing_isVar_iff ht (hnot v hv e hmem), h.hasVariable_iff, fieldReaches_iff hfield]
  refine or_congr_right ⟨?_, ?_⟩
  · rintro ⟨ref, d, t, hx, hd, hvar⟩
    exact ⟨ref, d, hx, hd, (hhop ref d hx hd).1 ⟨t, hvar⟩⟩
  · rintro ⟨ref, d, hx, hd, hreach⟩
    obtain ⟨t, hvar⟩ := (hhop ref d hx hd).2 hreach
    exact ⟨ref, d, t, hx, hd, hvar⟩

/-- **Decision variables are exactly what the solver can reach**, through chains of fields that
refer to each other at value positions, if no integer variable is negated at such a position. -/
theorem isVar_iff_chain (h : p.check = .ok c)
    (hnot : ∀ v ∈ p.views, ∀ e ∈ v.select, ∀ arg, e.ValuePart (.unary .not arg) →
      c.infer arg ≠ .ok .intVar)
    {v : View} (hv : v ∈ p.views) {l : Layout} (hl : c.layout v.name = .ok l) {f : Field}
    (hf : f ∈ l.fields) :
    f.type.isVar = true ↔
      ∃ b, Relation.ReflTransGen p.FieldReads (v.key, f.name) b ∧ p.FieldDecides b := by
  obtain ⟨vs, tl, vl, hc, rfl⟩ := check_eq_ok.1 h
  obtain ⟨hlayout, -⟩ := hc.recorded.of_layout hv hl
  have hrel := hlayout.rel_field? f.name
  rw [hlayout.wellFormed.field?_eq hf] at hrel
  generalize hfound : v.output? f.name = found at hrel
  cases hrel with
  | some he => exact hc.ordered.isVar_iff_reaches hc.recorded hnot v hv f.name _ f.type hfound he.2

/-- The total with a view on it that negates a comparison of the total. -/
def idleHosts : Program where
  tables := totalLoad.tables
  views := ⟨"idle", [.aliased (.unary .not (.binary .greaterThan
    (.column ⟨"Total", ⟨"Sum", .long, false⟩⟩) (.literal (.int 10)))) "idle"]⟩ :: totalLoad.views

def idleHostsCatalog : Catalog :=
  ⟨totalLoadCatalog.layouts ++ [⟨"IDLE", .view, [⟨"IDLE", 0, .boolVar⟩]⟩]⟩

/-- What is negated is a comparison, so no number. -/
theorem idleHosts_negations : ∀ v ∈ idleHosts.views, ∀ e ∈ v.select, ∀ arg,
    e.ValuePart (.unary .not arg) → idleHostsCatalog.infer arg ≠ .ok .intVar := by
  have hcomparison : idleHostsCatalog.infer (.binary .greaterThan
      (.column ⟨"Total", ⟨"Sum", .long, false⟩⟩) (.literal (.int 10))) ≠ .ok .intVar := by decide
  simp [idleHosts, totalLoad, hcomparison]

/-- Whether the hosts are idle is decided by their loads, two views further; their names are not
decided by anything. -/
theorem isVar_iff_chain_idleHosts :
    idleHosts.check = .ok idleHostsCatalog ∧
      (∃ b, Relation.ReflTransGen idleHosts.FieldReads ("IDLE", "IDLE") b ∧
        idleHosts.FieldDecides b) ∧
      ¬ ∃ b, Relation.ReflTransGen idleHosts.FieldReads ("LOADS", "ID") b ∧
        idleHosts.FieldDecides b := by
  have hcheck : idleHosts.check = .ok idleHostsCatalog := rfl
  have hidle : idleHosts.views[0] ∈ idleHosts.views := List.getElem_mem _
  have hloads : idleHosts.views[2] ∈ idleHosts.views := List.getElem_mem _
  refine ⟨hcheck, ?_, ?_⟩
  · exact (isVar_iff_chain hcheck idleHosts_negations hidle rfl (.head _)).1 rfl
  · intro h
    cases (isVar_iff_chain hcheck idleHosts_negations hloads rfl (.head _)).2 h

end Program

end ViewTyping
