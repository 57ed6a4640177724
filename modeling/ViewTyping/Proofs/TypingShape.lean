import ViewTyping.Proofs.Occurrences

/-!
# What typing looks at

Two expressions are alike (`Expr.Alike`) if they have the same shape wherever typing looks and
related columns there. Aliases may differ, and so may qualifiers, groupings, the arguments of a
constraint and the selection of a sub-query that has no type, as long as their number is the same.

* `Diagnostic.withoutText`: a diagnostic apart from the text of the expression that it quotes.
* `typing_alike`: expressions that are alike have the same type or the same fault, apart from that
  text, if their columns do.
-/

set_option autoImplicit false

namespace ViewTyping

/-- The diagnostic without the text of the expression that it is about. -/
def Diagnostic.withoutText : Diagnostic → Diagnostic
  | unsupportedFunction function arity _ => unsupportedFunction function arity ""
  | unaliasedOutputField view _ => unaliasedOutputField view ""
  | ambiguousSubqueryType _ fields => ambiguousSubqueryType "" fields
  | d => d

/-! ## Results that agree apart from their faults' details -/

section
variable {α β γ ε δ : Type} {f : ε → δ}

/-- The second parts have to agree on what the first comes to only. -/
theorem mapError_bind {x y : Except ε α} {k k' : α → Except ε β}
    (hx : x.mapError f = y.mapError f)
    (hk : ∀ a, x = .ok a → (k a).mapError f = (k' a).mapError f) :
    (x.bind k).mapError f = (y.bind k').mapError f := by
  cases x with
  | error d =>
    cases y with
    | error d' => exact congrArg Except.error (Except.error.inj hx)
    | ok b => cases hx
  | ok a =>
    cases y with
    | error d' => cases hx
    | ok b =>
      obtain rfl : a = b := Except.ok.inj hx
      exact hk a rfl

theorem mapError_map {x y : Except ε α} (k : α → β) (hx : x.mapError f = y.mapError f) :
    (x.map k).mapError f = (y.map k).mapError f := by
  have hmap : ∀ z : Except ε α, z.map k = z.bind fun a => .ok (k a) := fun z => by cases z <;> rfl
  rw [hmap, hmap]
  exact mapError_bind hx fun _ _ => rfl

/-- Runs over corresponding lists agree if their steps agree, wherever the runs can come. -/
theorem mapError_foldlM {I : β → Prop} {g : α → γ} {step : β → α → Except ε β}
    {step' : β → γ → Except ε β}
    (hstep : ∀ b x, I b → (step b x).mapError f = (step' b (g x)).mapError f)
    (hinv : ∀ b x b', I b → step b x = .ok b' → I b') :
    ∀ (xs : List α) (b : β), I b →
      (xs.foldlM step b).mapError f = ((xs.map g).foldlM step' b).mapError f
  | [], _, _ => rfl
  | x :: xs, b, hb => by
    rw [List.map_cons, List.foldlM_cons, List.foldlM_cons]
    exact mapError_bind (hstep b x hb) fun b' hb' =>
      mapError_foldlM hstep hinv xs b' (hinv b x b' hb hb')

theorem agree_of_mapError {x y : Except ε α} (h : x.mapError f = y.mapError f) :
    (∀ a, x = .ok a ↔ y = .ok a) ∧ ∀ d, x = .error d → ∃ d', y = .error d' ∧ f d' = f d := by
  cases x with
  | error d =>
    cases y with
    | error d' =>
      refine ⟨fun a => by simp, fun d₀ hd₀ => ⟨d', rfl, ?_⟩⟩
      rw [← Except.error.inj hd₀]
      exact (Except.error.inj h).symm
    | ok b => cases h
  | ok a =>
    cases y with
    | error d' => cases h
    | ok b =>
      obtain rfl : a = b := Except.ok.inj h
      exact ⟨fun _ => Iff.rfl, fun d hd => by cases hd⟩

end

/-! ## Expressions that are alike -/

/-- Expressions of one shape, as far as typing looks, with columns that are related by `R`. -/
inductive Expr.Alike (R : ColumnRef → ColumnRef → Prop) : Expr → Expr → Prop
  | column {ref ref'} : R ref ref' → Alike R (.column ref) (.column ref')
  | literal (value : Literal) : Alike R (.literal value) (.literal value)
  | unary {op arg arg'} : Alike R arg arg' → Alike R (.unary op arg) (.unary op arg')
  | binary {op left left' right right'} : Alike R left left' → Alike R right right' →
      Alike R (.binary op left right) (.binary op left' right')
  | aggregate {function arg arg'} : Alike R arg arg' →
      Alike R (.call function [arg]) (.call function [arg'])
  | constraint {function args args'} : args'.length = args.length → args.length ≠ 1 →
      Alike R (.call function args) (.call function args')
  | test {test arg arg'} : Alike R arg arg' → Alike R (.test test arg) (.test test arg')
  | value {e e' qualifiers qualifiers' groupBy groupBy'} : Alike R e e' →
      Alike R (.subquery [e] qualifiers groupBy) (.subquery [e'] qualifiers' groupBy')
  | rows {select select' qualifiers qualifiers' groupBy groupBy'} :
      select'.length = select.length → select.length ≠ 1 →
      Alike R (.subquery select qualifiers groupBy) (.subquery select' qualifiers' groupBy')
  | aliasedLeft {e e' name} : Alike R e e' → Alike R (.aliased e name) e'
  | aliasedRight {e e' name} : Alike R e e' → Alike R e (.aliased e' name)

/-- A list of another length than one is no single item. -/
theorem ne_singleton {es : List Expr} (h : es.length ≠ 1) (e : Expr) : es = [e] → False := by
  rintro rfl
  exact h rfl

/-- **Expressions that are alike have the same type or the same fault**, apart from quoted text, if
their columns do. Of the faults, `g` may drop more than the text. -/
theorem typing_alike {g : Diagnostic → Diagnostic} {R : ColumnRef → ColumnRef → Prop}
    {column column' : ColumnRef → Except Diagnostic ValueType}
    (hcolumn : ∀ ref ref', R ref ref' → (column ref).mapError (g ∘ Diagnostic.withoutText) =
      (column' ref').mapError (g ∘ Diagnostic.withoutText))
    {e e' : Expr} (h : Expr.Alike R e e') :
    (e.typing column).result.mapError (g ∘ Diagnostic.withoutText) =
      (e'.typing column').result.mapError (g ∘ Diagnostic.withoutText) := by
  induction h with
  | column h =>
    rw [Expr.typing, Expr.typing]
    exact hcolumn _ _ h
  | literal value => rw [Expr.typing, Expr.typing]
  | unary _ ih =>
    rw [Expr.typing, Expr.typing, Logged.result_bind, Logged.result_bind]
    exact mapError_bind ih fun _ _ => rfl
  | binary _ _ ihl ihr =>
    rw [Expr.typing, Expr.typing, Logged.result_bind, Logged.result_bind]
    refine mapError_bind ihl fun _ _ => ?_
    rw [Logged.result_bind, Logged.result_bind]
    exact mapError_bind ihr fun _ _ => rfl
  | @aggregate function _ _ _ ih =>
    rw [Expr.typing, Expr.typing, Logged.result_bind, Logged.result_bind]
    refine mapError_bind ih fun t _ => ?_
    cases function.aggregateType? t <;> rfl
  | @constraint function args args' hlen hne =>
    rw [Expr.typing, Expr.typing, hlen]
    · cases function.constraintType? args.length <;> rfl
    · exact ne_singleton (hlen ▸ hne)
    · exact ne_singleton hne
  | test _ ih =>
    rw [Expr.typing, Expr.typing, Logged.result_bind, Logged.result_bind]
    exact mapError_bind ih fun _ _ => rfl
  | value _ ih =>
    rw [Expr.typing, Expr.typing, Logged.result_bind, Logged.result_bind]
    exact mapError_bind ih fun _ _ => rfl
  | rows hlen hne =>
    rw [Expr.typing, Expr.typing, hlen]
    · rfl
    · exact ne_singleton (hlen ▸ hne)
    · exact ne_singleton hne
  | aliasedLeft _ ih => rw [Expr.typing]; exact ih
  | aliasedRight _ ih => rw [Expr.typing]; exact ih

end ViewTyping
