import ViewTyping.Registry.Call

/-!
# Calls that leave nothing behind

A registration writes to several stores and may stop at many places, after fields have been named,
typed and reported. Up to the first write it only reads (`Action.ReadsOnly`), and behind it nothing
stops it any more, so where it stops early the registry is as it was (`Action.Atomic`). Hence calls
that only read or that fail can be left out of a history, as many of them as one likes: the calls
that stay have the outcomes they had (`outcomes_without_idle`).
-/

set_option autoImplicit false

namespace ViewTyping

/-- Whether a call only reads. -/
def Catalog.Call.isRead : Catalog.Call → Bool
  | .registerTable _ | .registerView .. => false
  | .infer _ | .inferTuple _ | .typeOf .. | .positionOf .. | .isView _ | .layout _
  | .layouts => true

def Catalog.Answer.isRefusal : Catalog.Answer → Bool
  | .refused _ => true
  | .tuple _ | .type _ | .position _ | .isView _ | .layout _ | .layouts _ => false

namespace Registry

open Catalog (Call)

/-- Whether a call was refused or broke off. -/
def Outcome.isFailure (o : Outcome) : Bool := o.answer?.all Catalog.Answer.isRefusal

/-! ## Actions -/

namespace Action

variable {α β ε : Type} {x : Action α} {f : α → Action β}

/-- The action writes nothing, wherever it stops. -/
def ReadsOnly (x : Action α) : Prop := ∀ s, (x s).2.registry = s.registry

/-- The action has written nothing if it stops early. -/
def Atomic (x : Action α) : Prop := ∀ s e, (x s).1 = .error e → (x s).2.registry = s.registry

theorem readsOnly_halt (h : Halt) : (halt h : Action α).ReadsOnly := fun _ => rfl

theorem readsOnly_ofExcept (y : Except Halt α) : (ofExcept y).ReadsOnly := fun _ => rfl

theorem readsOnly_ofLogged (y : Logged α) : (ofLogged y).ReadsOnly := fun _ => rfl

theorem readsOnly_emit (e : Event) : (emit e).ReadsOnly := fun _ => rfl

theorem readsOnly_registry : registry.ReadsOnly := fun _ => rfl

theorem ReadsOnly.bind (hx : x.ReadsOnly) (hf : ∀ a, (f a).ReadsOnly) : (x >>= f).ReadsOnly := by
  intro s
  have hs := hx s
  cases hrun : x s with
  | mk result s' =>
    rw [hrun] at hs
    cases result with
    | ok a => rw [bind_of_ok hrun, hf a s', hs]
    | error e => rw [bind_of_error hrun, hs]

theorem ReadsOnly.foldlM {f : α → ε → Action α} (hf : ∀ a e, (f a e).ReadsOnly) :
    ∀ (es : List ε) (a : α), (es.foldlM f a).ReadsOnly
  | [], _ => fun _ => rfl
  | e :: es, a => by
    rw [List.foldlM_cons]
    exact (hf a e).bind fun a' => ReadsOnly.foldlM hf es a'

theorem ReadsOnly.atomic (hx : x.ReadsOnly) : x.Atomic := fun s _ _ => hx s

/-- What reads only can stand before anything that is atomic. -/
theorem ReadsOnly.bind_atomic (hx : x.ReadsOnly) (hf : ∀ a, (f a).Atomic) :
    (x >>= f).Atomic := by
  intro s e hresult
  have hs := hx s
  cases hrun : x s with
  | mk result s' =>
    rw [hrun] at hs
    cases result with
    | ok a =>
      rw [bind_of_ok hrun] at hresult ⊢
      rw [hf a s' e hresult, hs]
    | error e => rw [bind_of_error hrun, hs]

end Action

open ViewTyping.Registry.Action

/-! ## Registrations -/

theorem readsOnly_addField (key : String) (scope : Scope) (field : String) (type : ValueType) :
    (addField key scope field type).ReadsOnly := by
  unfold addField
  split
  · exact fun _ => rfl
  · exact readsOnly_halt _

theorem readsOnly_addOutput (view : String) (scope : Scope) (e : Expr) :
    (addOutput view scope e).ReadsOnly :=
  (readsOnly_ofLogged _).bind fun _ => readsOnly_registry.bind fun _ =>
    (readsOnly_ofLogged _).bind fun _ => (readsOnly_emit _).bind fun _ => readsOnly_addField _ _ _ _

/-- A scope is stored only when its types have been read, and then its key is listed too. -/
theorem atomic_enter (kind : ScopeKind) (key : String)
    (registered : String → List ValueType → Event) (scope : Scope) :
    (enter kind key registered scope).Atomic :=
  (readsOnly_ofExcept _).bind_atomic fun _ => (readsOnly_emit _).bind_atomic fun _ _ _ hresult =>
    nomatch hresult

theorem atomic_registerTable (t : Table) : (registerTable t).Atomic := by
  refine readsOnly_registry.bind_atomic fun m => ?_
  split
  · exact (readsOnly_halt _).atomic
  · exact (ReadsOnly.foldlM (fun _ _ => readsOnly_addField _ _ _ _) _ _).bind_atomic fun _ =>
      atomic_enter _ _ _ _

theorem atomic_registerView (name : String) (select : List Expr) :
    (registerView name select).Atomic := by
  refine readsOnly_registry.bind_atomic fun m => ?_
  split
  · exact (readsOnly_halt _).atomic
  · exact (ReadsOnly.foldlM (readsOnly_addOutput _) _ _).bind_atomic fun _ => atomic_enter _ _ _ _

/-! ## Calls -/

variable {m : Registry} {call : Call}

theorem registry_register {x : Action (List ValueType)} (hx : x.Atomic)
    (h : (m.register x).isFailure = true) : (m.register x).registry = m := by
  unfold register Outcome.isFailure at h
  cases hresult : (x ⟨m, []⟩).1 with
  | ok tuple => simp [hresult, answerOf, Catalog.Answer.isRefusal] at h
  | error e => exact hx ⟨m, []⟩ e hresult

/-- **A call that only reads or fails leaves the registry.** -/
theorem registry_of_idle (h : call.isRead = true ∨ (m.perform call).isFailure = true) :
    (m.perform call).registry = m := by
  cases call with
  | registerTable t => exact registry_register (atomic_registerTable t) (h.resolve_left nofun)
  | registerView name select =>
    exact registry_register (atomic_registerView name select) (h.resolve_left nofun)
  | _ => rfl

/-- **Calls that only read or fail can be left out.** Each call is marked by whether it stays; those
that stay lead to the same registry, and each of them has the outcome that it had among all calls:
the same answer, the same events and the same registry after it. -/
theorem outcomes_without_idle (m : Registry) (calls : List (Call × Bool))
    (h : ∀ x ∈ calls.zip (m.performAll (calls.map Prod.fst)), x.1.2 = false →
      x.1.1.isRead = true ∨ x.2.isFailure = true) :
    m.after ((calls.filter Prod.snd).map Prod.fst) = m.after (calls.map Prod.fst) ∧
    m.performAll ((calls.filter Prod.snd).map Prod.fst) =
      ((calls.zip (m.performAll (calls.map Prod.fst))).filter fun x => x.1.2).map Prod.snd := by
  induction calls generalizing m with
  | nil => exact ⟨rfl, rfl⟩
  | cons x calls ih =>
    obtain ⟨call, stays⟩ := x
    rw [List.map_cons, performAll, List.zip_cons_cons, List.forall_mem_cons] at h
    obtain ⟨hregistry, houtcomes⟩ := ih (m.perform call).registry h.2
    cases stays with
    | true =>
      refine ⟨hregistry, ?_⟩
      simp [performAll, houtcomes]
    | false =>
      -- the calls behind this one start from the registry that it was made on
      have hsame : (m.perform call).registry = m := registry_of_idle (h.1 rfl)
      rw [hsame] at hregistry houtcomes
      refine ⟨?_, ?_⟩
      · simpa [after, hsame] using hregistry
      · simpa [performAll, hsame] using houtcomes

/-- Calls of which three are left out: a question that is answered, a view that is refused at its
second output, when the first has got a name and a type already, and a question about that view. -/
def retriedCalls : List (Call × Bool) :=
  [(.registerTable ⟨"node", [⟨"id", .string, false⟩]⟩, true),
    (.infer (.column ⟨"node", ⟨"id", .string, false⟩⟩), false),
    (.registerView "ids" [.column ⟨"node", ⟨"id", .string, false⟩⟩,
      .aliased (.literal (.bool true)) "Id"], false),
    (.typeOf "ids" "id", false),
    (.registerView "IDs" [.column ⟨"node", ⟨"id", .string, false⟩⟩,
      .aliased (.literal (.bool true)) "ready"], true),
    (.positionOf "ids" "Ready", true)]

/-- The view that was refused is not in the way of the view of its name that comes later, and has
left no field in it. -/
theorem outcomes_without_idle_retried :
    (∀ x ∈ retriedCalls.zip (performAll {} (retriedCalls.map Prod.fst)), x.1.2 = false →
      x.1.1.isRead = true ∨ x.2.isFailure = true) ∧
    (performAll {} ((retriedCalls.filter Prod.snd).map Prod.fst)).map Outcome.answer? =
      [some (.tuple [.string]), some (.tuple [.string, .bool]), some (.position 1)] := by
  have hidle : ∀ x ∈ retriedCalls.zip (performAll {} (retriedCalls.map Prod.fst)), x.1.2 = false →
      x.1.1.isRead = true ∨ x.2.isFailure = true := by
    decide +kernel
  refine ⟨hidle, ?_⟩
  rw [(outcomes_without_idle {} retriedCalls hidle).2]
  decide +kernel

end Registry

end ViewTyping
