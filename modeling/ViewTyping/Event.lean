import ViewTyping.Diagnostic
import ViewTyping.ValueType

/-!
# Events

Typing reports what it does as events. `Logged` is a computation that may fail with a diagnostic
and that keeps the events up to its end, whether it fails or not.
-/

set_option autoImplicit false

namespace ViewTyping

inductive Level where
  | trace
  | debug
  | warn
deriving DecidableEq, Repr

def Level.name : Level → String
  | trace => "TRACE"
  | debug => "DEBUG"
  | warn => "WARN"

inductive Event where
  | registeredTable (table : String) (tuple : List ValueType)
  | registeredView (view : String) (tuple : List ValueType)
  /-- An output of a view has got a type; the view is not registered yet. -/
  | typedField (view field : String) (type : ValueType)
  /-- The typing of a view begins. -/
  | typingView (view : String)
  /-- A sub-query is used as a value and has the type of the one field it selects. -/
  | typedSubquery (subquery : String) (type : ValueType)
deriving DecidableEq, Repr

/-- What an event says about one of its attributes. -/
inductive Attribute where
  | count (n : Nat)
  | text (s : String)
deriving DecidableEq, Repr

namespace Event

def level : Event → Level
  | registeredTable .. | registeredView .. | typingView _ => .debug
  | typedField .. => .trace
  | typedSubquery .. => .warn

def message : Event → String
  | registeredTable .. => "registered table"
  | registeredView .. => "registered view"
  | typedField .. => "typed view field"
  | typingView _ => "typing view"
  | typedSubquery .. => "sub-query typed by its single projection"

def attributes : Event → List (String × Attribute)
  | registeredTable table tuple => [("table", .text table), ("fields", .count tuple.length),
      ("tuple", .text (ValueType.renderTuple tuple))]
  | registeredView view tuple => [("view", .text view), ("fields", .count tuple.length),
      ("tuple", .text (ValueType.renderTuple tuple))]
  | typedField view field type =>
    [("view", .text view), ("field", .text field), ("ty", .text type.name)]
  | typingView view => [("view", .text view)]
  | typedSubquery subquery type => [("subquery", .text subquery), ("ty", .text type.name)]

end Event

/-- The events of a computation, in order, and its result. -/
structure Logged (α : Type) where
  events : List Event
  result : Except Diagnostic α

namespace Logged

variable {α β : Type}

instance : Monad Logged where
  pure a := ⟨[], .ok a⟩
  bind x f :=
    match x.result with
    | .error d => ⟨x.events, .error d⟩
    | .ok a => ⟨x.events ++ (f a).events, (f a).result⟩

/-- Reports one event. -/
def emit (e : Event) : Logged Unit := ⟨[e], .ok ()⟩

/-- A result without events. -/
def ofExcept (x : Except Diagnostic α) : Logged α := ⟨[], x⟩

def fail (d : Diagnostic) : Logged α := ⟨[], .error d⟩

/-! ## Events and results of composed computations -/

@[ext] theorem ext {x y : Logged α} (h₁ : x.events = y.events) (h₂ : x.result = y.result) :
    x = y := by
  cases x; cases y; cases h₁; cases h₂; rfl

@[simp] theorem result_pure (a : α) : (pure a : Logged α).result = .ok a := rfl

@[simp] theorem events_pure (a : α) : (pure a : Logged α).events = [] := rfl

@[simp] theorem result_bind (x : Logged α) (f : α → Logged β) :
    (x >>= f).result = x.result.bind fun a => (f a).result := by
  show (match x.result with
    | .error d => (⟨x.events, .error d⟩ : Logged β)
    | .ok a => ⟨x.events ++ (f a).events, (f a).result⟩).result = _
  cases x.result <;> rfl

theorem events_bind_of_ok {x : Logged α} {a : α} (h : x.result = .ok a) (f : α → Logged β) :
    (x >>= f).events = x.events ++ (f a).events := by
  show (match x.result with
    | .error d => (⟨x.events, .error d⟩ : Logged β)
    | .ok a => ⟨x.events ++ (f a).events, (f a).result⟩).events = _
  rw [h]

theorem events_bind_of_error {x : Logged α} {d : Diagnostic} (h : x.result = .error d)
    (f : α → Logged β) : (x >>= f).events = x.events := by
  show (match x.result with
    | .error d => (⟨x.events, .error d⟩ : Logged β)
    | .ok a => ⟨x.events ++ (f a).events, (f a).result⟩).events = _
  rw [h]

@[simp] theorem result_map (f : α → β) (x : Logged α) : (f <$> x).result = x.result.map f := by
  show (x >>= fun a => pure (f a)).result = _
  rw [result_bind]
  cases x.result <;> rfl

@[simp] theorem events_map (f : α → β) (x : Logged α) : (f <$> x).events = x.events := by
  show (x >>= fun a => pure (f a)).events = _
  cases h : x.result with
  | ok a => exact (events_bind_of_ok h _).trans (List.append_nil _)
  | error d => exact events_bind_of_error h _

instance : LawfulMonad Logged :=
  LawfulMonad.mk' Logged
    (fun x => by
      cases h : x.result with
      | ok a =>
        ext1
        · exact (events_bind_of_ok h _).trans (List.append_nil _)
        · exact (result_bind x _).trans (by rw [h]; rfl)
      | error d =>
        ext1
        · exact events_bind_of_error h _
        · exact (result_bind x _).trans (by rw [h]; rfl))
    (fun a f => by
      ext1
      · exact (events_bind_of_ok rfl f).trans (List.nil_append _)
      · rfl)
    (fun x f g => by
      cases h : x.result with
      | error d =>
        have hf : (x >>= f).result = .error d := by rw [result_bind, h]; rfl
        ext1
        · rw [events_bind_of_error hf, events_bind_of_error h, events_bind_of_error h]
        · rw [result_bind, hf, result_bind, h]; rfl
      | ok a =>
        have hf : (x >>= f).result = (f a).result := by rw [result_bind, h]; rfl
        ext1
        · cases h' : (f a).result with
          | error d =>
            rw [events_bind_of_error (hf.trans h'), events_bind_of_ok h, events_bind_of_ok h,
              events_bind_of_error h']
          | ok b =>
            rw [events_bind_of_ok (hf.trans h'), events_bind_of_ok h, events_bind_of_ok h,
              events_bind_of_ok h', List.append_assoc]
        · rw [result_bind, hf, result_bind x, h]
          exact (result_bind (f a) g).symm)

end Logged

end ViewTyping
