import Mathlib.Data.List.Induction
import ViewTyping.Codec.Program
import ViewTyping.Proofs.PartialReadings

/-!
# What is due, and the first fault

What a text is to hold is described without any decoder (`Due`): values without parts, lists,
records that are written as objects or as arrays, and alternatives. `Takes` says that a value is
what is due. The first fault of one that is not stands at a place that one gets to (`Leads`) when
all that stands before it is what is due there; `FaultAt` lists the faults there can be at a place.
A value is misplaced where an array goes on behind a record's last field, where an alternative is
due and what stands there cannot begin one, and behind the one member that an alternative has.

* `takes_or_firstFault`: every value is what is due or has a first fault.
-/

set_option autoImplicit false

namespace ViewTyping.Json

open Reading

/-! ## What can be due -/

/-- Values without parts. -/
inductive Leaf where
  | null
  | text
  | bool
  | whole (least greatest : Int)
  | double
  | kind
deriving DecidableEq, Repr

def Leaf.accepts : Leaf → Reading → Bool
  | .null, .null | .text, .str (some _) | .bool, .bool _ => true
  | .whole least greatest, .num n => n.toInt?.any fun i => least ≤ i && i ≤ greatest
  | .double, .num n => n.inRange
  | .kind, .str (some name) => (Kind.ofName? name).isSome
  | _, _ => false

/-- A field of a record. -/
structure DueField (δ : Type) where
  name : String
  optional : Bool
  due : δ

inductive Due where
  | leaf (leaf : Leaf)
  | list (item : Due)
  | record (first : DueField Due) (others : List (DueField Due))
  /-- One of the alternatives. Where `null` is due as its content, the name may stand alone. -/
  | choice (alternatives : List (String × Due))
  | expr

abbrev Fields := List (DueField Due)

abbrev Alternatives := List (String × Due)

abbrev Members := List (Option String × Reading)

/-- The field that a member is by its name. -/
def fieldNamed? (fields : Fields) (key : String) : Option (DueField Due) :=
  fields.find? fun field => field.name == key

theorem fieldNamed?_self (field : DueField Due) (fields : Fields) :
    fieldNamed? (field :: fields) field.name = some field := by
  rw [fieldNamed?, List.find?_cons, beq_self_eq_true]

theorem fieldNamed?_of_ne {field : DueField Due} {key : String} (h : key ≠ field.name)
    (fields : Fields) : fieldNamed? (field :: fields) key = fieldNamed? fields key := by
  rw [fieldNamed?, List.find?_cons, beq_false_of_ne h.symm]
  rfl

theorem fieldNamed?_singleton {field field' : DueField Due} {key : String} :
    fieldNamed? [field] key = some field' ↔ key = field.name ∧ field' = field := by
  by_cases hkey : key = field.name
  · simp [hkey, fieldNamed?_self, eq_comm]
  · rw [fieldNamed?_of_ne hkey]
    simp [hkey, fieldNamed?]

theorem fieldNamed?_ne_none {field : DueField Due} {fields : Fields} (h : field ∈ fields) :
    fieldNamed? fields field.name ≠ none := by
  intro hnone
  simpa using List.find?_eq_none.1 hnone field h

namespace Due

def required (name : String) (due : Due) : DueField Due := ⟨name, false, due⟩

def optional (name : String) (due : Due) : DueField Due := ⟨name, true, due⟩

def text : Due := leaf .text

/-- One of the names. -/
def oneOf (names : List String) : Due := choice (names.map fun name => (name, leaf .null))

def column : Due :=
  record (required "name" text) [required "kind" (leaf .kind),
    optional "controllable" (leaf .bool)]

def table : Due := record (required "name" text) [required "columns" (list column)]

def columnRef : Due := record (required "table" text) [required "column" column]

/-- Integers have 32 bits, long ones 64. -/
def literal : Due :=
  choice [("String", text), ("Int", leaf (.whole (-2147483648) 2147483647)), ("Bool", leaf .bool),
    ("Long", leaf (.whole (-9223372036854775808) 9223372036854775807)), ("Float", leaf .double),
    ("Null", leaf .null)]

def qualifier : Due := choice [("Table", text), ("Where", expr), ("Join", expr)]

def comprehension : Due :=
  record (required "head" (record (required "select" (list expr)) []))
    [required "qualifiers" (list qualifier)]

def exprAlternatives : Alternatives :=
  [("Column", columnRef), ("Literal", literal),
    ("Unary", record (required "op" (oneOf (UnaryOp.all.map UnaryOp.name))) [required "arg" expr]),
    ("Binary", record (required "op" (oneOf (BinaryOp.all.map BinaryOp.name)))
      [required "left" expr, required "right" expr]),
    ("Call", record (required "function" (oneOf (Builtin.every.map Builtin.name)))
      [required "args" (list expr)]),
    ("Exists", expr), ("IsNull", expr), ("IsNotNull", expr),
    ("ListComprehension", comprehension),
    ("GroupByComprehension", record (required "comprehension" comprehension)
      [required "group_by" (list columnRef)]),
    ("Aliased", record (required "expr" expr) [required "alias" text])]

def view : Due := record (required "name" text) [required "select" (list expr)]

def program : Due := record (optional "tables" (list table)) [optional "views" (list view)]

end Due

/-! ## What is taken -/

/-- The names of an object's members: each is a text, that of no field is given twice, and the value
of a member that is no field is JSON. -/
structure Admits (fields : Fields) (members : Members) : Prop where
  named : ∀ m ∈ members, m.1 ≠ none
  once : ∀ key, (fieldNamed? fields key).isSome = true → (members.map Prod.fst).count (some key) ≤ 1
  skipped : ∀ key r, (some key, r) ∈ members → fieldNamed? fields key = none → r.isComplete = true

/-- The value is what is due, where `room` arrays and objects may still be opened. -/
inductive Takes : Due → Nat → Reading → Prop
  | leaf {leaf : Leaf} {room : Nat} {r : Reading} (h : leaf.accepts r = true) :
      Takes (.leaf leaf) room r
  | list {item : Due} {room : Nat} {items : List Reading} (h : ∀ r ∈ items, Takes item room r) :
      Takes (.list item) (room + 1) (.arr items .closed)
  | array {first : DueField Due} {others : Fields} {room : Nat} {items : List Reading}
      (h : ∀ x ∈ (first :: others).zip items, Takes x.1.due room x.2)
      (hlen : items.length ≤ (first :: others).length)
      (hrest : ∀ field ∈ (first :: others).drop items.length, field.optional = true) :
      Takes (.record first others) (room + 1) (.arr items .closed)
  | object {first : DueField Due} {others : Fields} {room : Nat} {members : Members}
      (hadmits : Admits (first :: others) members)
      (h : ∀ key field r, fieldNamed? (first :: others) key = some field →
        (some key, r) ∈ members → Takes field.due room r)
      (hall : ∀ field ∈ first :: others, field.optional = false →
        some field.name ∈ members.map Prod.fst) :
      Takes (.record first others) (room + 1) (.obj members .closed)
  | name {alternatives : Alternatives} {room : Nat} {name : String}
      (h : alternatives.lookup name = some (.leaf .null)) :
      Takes (.choice alternatives) room (.str (some name))
  | content {alternatives : Alternatives} {room : Nat} {name : String} {due : Due} {r : Reading}
      (hname : alternatives.lookup name = some due) (h : Takes due room r) :
      Takes (.choice alternatives) (room + 1) (.obj [(some name, r)] .closed)
  | expr {room : Nat} {r : Reading} (h : Takes (.choice Due.exprAlternatives) room r) :
      Takes .expr room r

/-- The items of an array are what is due as the fields at their places. -/
def ItemsTaken (room : Nat) (fields : Fields) (items : List Reading) : Prop :=
  ∀ x ∈ fields.zip items, Takes x.1.due room x.2

theorem itemsTaken_nil (room : Nat) (fields : Fields) : ItemsTaken room fields [] := by
  simp [ItemsTaken]

theorem itemsTaken_cons {room : Nat} {field : DueField Due} {fields : Fields} {r : Reading}
    {rs : List Reading} : ItemsTaken room (field :: fields) (r :: rs) ↔
      Takes field.due room r ∧ ItemsTaken room fields rs := by
  simp [ItemsTaken]

/-- The members of an object are fields with what is due, or are skipped. -/
structure MembersTaken (room : Nat) (fields : Fields) (members : Members) : Prop
    extends Admits fields members where
  taken : ∀ key field r, fieldNamed? fields key = some field → (some key, r) ∈ members →
    Takes field.due room r

/-! ## Faults -/

/-- All that stands before the second place, which is inside the first, is what is due. -/
inductive Leads : Due → Nat → Reading → Due → Nat → Reading → Prop
  | item {item : Due} {room : Nat} {before after : List Reading} {r : Reading} {ending : Ending}
      (h : ∀ r' ∈ before, Takes item room r') :
      Leads (.list item) (room + 1) (.arr (before ++ r :: after) ending) item room r
  | array {first : DueField Due} {others : Fields} {room : Nat} {items : List Reading}
      {ending : Ending} {before after : List (DueField Due × Reading)} {field : DueField Due}
      {r : Reading} (hzip : (first :: others).zip items = before ++ (field, r) :: after)
      (h : ∀ x ∈ before, Takes x.1.due room x.2) :
      Leads (.record first others) (room + 1) (.arr items ending) field.due room r
  | member {first : DueField Due} {others : Fields} {room : Nat} {before after : Members}
      {key : String} {field : DueField Due} {r : Reading} {ending : Ending}
      (h : MembersTaken room (first :: others) before)
      (hfield : fieldNamed? (first :: others) key = some field)
      (hnew : some key ∉ before.map Prod.fst) :
      Leads (.record first others) (room + 1) (.obj (before ++ (some key, r) :: after) ending)
        field.due room r
  | content {alternatives : Alternatives} {room : Nat} {name : String} {due : Due} {r : Reading}
      {rest : Members} {ending : Ending} (hname : alternatives.lookup name = some due) :
      Leads (.choice alternatives) (room + 1) (.obj ((some name, r) :: rest) ending) due room r
  | expr {room : Nat} {r : Reading} : Leads .expr room r (.choice Due.exprAlternatives) room r

/-- Whether a value without parts is one at all. -/
def Reading.isReadable : Reading → Bool
  | .broken | .str none => false
  | .num n => n.inRange
  | .null | .bool _ | .str (some _) | .arr .. | .obj .. => true

/-- Whether a value is not of the form of a leaf. A text that stands for no kind has the form. -/
def Leaf.refuses : Leaf → Reading → Bool
  | .kind, .str (some _) => false
  | leaf, r => !leaf.accepts r

/-- Whether a value is not of the form that is due, whatever is in it. -/
def Due.otherForm : Due → Reading → Bool
  | .leaf l, r => l.refuses r
  | .list _, .arr .. | .record .., .arr .. | .record .., .obj .. => false
  | .list _, _ | .record .., _ => true
  | .choice _, _ | .expr, _ => false

/-- Whether no alternative is written as a value that begins so. -/
def Reading.isNoAlternative : Reading → Bool
  | .null | .bool _ | .num _ | .arr .. => true
  | .str _ | .obj .. | .broken => false

/-- The faults at a place where something is due and to which nothing before it is in the way. -/
inductive FaultAt : Due → Nat → Reading → Fault → Prop
  -- values of another form
  | unreadable {due : Due} {room : Nat} {r : Reading} (h : due.otherForm r = true)
      (hr : r.isReadable = false) : FaultAt due room r .malformed
  | otherForm {due : Due} {room : Nat} {r : Reading} (h : due.otherForm r = true)
      (hr : r.isReadable = true) : FaultAt due room r .mismatch
  | unknownKind {room : Nat} {name : String} (h : Kind.ofName? name = none) :
      FaultAt (.leaf .kind) room (.str (some name)) (.unknownKind name)
  -- brackets that may not be opened any more
  | deepList {item : Due} {items : List Reading} {ending : Ending} :
      FaultAt (.list item) 0 (.arr items ending) .malformed
  | deepArray {first : DueField Due} {others : Fields} {items : List Reading} {ending : Ending} :
      FaultAt (.record first others) 0 (.arr items ending) .malformed
  | deepObject {first : DueField Due} {others : Fields} {members : Members} {ending : Ending} :
      FaultAt (.record first others) 0 (.obj members ending) .malformed
  | deepChoice {alternatives : Alternatives} {members : Members} {ending : Ending} :
      FaultAt (.choice alternatives) 0 (.obj members ending) .malformed
  -- lists
  | openList {item : Due} {room : Nat} {items : List Reading} {ending : Ending}
      (h : ∀ r ∈ items, Takes item room r) (hending : ending ≠ .closed) :
      FaultAt (.list item) (room + 1) (.arr items ending) .malformed
  -- records that are written as arrays
  | openArray {first : DueField Due} {others : Fields} {room : Nat} {items : List Reading}
      {ending : Ending} (h : ItemsTaken room (first :: others) items)
      (hlen : items.length ≤ (first :: others).length) (hending : ending ≠ .closed) :
      FaultAt (.record first others) (room + 1) (.arr items ending) .malformed
  | missingItem {first : DueField Due} {others : Fields} {room : Nat} {items : List Reading}
      {field : DueField Due} (h : ItemsTaken room (first :: others) items)
      (hfield : field ∈ (first :: others).drop items.length) (hrequired : field.optional = false) :
      FaultAt (.record first others) (room + 1) (.arr items .closed) .mismatch
  | itemBehind {first : DueField Due} {others : Fields} {room : Nat} {items : List Reading}
      {ending : Ending} (h : ItemsTaken room (first :: others) items)
      (hlen : (first :: others).length < items.length) :
      FaultAt (.record first others) (room + 1) (.arr items ending) .misplaced
  -- records that are written as objects
  | badName {first : DueField Due} {others : Fields} {room : Nat} {before after : Members}
      {r : Reading} {ending : Ending} (h : MembersTaken room (first :: others) before) :
      FaultAt (.record first others) (room + 1) (.obj (before ++ (none, r) :: after) ending)
        .malformed
  | repeatedField {first : DueField Due} {others : Fields} {room : Nat} {before after : Members}
      {key : String} {r : Reading} {ending : Ending}
      (h : MembersTaken room (first :: others) before)
      (hfield : (fieldNamed? (first :: others) key).isSome = true)
      (hfound : some key ∈ before.map Prod.fst) :
      FaultAt (.record first others) (room + 1) (.obj (before ++ (some key, r) :: after) ending)
        .mismatch
  | brokenMember {first : DueField Due} {others : Fields} {room : Nat} {before after : Members}
      {key : String} {r : Reading} {ending : Ending}
      (h : MembersTaken room (first :: others) before)
      (hkey : fieldNamed? (first :: others) key = none) (hr : r.isComplete = false) :
      FaultAt (.record first others) (room + 1) (.obj (before ++ (some key, r) :: after) ending)
        .malformed
  | openObject {first : DueField Due} {others : Fields} {room : Nat} {members : Members}
      {ending : Ending} (h : MembersTaken room (first :: others) members)
      (hending : ending ≠ .closed) :
      FaultAt (.record first others) (room + 1) (.obj members ending) .malformed
  | missingField {first : DueField Due} {others : Fields} {room : Nat} {members : Members}
      {field : DueField Due} (h : MembersTaken room (first :: others) members)
      (hfield : field ∈ first :: others) (hrequired : field.optional = false)
      (hmissing : some field.name ∉ members.map Prod.fst) :
      FaultAt (.record first others) (room + 1) (.obj members .closed) .mismatch
  -- alternatives
  | brokenChoice {alternatives : Alternatives} {room : Nat} :
      FaultAt (.choice alternatives) room .broken .malformed
  | brokenName {alternatives : Alternatives} {room : Nat} :
      FaultAt (.choice alternatives) room (.str none) .malformed
  | noAlternative {alternatives : Alternatives} {room : Nat} {r : Reading}
      (h : r.isNoAlternative = true) : FaultAt (.choice alternatives) room r .misplaced
  | unknownName {alternatives : Alternatives} {room : Nat} {name : String}
      (h : alternatives.lookup name ≠ some (.leaf .null)) :
      FaultAt (.choice alternatives) room (.str (some name)) .mismatch
  | noMember {alternatives : Alternatives} {room : Nat} :
      FaultAt (.choice alternatives) (room + 1) (.obj [] .closed) .misplaced
  | cutObject {alternatives : Alternatives} {room : Nat} :
      FaultAt (.choice alternatives) (room + 1) (.obj [] .cut) .malformed
  | badTag {alternatives : Alternatives} {room : Nat} {r : Reading} {rest : Members}
      {ending : Ending} :
      FaultAt (.choice alternatives) (room + 1) (.obj ((none, r) :: rest) ending) .malformed
  | unknownTag {alternatives : Alternatives} {room : Nat} {name : String} {r : Reading}
      {rest : Members} {ending : Ending} (h : alternatives.lookup name = none) :
      FaultAt (.choice alternatives) (room + 1) (.obj ((some name, r) :: rest) ending) .mismatch
  | memberBehind {alternatives : Alternatives} {room : Nat} {name : String} {due : Due}
      {r : Reading} {rest : Members} {ending : Ending}
      (hname : alternatives.lookup name = some due) (h : Takes due room r) (hrest : rest ≠ []) :
      FaultAt (.choice alternatives) (room + 1) (.obj ((some name, r) :: rest) ending) .misplaced
  | openChoice {alternatives : Alternatives} {room : Nat} {name : String} {due : Due} {r : Reading}
      {ending : Ending} (hname : alternatives.lookup name = some due) (h : Takes due room r)
      (hending : ending ≠ .closed) :
      FaultAt (.choice alternatives) (room + 1) (.obj [(some name, r)] ending) .malformed

/-- The first fault of a value where something is due. -/
inductive FirstFault : Due → Nat → Reading → Fault → Prop
  | here {due : Due} {room : Nat} {r : Reading} {f : Fault} (h : FaultAt due room r f) :
      FirstFault due room r f
  | inside {due due' : Due} {room room' : Nat} {r r' : Reading} {f : Fault}
      (hleads : Leads due room r due' room' r') (h : FirstFault due' room' r' f) :
      FirstFault due room r f

/-! ### Members one after the other -/

section
variable {room : Nat} {fields : Fields} {before : Members} {m : Option String × Reading}
  {key : String} {field : DueField Due} {r : Reading}

theorem membersTaken_nil : MembersTaken room fields [] :=
  ⟨⟨by simp, by simp, by simp⟩, by simp⟩

theorem MembersTaken.init (h : MembersTaken room fields (before ++ [m])) :
    MembersTaken room fields before := by
  refine ⟨⟨fun m' hm' => h.named m' (List.mem_append_left _ hm'), fun key hkey => ?_,
    fun key r hr => h.skipped key r (List.mem_append_left _ hr)⟩,
    fun key field r hfield hr => h.taken key field r hfield (List.mem_append_left _ hr)⟩
  have honce := h.once key hkey
  rw [List.map_append, List.count_append] at honce
  omega

theorem MembersTaken.last_new (h : MembersTaken room fields (before ++ [(some key, r)]))
    (hfield : fieldNamed? fields key = some field) : some key ∉ before.map Prod.fst := by
  intro hfound
  have honce := h.once key (by rw [hfield]; rfl)
  rw [List.map_append, List.count_append, List.map_singleton, List.count_singleton_self] at honce
  have hpos := List.count_pos_iff.2 hfound
  omega

theorem MembersTaken.snoc_field (h : MembersTaken room fields before)
    (hfield : fieldNamed? fields key = some field) (hnew : some key ∉ before.map Prod.fst)
    (hr : Takes field.due room r) : MembersTaken room fields (before ++ [(some key, r)]) := by
  refine ⟨⟨?_, fun key' hkey' => ?_, fun key' r' hr' hkey' => ?_⟩, fun key' field' r' hf' hr' => ?_⟩
  · simpa [or_imp, forall_and] using h.named
  · rw [List.map_append, List.count_append, List.map_singleton]
    by_cases hkey : key' = key
    · simp [hkey, List.count_eq_zero.2 hnew]
    · rw [List.count_singleton, if_neg (by simpa using Ne.symm hkey)]
      exact h.once key' hkey'
  · rcases List.mem_append.1 hr' with hr' | hr'
    · exact h.skipped key' r' hr' hkey'
    · cases List.mem_singleton.1 hr'
      rw [hfield] at hkey'
      cases hkey'
  · rcases List.mem_append.1 hr' with hr' | hr'
    · exact h.taken key' field' r' hf' hr'
    · cases List.mem_singleton.1 hr'
      rw [hfield] at hf'
      cases hf'
      exact hr

theorem MembersTaken.snoc_other (h : MembersTaken room fields before)
    (hkey : fieldNamed? fields key = none) (hr : r.isComplete = true) :
    MembersTaken room fields (before ++ [(some key, r)]) := by
  refine ⟨⟨?_, fun key' hkey' => ?_, fun key' r' hr' hkey' => ?_⟩, fun key' field' r' hf' hr' => ?_⟩
  · simpa [or_imp, forall_and] using h.named
  · have hne : key ≠ key' := by
      rintro rfl
      rw [hkey] at hkey'
      cases hkey'
    rw [List.map_append, List.count_append, List.map_singleton, List.count_singleton,
      if_neg (by simpa using hne)]
    exact h.once key' hkey'
  · rcases List.mem_append.1 hr' with hr' | hr'
    · exact h.skipped key' r' hr' hkey'
    · cases List.mem_singleton.1 hr'
      exact hr
  · rcases List.mem_append.1 hr' with hr' | hr'
    · exact h.taken key' field' r' hf' hr'
    · cases List.mem_singleton.1 hr'
      rw [hkey] at hf'
      cases hf'

end

/-! ## There is a first fault, or none -/

theorem forall_or_first {α : Type} (P : α → Prop) : ∀ xs : List α, (∀ x ∈ xs, P x) ∨
    ∃ before x after, xs = before ++ x :: after ∧ (∀ y ∈ before, P y) ∧ ¬ P x
  | [] => .inl (by simp)
  | x :: xs => by
    by_cases hx : P x
    · rcases forall_or_first P xs with h | ⟨before, y, after, rfl, hbefore, hy⟩
      · exact .inl (List.forall_mem_cons.2 ⟨hx, h⟩)
      · exact .inr ⟨x :: before, y, after, rfl, List.forall_mem_cons.2 ⟨hx, hbefore⟩, hy⟩
    · exact .inr ⟨[], x, xs, rfl, by simp, hx⟩

/-- The value is what is due, or it has a first fault. -/
def Decided (due : Due) (room : Nat) (r : Reading) : Prop :=
  Takes due room r ∨ ∃ f, FirstFault due room r f

section
variable {room : Nat} {r : Reading}

theorem decided_of_otherForm {due : Due} (h : due.otherForm r = true) : Decided due room r := by
  cases hr : r.isReadable with
  | true => exact .inr ⟨_, .here (.otherForm h hr)⟩
  | false => exact .inr ⟨_, .here (.unreadable h hr)⟩

theorem decided_leaf (leaf : Leaf) : Decided (.leaf leaf) room r := by
  cases hform : leaf.refuses r with
  | true => exact decided_of_otherForm hform
  | false =>
    unfold Leaf.refuses at hform
    split at hform
    · rename_i name
      cases hk : Kind.ofName? name with
      | none => exact .inr ⟨_, .here (.unknownKind hk)⟩
      | some k => exact .inl (.leaf (by simp [Leaf.accepts, hk]))
    · exact .inl (.leaf (by simpa using hform))

variable (hinner : ∀ due r, Decided due room r)
include hinner

theorem decided_list (item : Due) (items : List Reading) (ending : Ending) :
    Decided (.list item) (room + 1) (.arr items ending) := by
  rcases forall_or_first (Takes item room) items with h | ⟨before, r, after, rfl, hbefore, hr⟩
  · by_cases hending : ending = .closed
    · subst hending
      exact .inl (.list h)
    · exact .inr ⟨_, .here (.openList h hending)⟩
  · obtain ⟨f, hf⟩ := (hinner item r).resolve_left hr
    exact .inr ⟨f, .inside (.item hbefore) hf⟩

theorem decided_array (first : DueField Due) (others : Fields) (items : List Reading)
    (ending : Ending) : Decided (.record first others) (room + 1) (.arr items ending) := by
  rcases forall_or_first (fun x => Takes x.1.due room x.2) ((first :: others).zip items) with
    h | ⟨before, ⟨field, r⟩, after, hzip, hbefore, hr⟩
  · by_cases hlen : items.length ≤ (first :: others).length
    · by_cases hending : ending = .closed
      · subst hending
        rcases forall_or_first (fun field : DueField Due => field.optional = true)
          ((first :: others).drop items.length) with hrest | ⟨_, field, _, hdrop, -, hrequired⟩
        · exact .inl (.array h hlen hrest)
        · have hfield : field ∈ (first :: others).drop items.length := by simp [hdrop]
          exact .inr ⟨_, .here (.missingItem h hfield (by simpa using hrequired))⟩
      · exact .inr ⟨_, .here (.openArray h hlen hending)⟩
    · exact .inr ⟨_, .here (.itemBehind h (by omega))⟩
  · obtain ⟨f, hf⟩ := (hinner field.due r).resolve_left hr
    exact .inr ⟨f, .inside (.array hzip hbefore) hf⟩

/-- The members are taken, or one of them is a fault whatever comes behind it. -/
theorem membersTaken_or (first : DueField Due) (others : Fields) (members : Members) :
    MembersTaken room (first :: others) members ∨ ∃ f, ∀ after ending,
      FirstFault (.record first others) (room + 1) (.obj (members ++ after) ending) f := by
  induction members using List.reverseRecOn with
  | nil => exact .inl membersTaken_nil
  | append_singleton before m ih =>
    simp only [List.append_assoc, List.singleton_append]
    rcases ih with h | ⟨f, hf⟩
    · obtain ⟨_ | key, r⟩ := m
      · exact .inr ⟨_, fun after ending => .here (.badName h)⟩
      · cases hfield : fieldNamed? (first :: others) key with
        | none =>
          cases hr : r.isComplete with
          | true => exact .inl (h.snoc_other hfield hr)
          | false => exact .inr ⟨_, fun after ending => .here (.brokenMember h hfield hr)⟩
        | some field =>
          by_cases hfound : some key ∈ before.map Prod.fst
          · exact .inr ⟨_, fun after ending =>
              .here (.repeatedField h (by rw [hfield]; rfl) hfound)⟩
          · rcases hinner field.due r with hr | ⟨f, hf⟩
            · exact .inl (h.snoc_field hfield hfound hr)
            · exact .inr ⟨f, fun after ending => .inside (.member h hfield hfound) hf⟩
    · exact .inr ⟨f, fun after ending => hf (m :: after) ending⟩

theorem decided_object (first : DueField Due) (others : Fields) (members : Members)
    (ending : Ending) : Decided (.record first others) (room + 1) (.obj members ending) := by
  rcases membersTaken_or hinner first others members with h | ⟨f, hf⟩
  · by_cases hending : ending = .closed
    · subst hending
      rcases forall_or_first (fun field : DueField Due => field.optional = false →
        some field.name ∈ members.map Prod.fst) (first :: others) with
        hall | ⟨_, field, _, hsplit, -, hmissing⟩
      · exact .inl (.object h.toAdmits h.taken hall)
      · obtain ⟨hrequired, hmissing⟩ := Classical.not_imp.1 hmissing
        exact .inr ⟨_, .here (.missingField h (by simp [hsplit]) hrequired hmissing)⟩
    · exact .inr ⟨_, .here (.openObject h hending)⟩
  · refine .inr ⟨f, ?_⟩
    simpa using hf [] ending

theorem decided_choice (alternatives : Alternatives) (members : Members) (ending : Ending) :
    Decided (.choice alternatives) (room + 1) (.obj members ending) := by
  rcases members with _ | ⟨⟨_ | name, r⟩, rest⟩
  · cases ending with
    | closed => exact .inr ⟨_, .here .noMember⟩
    | cut => exact .inr ⟨_, .here .cutObject⟩
  · exact .inr ⟨_, .here .badTag⟩
  · cases hname : alternatives.lookup name with
    | none => exact .inr ⟨_, .here (.unknownTag hname)⟩
    | some due =>
      rcases hinner due r with hr | ⟨f, hf⟩
      · by_cases hrest : rest = []
        · subst hrest
          by_cases hending : ending = .closed
          · subst hending
            exact .inl (.content hname hr)
          · exact .inr ⟨_, .here (.openChoice hname hr hending)⟩
        · exact .inr ⟨_, .here (.memberBehind hname hr hrest)⟩
      · exact .inr ⟨f, .inside (.content hname) hf⟩

end

/-- What is inside of an array or object has less room. -/
theorem decided_of_inner {room : Nat} (hinner : ∀ room', room = room' + 1 → ∀ due r,
    Decided due room' r) (due : Due) (r : Reading) : Decided due room r := by
  have hchoice (alternatives : Alternatives) : Decided (.choice alternatives) room r := by
    cases r with
    | null | bool | num | arr => exact .inr ⟨_, .here (.noAlternative rfl)⟩
    | broken => exact .inr ⟨_, .here .brokenChoice⟩
    | str s =>
      cases s with
      | none => exact .inr ⟨_, .here .brokenName⟩
      | some name =>
        by_cases hname : alternatives.lookup name = some (.leaf .null)
        · exact .inl (.name hname)
        · exact .inr ⟨_, .here (.unknownName hname)⟩
    | obj members ending =>
      cases room with
      | zero => exact .inr ⟨_, .here .deepChoice⟩
      | succ room => exact decided_choice (hinner room rfl) alternatives members ending
  cases due with
  | leaf leaf => exact decided_leaf leaf
  | list item =>
    cases r with
    | arr items ending =>
      cases room with
      | zero => exact .inr ⟨_, .here .deepList⟩
      | succ room => exact decided_list (hinner room rfl) item items ending
    | _ => exact decided_of_otherForm rfl
  | record first others =>
    cases r with
    | arr items ending =>
      cases room with
      | zero => exact .inr ⟨_, .here .deepArray⟩
      | succ room => exact decided_array (hinner room rfl) first others items ending
    | obj members ending =>
      cases room with
      | zero => exact .inr ⟨_, .here .deepObject⟩
      | succ room => exact decided_object (hinner room rfl) first others members ending
    | _ => exact decided_of_otherForm rfl
  | choice alternatives => exact hchoice alternatives
  | expr =>
    rcases hchoice Due.exprAlternatives with h | ⟨f, hf⟩
    · exact .inl (.expr h)
    · exact .inr ⟨f, .inside .expr hf⟩

/-- **Every value is what is due or has a first fault.** By induction on the arrays and objects that
may still be opened. -/
theorem takes_or_firstFault (due : Due) (room : Nat) (r : Reading) :
    Takes due room r ∨ ∃ f, FirstFault due room r f := by
  induction room generalizing due r with
  | zero => exact decided_of_inner (fun _ hroom => by cases hroom) due r
  | succ room ih =>
    refine decided_of_inner (fun room' hroom => ?_) due r
    cases hroom
    exact ih

end ViewTyping.Json
