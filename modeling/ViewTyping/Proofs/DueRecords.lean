import Mathlib.Data.List.Induction
import ViewTyping.Proofs.DueDecoding

/-!
# Structures and the fields that are due

A record takes the fields that are due (`Record.Meets`) from the members of an object or from the
items of an array. The laws hold of one field and of a field in front of others, so of every record.

* `meets_field`, `Meets.and`: the fields.
* `MeetsMembers.foldlM`: what the members of an object leave behind.
* `Meets.decoder`, `Meets.bodyDecoder`: structures.
-/

set_option autoImplicit false

namespace ViewTyping.Json

open Reading

namespace Record

variable {State State' α β : Type} {n : Nat}

/-- The record takes the fields from the members of an object. Those that are in a state are
`Found` in it. -/
structure MeetsMembers (n : Nat) (d : Record State α) (fields : Fields)
    (Found : State → String → Prop) : Prop where
  start : ∀ key, ¬ Found d.start key
  known : ∀ {s key}, Found s key → (fieldNamed? fields key).isSome = true
  other : ∀ {room s key r}, fieldNamed? fields key = none → d.take? room s key r = none
  again : ∀ {room s key r}, Found s key → d.take? room s key r = some (.error .mismatch)
  taken : ∀ {room s key r field}, room ≤ n → fieldNamed? fields key = some field →
    ¬ Found s key → Takes field.due room r →
    ∃ s', d.take? room s key r = some (.ok s') ∧ ∀ key', Found s' key' ↔ Found s key' ∨ key' = key
  fault : ∀ {room s key r field f}, room ≤ n → fieldNamed? fields key = some field →
    ¬ Found s key → FirstFault field.due room r f → d.take? room s key r = some (.error f)
  complete : ∀ {s}, (∀ field ∈ fields, field.optional = false → Found s field.name) →
    ∃ a, d.finish s = .ok a
  missing : ∀ {s field}, field ∈ fields → field.optional = false → ¬ Found s field.name →
    d.finish s = .error .mismatch

/-- The record takes the fields from the front of an array. -/
structure MeetsItems (n : Nat) (d : Record State α) (fields : Fields) : Prop where
  items : ∀ {room items ending}, room ≤ n → ItemsTaken room fields items →
    (items.length < fields.length → ending = .closed) →
    (∀ field ∈ fields.drop items.length, field.optional = true) →
    ∃ a, d.takeItems room items ending = .ok (a, items.drop fields.length)
  itemFault : ∀ {room items ending before field r after f}, room ≤ n →
    fields.zip items = before ++ (field, r) :: after → (∀ x ∈ before, Takes x.1.due room x.2) →
    FirstFault field.due room r f → d.takeItems room items ending = .error f
  itemsOpen : ∀ {room items ending}, room ≤ n → ItemsTaken room fields items →
    items.length < fields.length → ending ≠ .closed →
    d.takeItems room items ending = .error .malformed
  itemMissing : ∀ {room items field}, room ≤ n → ItemsTaken room fields items →
    field ∈ fields.drop items.length → field.optional = false →
    d.takeItems room items .closed = .error .mismatch

structure Meets (n : Nat) (d : Record State α) (fields : Fields)
    (Found : State → String → Prop) : Prop
    extends MeetsMembers n d fields Found, MeetsItems n d fields

/-! ## One field -/

section
variable {name : String} {value : Decoder α} {default? : Option α} {due : Due}

theorem meetsMembers_field (h : value.Meets n due) : (field name value default?).MeetsMembers n
    [⟨name, default?.isSome, due⟩] (fun s key => s.isSome = true ∧ key = name) where
  start key := by simp [field]
  known := by
    rintro s key ⟨-, rfl⟩
    rw [fieldNamed?_self ⟨key, _, due⟩]
    rfl
  other {room s key r} hkey := by
    refine if_neg ?_
    rintro rfl
    rw [fieldNamed?_self ⟨key, _, due⟩] at hkey
    cases hkey
  again := by
    rintro room s key r ⟨hs, rfl⟩
    simp only [field, if_true, hs]
  taken {room s key r dueField} hroom hkey hnew hr := by
    obtain ⟨rfl, rfl⟩ := fieldNamed?_singleton.1 hkey
    obtain ⟨a, ha⟩ := h.taken hroom hr
    refine ⟨some a, ?_, fun key' => by simp_all⟩
    have hs : s.isSome = false := by simpa using hnew
    simp [field, hs, ha, Except.map]
  fault {room s key r dueField f} hroom hkey hnew hf := by
    obtain ⟨rfl, rfl⟩ := fieldNamed?_singleton.1 hkey
    have hs : s.isSome = false := by simpa using hnew
    simp [field, hs, h.fault hroom hf, Except.map]
  complete {s} hall := by
    cases s with
    | some a => exact ⟨a, rfl⟩
    | none =>
      cases default? with
      | some a => exact ⟨a, rfl⟩
      | none => simpa using hall _ List.mem_cons_self rfl
  missing {s dueField} hmem hrequired hmissing := by
    rw [List.mem_singleton.1 hmem] at hrequired hmissing
    have hs : s = none := by simpa using hmissing
    have hdefault : default? = none := by simpa using hrequired
    rw [hs, hdefault]
    rfl

theorem meetsItems_field (h : value.Meets n due) :
    (field name value default?).MeetsItems n [⟨name, default?.isSome, due⟩] where
  items {room items ending} hroom hitems hclosed hrest := by
    cases items with
    | nil =>
      obtain ⟨a, ha⟩ := Option.isSome_iff_exists.1 (hrest _ List.mem_cons_self)
      rw [hclosed Nat.one_pos]
      exact ⟨a, by simp only [field, ha]; rfl⟩
    | cons r rs =>
      obtain ⟨a, ha⟩ := h.taken hroom (itemsTaken_cons.1 hitems).1
      exact ⟨a, by simp [field, ha, Except.map]⟩
  itemFault {room items ending before dueField r after f} hroom hzip hbefore hf := by
    cases items with
    | nil => simp at hzip
    | cons r' rs =>
      rw [List.zip_cons_cons, List.zip_nil_left, eq_comm, List.append_eq_singleton_iff] at hzip
      simp only [List.cons.injEq, Prod.mk.injEq, reduceCtorEq, and_false, or_false] at hzip
      obtain ⟨-, ⟨rfl, rfl⟩, -⟩ := hzip
      simp [field, h.fault hroom hf, Except.map]
  itemsOpen {room items ending} _ _ hlen hending := by
    rw [List.length_singleton, Nat.lt_one_iff, List.length_eq_zero_iff] at hlen
    subst hlen
    cases ending with
    | closed => exact absurd rfl hending
    | cut => rfl
  itemMissing {room items dueField} _ _ hmem hrequired := by
    cases items with
    | nil =>
      rw [List.mem_singleton.1 hmem] at hrequired
      have hdefault : default? = none := by simpa using hrequired
      simp only [field, hdefault]
    | cons => simp at hmem

theorem meets_field (h : value.Meets n due) : (field name value default?).Meets n
    [⟨name, default?.isSome, due⟩] (fun s key => s.isSome = true ∧ key = name) :=
  ⟨meetsMembers_field h, meetsItems_field h⟩

end

/-! ## A field in front of others -/

section
variable {a : Record State α} {b : Record State' β} {first : DueField Due} {fields : Fields}
  {FoundA : State → String → Prop} {FoundB : State' → String → Prop}

theorem take?_and_left {room : Nat} {s : State × State'} {key : String} {r : Reading}
    {next : Except Fault State} (h : a.take? room s.1 key r = some next) :
    (a.and b).take? room s key r = some (next.map (·, s.2)) := by
  simp only [Record.and, h]

theorem take?_and_right {room : Nat} {s : State × State'} {key : String} {r : Reading}
    (h : a.take? room s.1 key r = none) :
    (a.and b).take? room s key r =
      (b.take? room s.2 key r).map fun next => next.map (s.1, ·) := by
  simp only [Record.and, h]

theorem finish_and (s : State × State') : (a.and b).finish s =
    (a.finish s.1 >>= fun x => b.finish s.2 >>= fun y => .ok (x, y)) := rfl

theorem takeItems_and (room : Nat) (items : List Reading) (ending : Ending) :
    (a.and b).takeItems room items ending = (a.takeItems room items ending >>= fun x =>
      b.takeItems room x.2 ending >>= fun y => .ok ((x.1, y.1), y.2)) := rfl

theorem MeetsMembers.name_eq (ha : a.MeetsMembers n [first] FoundA) {s : State} {key : String}
    (h : FoundA s key) : key = first.name := by
  obtain ⟨field, hfield⟩ := Option.isSome_iff_exists.1 (ha.known h)
  exact (fieldNamed?_singleton.1 hfield).1

theorem MeetsMembers.name_ne (hb : b.MeetsMembers n fields FoundB)
    (hfirst : fieldNamed? fields first.name = none) {s : State'} {key : String}
    (h : FoundB s key) : key ≠ first.name := by
  rintro rfl
  have hknown := hb.known h
  rw [hfirst] at hknown
  cases hknown

/-- A member with another name than the first field's is left to the others. -/
theorem MeetsMembers.take?_and_of_ne (ha : a.MeetsMembers n [first] FoundA) {room : Nat}
    {s : State × State'} {key : String} {r : Reading} (hkey : key ≠ first.name) :
    (a.and b).take? room s key r =
      (b.take? room s.2 key r).map fun next => next.map (s.1, ·) :=
  take?_and_right (ha.other (fieldNamed?_of_ne hkey []))

theorem MeetsMembers.and (ha : a.MeetsMembers n [first] FoundA)
    (hb : b.MeetsMembers n fields FoundB) (hfirst : fieldNamed? fields first.name = none) :
    (a.and b).MeetsMembers n (first :: fields)
      (fun s key => FoundA s.1 key ∨ FoundB s.2 key) where
  start key := by
    rintro (h | h)
    · exact ha.start key h
    · exact hb.start key h
  known {s key} h := by
    rcases h with h | h
    · rw [ha.name_eq h, fieldNamed?_self]
      rfl
    · rw [fieldNamed?_of_ne (hb.name_ne hfirst h)]
      exact hb.known h
  other {room s key r} hkey := by
    have hne : key ≠ first.name := by
      rintro rfl
      rw [fieldNamed?_self] at hkey
      cases hkey
    rw [fieldNamed?_of_ne hne] at hkey
    rw [ha.take?_and_of_ne hne, hb.other hkey]
    rfl
  again {room s key r} h := by
    rcases h with h | h
    · exact take?_and_left (ha.again h)
    · rw [ha.take?_and_of_ne (hb.name_ne hfirst h), hb.again h]
      rfl
  taken {room s key r field} hroom hkey hnew hr := by
    obtain ⟨hnewA, hnewB⟩ := not_or.1 hnew
    by_cases hname : key = first.name
    · subst hname
      rw [fieldNamed?_self, Option.some.injEq] at hkey
      subst hkey
      obtain ⟨s', hs', hfound⟩ := ha.taken hroom (fieldNamed?_self first []) hnewA hr
      refine ⟨(s', s.2), take?_and_left hs', fun key' => ?_⟩
      rw [hfound, or_right_comm]
    · rw [fieldNamed?_of_ne hname] at hkey
      obtain ⟨s', hs', hfound⟩ := hb.taken hroom hkey hnewB hr
      refine ⟨(s.1, s'), ?_, fun key' => ?_⟩
      · rw [ha.take?_and_of_ne hname, hs']
        rfl
      · rw [hfound, or_assoc]
  fault {room s key r field f} hroom hkey hnew hf := by
    obtain ⟨hnewA, hnewB⟩ := not_or.1 hnew
    by_cases hname : key = first.name
    · subst hname
      rw [fieldNamed?_self, Option.some.injEq] at hkey
      subst hkey
      exact take?_and_left (ha.fault hroom (fieldNamed?_self first []) hnewA hf)
    · rw [fieldNamed?_of_ne hname] at hkey
      rw [ha.take?_and_of_ne hname, hb.fault hroom hkey hnewB hf]
      rfl
  complete {s} hall := by
    obtain ⟨x, hx⟩ : ∃ x, a.finish s.1 = .ok x := by
      refine ha.complete fun field hfield hrequired => ?_
      rw [List.mem_singleton.1 hfield] at hrequired ⊢
      refine (hall first List.mem_cons_self hrequired).resolve_right fun h => ?_
      exact hb.name_ne hfirst h rfl
    obtain ⟨y, hy⟩ : ∃ y, b.finish s.2 = .ok y := by
      refine hb.complete fun field hfield hrequired => ?_
      refine (hall field (List.mem_cons_of_mem first hfield) hrequired).resolve_left fun h => ?_
      rw [← ha.name_eq h] at hfirst
      exact fieldNamed?_ne_none hfield hfirst
    exact ⟨(x, y), by rw [finish_and, hx, hy]; rfl⟩
  missing {s field} hmem hrequired hmissing := by
    obtain ⟨hmissingA, hmissingB⟩ := not_or.1 hmissing
    by_cases h : first.optional = false ∧ ¬ FoundA s.1 first.name
    · rw [finish_and, ha.missing List.mem_cons_self h.1 h.2]
      rfl
    · obtain ⟨x, hx⟩ : ∃ x, a.finish s.1 = .ok x := by
        refine ha.complete fun field hfield hrequired => ?_
        rw [List.mem_singleton.1 hfield] at hrequired ⊢
        exact Classical.not_not.1 fun hfound => h ⟨hrequired, hfound⟩
      rcases List.mem_cons.1 hmem with rfl | hmem
      · exact absurd ⟨hrequired, hmissingA⟩ h
      · rw [finish_and, hx, hb.missing hmem hrequired hmissingB]
        rfl

theorem MeetsItems.takeItems_cons (ha : a.MeetsItems n [first]) {room : Nat} (hroom : room ≤ n)
    {r : Reading} (hr : Takes first.due room r) (rs : List Reading) (ending : Ending) :
    ∃ x, a.takeItems room (r :: rs) ending = .ok (x, rs) := by
  have hitems : ItemsTaken room [first] (r :: rs) := by simpa [ItemsTaken] using hr
  exact ha.items hroom hitems (by simp) (by simp)

theorem MeetsItems.takeItems_nil (ha : a.MeetsItems n [first]) {room : Nat} (hroom : room ≤ n)
    (hoptional : first.optional = true) : ∃ x, a.takeItems room [] .closed = .ok (x, []) :=
  ha.items hroom (itemsTaken_nil room [first]) (fun _ => rfl) (by simpa using hoptional)

theorem MeetsItems.and (ha : a.MeetsItems n [first]) (hb : b.MeetsItems n fields) :
    (a.and b).MeetsItems n (first :: fields) where
  items {room items ending} hroom hitems hclosed hrest := by
    cases items with
    | nil =>
      rw [hclosed (Nat.succ_pos _)]
      obtain ⟨x, hx⟩ := ha.takeItems_nil hroom (hrest first List.mem_cons_self)
      obtain ⟨y, hy⟩ := hb.items hroom (itemsTaken_nil room fields) (fun _ => rfl)
        fun field hfield => hrest field (List.mem_cons_of_mem first hfield)
      exact ⟨(x, y), by rw [takeItems_and, hx, bind_ok, hy]; simp [bind, Except.bind]⟩
    | cons r rs =>
      obtain ⟨hr, hrs⟩ := itemsTaken_cons.1 hitems
      obtain ⟨x, hx⟩ := ha.takeItems_cons hroom hr rs ending
      obtain ⟨y, hy⟩ := hb.items hroom hrs (fun hlen => hclosed (Nat.succ_lt_succ hlen)) hrest
      exact ⟨(x, y), by rw [takeItems_and, hx, bind_ok, hy]; rfl⟩
  itemFault {room items ending before field r after f} hroom hzip hbefore hf := by
    cases items with
    | nil => simp at hzip
    | cons r' rs =>
      rw [List.zip_cons_cons] at hzip
      cases before with
      | nil =>
        injection hzip with hhead _
        have hsingle : [first].zip (r' :: rs) = [] ++ (field, r) :: [] := by rw [← hhead]; rfl
        rw [takeItems_and, ha.itemFault hroom hsingle hbefore hf]
        rfl
      | cons x before =>
        injection hzip with hhead hzip
        subst hhead
        obtain ⟨hr', hbefore⟩ := List.forall_mem_cons.1 hbefore
        obtain ⟨x, hx⟩ := ha.takeItems_cons hroom hr' rs ending
        rw [takeItems_and, hx, bind_ok, hb.itemFault hroom hzip hbefore hf]
        rfl
  itemsOpen {room items ending} hroom hitems hlen hending := by
    cases items with
    | nil =>
      rw [takeItems_and, ha.itemsOpen hroom (itemsTaken_nil room _) Nat.one_pos hending]
      rfl
    | cons r rs =>
      obtain ⟨hr, hrs⟩ := itemsTaken_cons.1 hitems
      obtain ⟨x, hx⟩ := ha.takeItems_cons hroom hr rs ending
      rw [takeItems_and, hx, bind_ok, hb.itemsOpen hroom hrs (Nat.lt_of_succ_lt_succ hlen) hending]
      rfl
  itemMissing {room items field} hroom hitems hmem hrequired := by
    cases items with
    | nil =>
      cases hoptional : first.optional with
      | false =>
        rw [takeItems_and,
          ha.itemMissing hroom (itemsTaken_nil room _) List.mem_cons_self hoptional]
        rfl
      | true =>
        obtain ⟨x, hx⟩ := ha.takeItems_nil hroom hoptional
        rcases List.mem_cons.1 hmem with rfl | hmem
        · rw [hoptional] at hrequired
          cases hrequired
        · rw [takeItems_and, hx, bind_ok,
            hb.itemMissing hroom (itemsTaken_nil room fields) hmem hrequired]
          rfl
    | cons r rs =>
      obtain ⟨hr, hrs⟩ := itemsTaken_cons.1 hitems
      obtain ⟨x, hx⟩ := ha.takeItems_cons hroom hr rs .closed
      rw [takeItems_and, hx, bind_ok, hb.itemMissing hroom hrs hmem hrequired]
      rfl

theorem Meets.and (ha : a.Meets n [first] FoundA) (hb : b.Meets n fields FoundB)
    (hfirst : fieldNamed? fields first.name = none) :
    (a.and b).Meets n (first :: fields) (fun s key => FoundA s.1 key ∨ FoundB s.2 key) :=
  ⟨ha.toMeetsMembers.and hb.toMeetsMembers hfirst, ha.toMeetsItems.and hb.toMeetsItems⟩

end

/-! ## Structures -/

section
variable {d : Record State α} {fields : Fields} {Found : State → String → Prop} {room : Nat}

/-- The members before one are taken, and it is looked at in the state that they leave. -/
theorem foldlM_split {s₀ s : State} {before : Members}
    (h : before.foldlM (d.takeMember room) s₀ = .ok s) (m : Option String × Reading)
    (after : Members) : (before ++ m :: after).foldlM (d.takeMember room) s₀ =
      (d.takeMember room s m >>= fun s' => after.foldlM (d.takeMember room) s') := by
  rw [List.foldlM_append, h, bind_ok, List.foldlM_cons]

theorem MeetsMembers.takeMember_other (h : d.MeetsMembers n fields Found) {s : State} {key : String}
    {r : Reading} (hkey : fieldNamed? fields key = none) : d.takeMember room s (some key, r) =
      if r.isComplete then .ok s else .error .malformed := by
  rw [takeMember, h.other hkey]

theorem takeMember_of_take? {s : State} {key : String} {r : Reading} {next : Except Fault State}
    (h : d.take? room s key r = some next) : d.takeMember room s (some key, r) = next := by
  rw [takeMember, h]

/-- **The members are taken**, and the fields among them are found. By induction on the last
member. -/
theorem MeetsMembers.foldlM (h : d.MeetsMembers n fields Found) (hroom : room ≤ n)
    {members : Members} (hmembers : MembersTaken room fields members) :
    ∃ s, members.foldlM (d.takeMember room) d.start = .ok s ∧ ∀ key, Found s key ↔
      (fieldNamed? fields key).isSome = true ∧ some key ∈ members.map Prod.fst := by
  induction members using List.reverseRecOn with
  | nil => exact ⟨d.start, rfl, fun key => by simp [h.start key]⟩
  | append_singleton before m ih =>
    obtain ⟨s, hs, hfound⟩ := ih hmembers.init
    obtain ⟨_ | key, r⟩ := m
    · exact absurd rfl (hmembers.named (none, r) (by simp))
    have hmem : (some key, r) ∈ before ++ [(some key, r)] := by simp
    rw [foldlM_split hs]
    cases hfield : fieldNamed? fields key with
    | none =>
      -- what is no field is skipped and leaves the state as it is
      have hr := hmembers.skipped key r hmem hfield
      refine ⟨s, by rw [h.takeMember_other hfield, if_pos hr]; rfl, fun key' => ?_⟩
      rw [hfound, List.map_append, List.mem_append]
      refine and_congr_right fun hkey' => ⟨.inl, fun h => h.resolve_right fun hlast => ?_⟩
      cases List.mem_singleton.1 hlast
      rw [hfield] at hkey'
      cases hkey'
    | some field =>
      -- no field is given twice, so this one is not among the members before it
      have hnew : ¬ Found s key := fun hold => hmembers.last_new hfield ((hfound key).1 hold).2
      have hr := hmembers.taken key field r hfield hmem
      obtain ⟨s', hs', hfound'⟩ := h.taken hroom hfield hnew hr
      refine ⟨s', by rw [takeMember_of_take? hs']; rfl, fun key' => ?_⟩
      rw [hfound', hfound, List.map_append, List.mem_append, and_or_left]
      refine or_congr_right ⟨?_, fun hlast => ?_⟩
      · rintro rfl
        exact ⟨by rw [hfield]; rfl, by simp⟩
      · simpa using hlast.2

end

section
variable {d : Record State α} {first : DueField Due} {others : Fields}
  {Found : State → String → Prop} {room : Nat}

theorem decoder_of_otherForm {r : Reading} (h : (Due.record first others).otherForm r = true) :
    d.decoder room r = .error r.fault := by
  cases r with
  | arr | obj => cases h
  | _ => cases room <;> rfl

theorem decoder_arr (items : List Reading) (ending : Ending) :
    d.decoder (room + 1) (.arr items ending) = (d.takeItems room items ending >>= fun x =>
      Decoder.alone x.1 x.2 ending) := rfl

theorem decoder_obj (members : Members) (ending : Ending) :
    d.decoder (room + 1) (.obj members ending) =
      (members.foldlM (d.takeMember room) d.start >>= fun s =>
        if ending = .closed then d.finish s else .error .malformed) := rfl

/-- The fields are taken from an array that is long enough, however it ends. -/
theorem MeetsItems.items_of_le {fields : Fields} (h : d.MeetsItems n fields) (hroom : room ≤ n)
    {items : List Reading} {ending : Ending} (hitems : ItemsTaken room fields items)
    (hlen : fields.length ≤ items.length) :
    ∃ a, d.takeItems room items ending = .ok (a, items.drop fields.length) := by
  refine h.items hroom hitems (fun hlt => by omega) ?_
  rw [List.drop_of_length_le hlen]
  simp

theorem MeetsItems.array_taken (h : d.MeetsItems n (first :: others)) (hroom : room ≤ n)
    {items : List Reading} (hitems : ItemsTaken room (first :: others) items)
    (hlen : items.length ≤ (first :: others).length)
    (hrest : ∀ field ∈ (first :: others).drop items.length, field.optional = true) :
    ∃ a, d.decoder (room + 1) (.arr items .closed) = .ok a := by
  obtain ⟨a, ha⟩ := h.items hroom hitems (fun _ => rfl) hrest
  refine ⟨a, ?_⟩
  rw [decoder_arr, ha, bind_ok, List.drop_of_length_le hlen]
  rfl

theorem MeetsMembers.object_taken (h : d.MeetsMembers n (first :: others) Found) (hroom : room ≤ n)
    {members : Members} (hmembers : MembersTaken room (first :: others) members)
    (hall : ∀ field ∈ first :: others, field.optional = false →
      some field.name ∈ members.map Prod.fst) :
    ∃ a, d.decoder (room + 1) (.obj members .closed) = .ok a := by
  obtain ⟨s, hs, hfound⟩ := h.foldlM hroom hmembers
  obtain ⟨a, ha⟩ : ∃ a, d.finish s = .ok a := by
    refine h.complete fun field hfield hrequired => (hfound field.name).2 ⟨?_, ?_⟩
    · exact Option.isSome_iff_ne_none.2 (fieldNamed?_ne_none hfield)
    · exact hall field hfield hrequired
  exact ⟨a, by rw [decoder_obj, hs, bind_ok, if_pos rfl, ha]⟩

/-- The fault at a structure is that of its items or members, or of its end. -/
theorem Meets.fault_here (h : d.Meets n (first :: others) Found) (hroom : room ≤ n) {r : Reading}
    {f : Fault} (hf : FaultAt (.record first others) room r f) : d.decoder room r = .error f := by
  have hle {room : Nat} (hroom : room + 1 ≤ n) : room ≤ n := Nat.le_of_succ_le hroom
  cases hf with
  | unreadable hform hr => rw [decoder_of_otherForm hform, fault_of_unreadable hr]
  | otherForm hform hr => rw [decoder_of_otherForm hform, fault_of_readable hr]
  | deepArray | deepObject => rfl
  | @openArray _ _ _ items _ hitems hlen hending =>
    -- a field is looked for behind the last item, or all are there and the bracket is missing
    rcases Nat.lt_or_eq_of_le hlen with hlt | heq
    · rw [decoder_arr, h.itemsOpen (hle hroom) hitems hlt hending]
      rfl
    · obtain ⟨a, ha⟩ := h.items_of_le (hle hroom) hitems (Nat.le_of_eq heq.symm)
      rw [decoder_arr, ha, bind_ok, List.drop_of_length_le hlen, Decoder.alone_of_open a hending]
  | missingItem hitems hfield hrequired =>
    rw [decoder_arr, h.itemMissing (hle hroom) hitems hfield hrequired]
    rfl
  | @itemBehind _ _ _ items _ hitems hlen =>
    obtain ⟨a, ha⟩ := h.items_of_le (hle hroom) hitems (Nat.le_of_lt hlen)
    rw [decoder_arr, ha, bind_ok, Decoder.alone_of_ne_nil]
    rw [Ne, List.drop_eq_nil_iff]
    omega
  | badName hmembers =>
    obtain ⟨s, hs, -⟩ := h.foldlM (hle hroom) hmembers
    rw [decoder_obj, foldlM_split hs]
    rfl
  | repeatedField hmembers hfield hfound =>
    obtain ⟨s, hs, hs'⟩ := h.foldlM (hle hroom) hmembers
    rw [decoder_obj, foldlM_split hs, takeMember_of_take? (h.again ((hs' _).2 ⟨hfield, hfound⟩))]
    rfl
  | brokenMember hmembers hkey hr =>
    obtain ⟨s, hs, -⟩ := h.foldlM (hle hroom) hmembers
    rw [decoder_obj, foldlM_split hs, h.takeMember_other hkey, hr]
    rfl
  | openObject hmembers hending =>
    obtain ⟨s, hs, -⟩ := h.foldlM (hle hroom) hmembers
    rw [decoder_obj, hs, bind_ok, if_neg hending]
  | missingField hmembers hfield hrequired hmissing =>
    obtain ⟨s, hs, hs'⟩ := h.foldlM (hle hroom) hmembers
    rw [decoder_obj, hs, bind_ok, if_pos rfl,
      h.missing hfield hrequired fun hfound => hmissing ((hs' _).1 hfound).2]

theorem Meets.decoder (h : d.Meets n (first :: others) Found) :
    d.decoder.Meets n (.record first others) where
  taken {room r} hroom hr := by
    cases hr with
    | array hitems hlen hrest => exact h.array_taken (Nat.le_of_succ_le hroom) hitems hlen hrest
    | object hadmits htaken hall =>
      exact h.object_taken (Nat.le_of_succ_le hroom) ⟨hadmits, htaken⟩ hall
  fault {room r f} hroom hf := by
    cases hf with
    | here hf => exact h.fault_here hroom hf
    | inside hleads hf =>
      cases hleads with
      | array hzip hbefore =>
        rw [decoder_arr, h.itemFault (Nat.le_of_succ_le hroom) hzip hbefore hf]
        rfl
      | member hmembers hfield hnew =>
        obtain ⟨s, hs, hs'⟩ := h.foldlM (Nat.le_of_succ_le hroom) hmembers
        rw [decoder_obj, foldlM_split hs, takeMember_of_take? (h.fault (Nat.le_of_succ_le hroom)
          hfield (fun hfound => hnew ((hs' _).1 hfound).2) hf)]
        rfl

theorem Meets.bodyDecoder (h : d.Meets n (first :: others) Found) :
    (d.bodyDecoder .objectOrArray).Meets n (.record first others) := by
  have heq : d.bodyDecoder .objectOrArray = d.decoder := by
    funext room r
    cases r <;> rfl
  rw [heq]
  exact h.decoder

end

end Record

end ViewTyping.Json
