import ViewTyping.Proofs.DueForms
import ViewTyping.Proofs.JsonSpelling

/-!
# First faults and the text they stand in

* `Takes.isComplete`, `not_malformed_of_sound`: what is taken is JSON, and in a document within all
  limits no fault is that the text is malformed.
* `FirstFault.of_begins`: what stands behind any other fault does not matter.
-/

set_option autoImplicit false

namespace ViewTyping.Json

open Reading

/-! ## What is taken is JSON -/

theorem Leaf.isComplete_of_accepts {leaf : Leaf} {r : Reading} (h : leaf.accepts r = true) :
    r.isComplete = true := by
  unfold accepts at h
  split at h <;> first | rfl | cases h

namespace Reading

mutual

/-- The text is that of a value throughout, its numbers are no larger than a double can be, and its
strings are texts. -/
def isSound : Reading → Bool
  | .null | .bool _ => true
  | .num n => n.inRange
  | .str s => s.isSome
  | .arr items ending => itemsSound items && ending == .closed
  | .obj members ending => membersSound members && ending == .closed
  | .broken => false

def itemsSound : List Reading → Bool
  | [] => true
  | r :: rs => r.isSound && itemsSound rs

def membersSound : List (Option String × Reading) → Bool
  | [] => true
  | (name, r) :: ms => name.isSome && r.isSound && membersSound ms

end

theorem itemsSound_iff {rs : List Reading} :
    itemsSound rs = true ↔ ∀ r ∈ rs, r.isSound = true := by
  induction rs with
  | nil => simp [itemsSound]
  | cons r rs ih => rw [itemsSound, Bool.and_eq_true, ih, List.forall_mem_cons]

theorem membersSound_iff {ms : List (Option String × Reading)} :
    membersSound ms = true ↔ ∀ m ∈ ms, m.1.isSome = true ∧ m.2.isSound = true := by
  induction ms with
  | nil => simp [membersSound]
  | cons m ms ih => rw [membersSound, Bool.and_eq_true, Bool.and_eq_true, ih, List.forall_mem_cons]

theorem itemsComplete_iff {rs : List Reading} :
    itemsComplete rs = true ↔ ∀ r ∈ rs, r.isComplete = true := by
  induction rs with
  | nil => simp [itemsComplete]
  | cons r rs ih => rw [itemsComplete, Bool.and_eq_true, ih, List.forall_mem_cons]

theorem membersComplete_iff {ms : List (Option String × Reading)} :
    membersComplete ms = true ↔ ∀ m ∈ ms, m.2.isComplete = true := by
  induction ms with
  | nil => simp [membersComplete]
  | cons m ms ih => rw [membersComplete, Bool.and_eq_true, ih, List.forall_mem_cons]

mutual

theorem isComplete_of_sound : ∀ {r : Reading}, r.isSound = true → r.isComplete = true
  | .null, _ | .bool _, _ | .num _, _ | .str _, _ => rfl
  | .arr items ending, h => by
    rw [isSound, Bool.and_eq_true] at h
    rw [isComplete, itemsComplete_of_sound h.1, h.2]
    rfl
  | .obj ms ending, h => by
    rw [isSound, Bool.and_eq_true] at h
    rw [isComplete, membersComplete_of_sound h.1, h.2]
    rfl

theorem itemsComplete_of_sound : ∀ {rs : List Reading}, itemsSound rs = true →
    itemsComplete rs = true
  | [], _ => rfl
  | r :: rs, h => by
    rw [itemsSound, Bool.and_eq_true] at h
    rw [itemsComplete, isComplete_of_sound h.1, itemsComplete_of_sound h.2]
    rfl

theorem membersComplete_of_sound : ∀ {ms : List (Option String × Reading)},
    membersSound ms = true → membersComplete ms = true
  | [], _ => rfl
  | (name, r) :: ms, h => by
    rw [membersSound, Bool.and_eq_true, Bool.and_eq_true] at h
    rw [membersComplete, isComplete_of_sound h.1.2, membersComplete_of_sound h.2]
    rfl

end

end Reading

theorem Takes.isComplete {due : Due} {room : Nat} {r : Reading} (h : Takes due room r) :
    r.isComplete = true := by
  induction h with
  | leaf h => exact Leaf.isComplete_of_accepts h
  | list _ ih =>
    rw [Reading.isComplete, itemsComplete_iff.2 ih]
    rfl
  | @array first others room items _ hlen _ ih =>
    have hitems : ∀ r ∈ items, r.isComplete = true := by
      intro r hr
      rw [← List.map_snd_zip hlen] at hr
      obtain ⟨x, hx, rfl⟩ := List.mem_map.1 hr
      exact ih x hx
    rw [Reading.isComplete, itemsComplete_iff.2 hitems]
    rfl
  | @object first others room members hadmits _ _ ih =>
    have hmembers : ∀ m ∈ members, m.2.isComplete = true := by
      intro m hm
      obtain ⟨_ | key, r⟩ := m
      · exact absurd rfl (hadmits.named _ hm)
      · cases hfield : fieldNamed? (first :: others) key with
        | none => exact hadmits.skipped key r hm hfield
        | some field => exact ih key field r hfield hm
    rw [Reading.isComplete, membersComplete_iff.2 hmembers]
    rfl
  | name => rfl
  | content _ _ ih => simp [Reading.isComplete, membersComplete, ih]
  | expr _ ih => exact ih

/-! ## A document within the limits is not malformed -/

theorem Reading.isReadable_of_sound {r : Reading} (h : r.isSound = true) : r.isReadable = true := by
  cases r with
  | null | bool | arr | obj => rfl
  | num n => exact h
  | str s =>
    cases s with
    | none => cases h
    | some s => rfl
  | broken => cases h

/-- The inside of a sound value is sound, and has as much room as it needs. -/
theorem Leads.sound {due due' : Due} {room room' : Nat} {r r' : Reading}
    (h : Leads due room r due' room' r') (hr : r.isSound = true) (hdepth : r.depth ≤ room) :
    r'.isSound = true ∧ r'.depth ≤ room' := by
  have hitem {items : List Reading} {ending : Ending} {room : Nat} {x : Reading} (hx : x ∈ items)
      (hsound : (Reading.arr items ending).isSound = true)
      (hdepth : (Reading.arr items ending).depth ≤ room + 1) :
      x.isSound = true ∧ x.depth ≤ room := by
    rw [isSound, Bool.and_eq_true, itemsSound_iff] at hsound
    have hle := depth_le_itemsDepth hx
    rw [depth] at hdepth
    exact ⟨hsound.1 x hx, by omega⟩
  have hmember {members : Members} {ending : Ending} {room : Nat} {m : Option String × Reading}
      (hm : m ∈ members) (hsound : (Reading.obj members ending).isSound = true)
      (hdepth : (Reading.obj members ending).depth ≤ room + 1) :
      m.2.isSound = true ∧ m.2.depth ≤ room := by
    rw [isSound, Bool.and_eq_true, membersSound_iff] at hsound
    have hle := depth_le_membersDepth hm
    rw [depth] at hdepth
    exact ⟨(hsound.1 m hm).2, by omega⟩
  cases h with
  | item => exact hitem (by simp) hr hdepth
  | @array first others room items ending before after field r hzip =>
    have hmem : (field, r') ∈ (first :: others).zip items := by simp [hzip]
    exact hitem (List.of_mem_zip hmem).2 hr hdepth
  | member => exact hmember (List.mem_append_right _ List.mem_cons_self) hr hdepth
  | content => exact hmember List.mem_cons_self hr hdepth
  | expr => exact ⟨hr, hdepth⟩

theorem FaultAt.not_malformed {due : Due} {room : Nat} {r : Reading}
    (h : FaultAt due room r .malformed) (hr : r.isSound = true) (hdepth : r.depth ≤ room) :
    False := by
  have hclosed {items : List Reading} {ending : Ending}
      (h : (Reading.arr items ending).isSound = true) : ending = .closed := by
    rw [isSound, Bool.and_eq_true, beq_iff_eq] at h
    exact h.2
  have hmembers {members : Members} {ending : Ending}
      (h : (Reading.obj members ending).isSound = true) :
      (∀ m ∈ members, m.1.isSome = true ∧ m.2.isSound = true) ∧ ending = .closed := by
    rw [isSound, Bool.and_eq_true, beq_iff_eq, membersSound_iff] at h
    exact h
  cases h with
  | unreadable _ hunreadable => simp [isReadable_of_sound hr] at hunreadable
  | deepList | deepArray | deepObject | deepChoice => simp [depth] at hdepth
  | openList _ hending => exact hending (hclosed hr)
  | openArray _ _ hending => exact hending (hclosed hr)
  | @badName _ _ _ before after r => simpa using ((hmembers hr).1 (none, r) (by simp)).1
  | @brokenMember _ _ _ before after key r _ _ _ hbroken =>
    have hsound := ((hmembers hr).1 (some key, r) (by simp)).2
    simp [isComplete_of_sound hsound] at hbroken
  | openObject _ hending => exact hending (hmembers hr).2
  | brokenChoice | brokenName => cases hr
  | cutObject => cases (hmembers hr).2
  | @badTag _ _ r => simpa using ((hmembers hr).1 (none, r) (by simp)).1
  | openChoice _ _ hending => exact hending (hmembers hr).2

/-- **In a document within all limits no fault is that the text is malformed.** -/
theorem not_malformed_of_sound {due : Due} {room : Nat} {r : Reading} (hr : r.isSound = true)
    (hdepth : r.depth ≤ room) : ¬ FirstFault due room r .malformed := by
  intro h
  generalize hf : Fault.malformed = f at h
  induction h with
  | here h =>
    subst hf
    exact h.not_malformed hr hdepth
  | inside hleads _ ih =>
    obtain ⟨hr', hdepth'⟩ := hleads.sound hr hdepth
    exact ih hr' hdepth' hf

/-! ## What stands behind a fault does not matter -/

theorem Reading.ItemsBegin.split {before after items : List Reading} {r : Reading}
    (h : ItemsBegin Begins (before ++ r :: after) items) :
    ∃ r' after', items = before ++ r' :: after' ∧ Begins r r' := by
  induction before generalizing items with
  | nil =>
    cases h with
    | last hr rs => exact ⟨_, rs, rfl, hr⟩
    | cons _ _ => exact ⟨r, _, rfl, .refl r⟩
  | cons x before ih =>
    rw [List.cons_append] at h
    generalize hrest : before ++ r :: after = rest at h ih
    cases h with
    | last => simp at hrest
    | cons _ h =>
      obtain ⟨r', after', rfl, hr⟩ := ih h
      exact ⟨r', after', rfl, hr⟩

theorem Reading.ItemsBegin.split_zip {α : Type} {xs : List α} {before after : List (α × Reading)}
    {x : α} {items items' : List Reading} {r : Reading} (h : ItemsBegin Begins items items')
    (hzip : xs.zip items = before ++ (x, r) :: after) :
    ∃ r' after', xs.zip items' = before ++ (x, r') :: after' ∧ Begins r r' := by
  obtain ⟨xs₁, xs₂, items₁, items₂, hlen, rfl, rfl, rfl, hrest⟩ := List.zip_eq_append_iff.1 hzip
  obtain ⟨xs₃, items₃, rfl, rfl, rfl⟩ := List.zip_eq_cons_iff.1 hrest.symm
  obtain ⟨r', after', rfl, hr⟩ := h.split
  exact ⟨r', xs₃.zip after', by rw [List.zip_append hlen]; rfl, hr⟩

theorem Reading.MembersBegin.split {before after members : Members} {name : Option String}
    {r : Reading} (h : MembersBegin Begins (before ++ (name, r) :: after) members) :
    ∃ r' after', members = before ++ (name, r') :: after' ∧ Begins r r' := by
  induction before generalizing members with
  | nil =>
    cases h with
    | last _ hr ms => exact ⟨_, ms, rfl, hr⟩
    | cons _ _ => exact ⟨r, _, rfl, .refl r⟩
  | cons x before ih =>
    rw [List.cons_append] at h
    generalize hrest : before ++ (name, r) :: after = rest at h ih
    cases h with
    | last => simp at hrest
    | cons _ h =>
      obtain ⟨r', after', rfl, hr⟩ := ih h
      exact ⟨r', after', rfl, hr⟩

theorem FirstFault.of_broken {due : Due} {room : Nat} {f : Fault}
    (h : FirstFault due room .broken f) : f = .malformed := by
  generalize hr : Reading.broken = r at h
  induction h with
  | here h =>
    subst hr
    cases h with
    | unreadable | brokenChoice => rfl
    | otherForm _ hreadable => cases hreadable
    | noAlternative h => cases h
  | inside hleads _ ih =>
    subst hr
    cases hleads with
    | expr => exact ih rfl

/-- More of a value may be seen, but nothing else before the place inside it. -/
theorem Leads.of_begins {due due' : Due} {room room' : Nat} {r r' x : Reading}
    (h : Leads due room r due' room' x) (hbegins : Begins r r') :
    x = .broken ∨ ∃ x', Leads due room r' due' room' x' ∧ Begins x x' := by
  cases h with
  | @item item room before after _ ending h =>
    generalize hr : Reading.arr (before ++ x :: after) ending = r at hbegins
    cases hbegins with
    | refl => exact .inr ⟨x, hr ▸ .item h, .refl x⟩
    | broken => cases hr
    | bracket =>
      injection hr with hitems
      have hsplit : before = [] ∧ x = .broken ∧ after = [] := by
        simpa [List.append_eq_singleton_iff] using hitems
      exact .inl hsplit.2.1
    | arr hitems =>
      injection hr with hr
      subst hr
      obtain ⟨x', after', rfl, hx⟩ := hitems.split
      exact .inr ⟨x', .item h, hx⟩
    | obj => cases hr
  | @array first others room items ending before after field _ hzip h =>
    have hmem : x ∈ items :=
      (List.of_mem_zip (show (field, x) ∈ (first :: others).zip items by simp [hzip])).2
    cases hbegins with
    | refl => exact .inr ⟨x, .array hzip h, .refl x⟩
    -- behind a bracket nothing is seen yet but that something must follow
    | bracket => exact .inl (List.mem_singleton.1 hmem)
    | arr hitems =>
      obtain ⟨x', after', hzip', hx⟩ := hitems.split_zip hzip
      exact .inr ⟨x', .array hzip' h, hx⟩
  | @member first others room before after key field _ ending h hfield hnew =>
    generalize hr : Reading.obj (before ++ (some key, x) :: after) ending = r at hbegins
    cases hbegins with
    | refl => exact .inr ⟨x, hr ▸ .member h hfield hnew, .refl x⟩
    | broken | bracket | arr => cases hr
    | obj hmembers =>
      injection hr with hr
      subst hr
      obtain ⟨x', after', rfl, hx⟩ := hmembers.split
      exact .inr ⟨x', .member h hfield hnew, hx⟩
  | @content alternatives room name due _ rest ending hname =>
    cases hbegins with
    | refl => exact .inr ⟨x, .content hname, .refl x⟩
    | obj hmembers =>
      obtain ⟨x', after', rfl, hx⟩ := @MembersBegin.split [] _ _ _ _ hmembers
      exact .inr ⟨x', .content hname, hx⟩
  | expr => exact .inr ⟨r', .expr, hbegins⟩

theorem Due.otherForm_of_begins {due : Due} {r r' : Reading} (hbegins : Begins r r')
    (h : due.otherForm r = true) (hr : r.isReadable = true) :
    due.otherForm r' = true ∧ r'.isReadable = true := by
  have harr (items items' : List Reading) (ending ending' : Ending) :
      due.otherForm (.arr items ending) = due.otherForm (.arr items' ending') := by
    cases due with
    | leaf l => cases l <;> rfl
    | _ => rfl
  have hobj (members members' : Members) (ending ending' : Ending) :
      due.otherForm (.obj members ending) = due.otherForm (.obj members' ending') := by
    cases due with
    | leaf l => cases l <;> rfl
    | _ => rfl
  cases hbegins with
  | refl => exact ⟨h, hr⟩
  | broken => cases hr
  | bracket | arr => exact ⟨(harr _ _ _ _).symm.trans h, rfl⟩
  | obj => exact ⟨(hobj _ _ _ _).symm.trans h, rfl⟩

/-- An item behind those that have a place stands there still when more of the array is seen. -/
theorem Reading.ItemsBegin.behind {α : Type} {xs : List α} {items items' : List Reading}
    (h : ItemsBegin Begins items items') (hlen : xs.length < items.length) :
    xs.zip items' = xs.zip items ∧ xs.length < items'.length := by
  obtain ⟨before, r, after, rfl, hbefore⟩ : ∃ before r after, items = before ++ r :: after ∧
      before.length = xs.length :=
    ⟨items.take xs.length, items[xs.length], items.drop (xs.length + 1), by simp, by simp; omega⟩
  obtain ⟨r', after', rfl, -⟩ := h.split
  have hzip (rest : List Reading) : xs.zip (before ++ rest) = xs.zip before := by
    simpa using @List.zip_append _ _ xs [] before rest hbefore.symm
  refine ⟨by rw [hzip, hzip], ?_⟩
  rw [List.length_append, List.length_cons]
  omega

theorem FaultAt.of_begins {due : Due} {room : Nat} {r r' : Reading} {f : Fault}
    (h : FaultAt due room r f) (hf : f ≠ .malformed) (hbegins : Begins r r') :
    FaultAt due room r' f := by
  cases h with
  | otherForm h hreadable =>
    obtain ⟨h', hreadable'⟩ := Due.otherForm_of_begins hbegins h hreadable
    exact .otherForm h' hreadable'
  | unknownKind h =>
    cases hbegins with
    | refl => exact .unknownKind h
  | missingItem h hfield hrequired =>
    cases hbegins with
    | refl => exact .missingItem h hfield hrequired
  | itemBehind h hlen =>
    cases hbegins with
    | refl => exact .itemBehind h hlen
    -- behind a bracket nothing is seen yet, and a record has a field at least
    | bracket => simp at hlen
    | arr hitems =>
      obtain ⟨hzip, hlen'⟩ := hitems.behind hlen
      refine .itemBehind ?_ hlen'
      rw [ItemsTaken, hzip]
      exact h
  | @repeatedField first others room before after key x ending h hfield hfound =>
    generalize hr : Reading.obj (before ++ (some key, x) :: after) ending = r at hbegins
    cases hbegins with
    | refl => exact hr ▸ .repeatedField h hfield hfound
    | broken | bracket | arr => cases hr
    | obj hmembers =>
      injection hr with hr
      subst hr
      obtain ⟨_, _, rfl, -⟩ := hmembers.split
      exact .repeatedField h hfield hfound
  | missingField h hfield hrequired hmissing =>
    cases hbegins with
    | refl => exact .missingField h hfield hrequired hmissing
  | noAlternative h =>
    cases hbegins with
    | refl => exact .noAlternative h
    | bracket | arr => exact .noAlternative rfl
    | broken | obj => cases h
  | unknownName h =>
    cases hbegins with
    | refl => exact .unknownName h
  | noMember =>
    cases hbegins with
    | refl => exact .noMember
  | unknownTag h =>
    cases hbegins with
    | refl => exact .unknownTag h
    | obj hmembers =>
      obtain ⟨_, _, rfl, -⟩ := @MembersBegin.split [] _ _ _ _ hmembers
      exact .unknownTag h
  | @memberBehind alternatives room name due x rest ending hname h hrest =>
    cases hbegins with
    | refl => exact .memberBehind hname h hrest
    | obj hmembers =>
      cases hmembers with
      | last => exact absurd rfl hrest
      | cons _ hmembers =>
        refine .memberBehind hname h ?_
        cases hmembers with
        | nil => exact absurd rfl hrest
        | last | cons => simp
  | _ => exact absurd rfl hf

/-- **Any fault but that the text is malformed is found again** where more of the text is seen. -/
theorem FirstFault.of_begins {due : Due} {room : Nat} {r r' : Reading} {f : Fault}
    (h : FirstFault due room r f) (hf : f ≠ .malformed) (hbegins : Begins r r') :
    FirstFault due room r' f := by
  induction h generalizing r' with
  | here h => exact .here (h.of_begins hf hbegins)
  | inside hleads h ih =>
    rcases hleads.of_begins hbegins with rfl | ⟨x', hleads', hx⟩
    · exact absurd h.of_broken hf
    · exact .inside hleads' (ih hf hx)

end ViewTyping.Json
