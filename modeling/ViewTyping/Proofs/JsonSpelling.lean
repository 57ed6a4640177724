import Mathlib.Data.List.Forall2
import ViewTyping.Json.Basic
import ViewTyping.Json.Decoder

/-!
# Spellings of values in JSON

A value can be written as any of several documents, its spellings. A structure is an object of its
fields in any order and among other members, or an array of its fields in order, and a field may be
left out where it holds its default (`Spellings.struct`); an alternative without content is a bare
name or an object that holds `null` (`Spellings.unit`).

`d.Reads n S a` says that the decoder `d` makes `a` of every spelling in `S` that is nested to `n`
levels at most. There is a lemma for each way to build decoders.

* `reads_list`, `reads_tagged`, `reads_unit`: lists and alternatives.
* `Record.reads_field`, `Record.Reads.and`: what the fields of a record make of the members of an
  object and of the items of an array.
* `Record.Reads.decoder`, `Record.Reads.bodyDecoder`: structures.
-/

set_option autoImplicit false

namespace ViewTyping.Json

/-! ## Documents as they are read -/

mutual

/-- What a reader sees of a document. -/
def reading : Json → Reading
  | .null => .null
  | .bool b => .bool b
  | .num n => .num n
  | .str s => .str (some s)
  | .arr items => .arr (itemReadings items) .closed
  | .obj members => .obj (memberReadings members) .closed

def itemReadings : List Json → List Reading
  | [] => []
  | j :: js => j.reading :: itemReadings js

def memberReadings : List (String × Json) → List (Option String × Reading)
  | [] => []
  | (name, j) :: ms => (some name, j.reading) :: memberReadings ms

end

theorem itemReadings_eq (items : List Json) : itemReadings items = items.map reading := by
  induction items with
  | nil => rfl
  | cons j js ih => rw [itemReadings, ih, List.map_cons]

theorem memberReadings_eq (members : List (String × Json)) :
    memberReadings members = members.map fun m => (some m.1, m.2.reading) := by
  induction members with
  | nil => rfl
  | cons m ms ih => rw [memberReadings, ih, List.map_cons]

mutual

theorem isComplete_reading : ∀ j : Json, j.reading.isComplete = true
  | .null | .bool _ | .num _ | .str _ => rfl
  | .arr items => by
    rw [reading, Reading.isComplete, itemsComplete_readings items]
    rfl
  | .obj members => by
    rw [reading, Reading.isComplete, membersComplete_readings members]
    rfl

theorem itemsComplete_readings : ∀ items : List Json,
    Reading.itemsComplete (itemReadings items) = true
  | [] => rfl
  | j :: js => by
    rw [itemReadings, Reading.itemsComplete, isComplete_reading j, itemsComplete_readings js]
    rfl

theorem membersComplete_readings : ∀ members : List (String × Json),
    Reading.membersComplete (memberReadings members) = true
  | [] => rfl
  | (_, j) :: ms => by
    rw [memberReadings, Reading.membersComplete, isComplete_reading j, membersComplete_readings ms]
    rfl

end

theorem depth_le_itemsDepth {r : Reading} : ∀ {rs : List Reading}, r ∈ rs →
    r.depth ≤ Reading.itemsDepth rs
  | _, .head _ => Nat.le_max_left _ _
  | _, .tail _ h => Nat.le_trans (depth_le_itemsDepth h) (Nat.le_max_right _ _)

theorem depth_le_membersDepth {m : Option String × Reading} :
    ∀ {ms : List (Option String × Reading)}, m ∈ ms → m.2.depth ≤ Reading.membersDepth ms
  | _, .head _ => Nat.le_max_left _ _
  | _, .tail _ h => Nat.le_trans (depth_le_membersDepth h) (Nat.le_max_right _ _)

/-- The document is nested to `n` levels at most, and to no more than there is room for. -/
def Fits (n room : Nat) (j : Json) : Prop := j.reading.depth ≤ n ∧ j.reading.depth ≤ room

theorem Fits.item {n room : Nat} {items : List Json} (h : Fits (n + 1) (room + 1) (.arr items))
    {j : Json} (hj : j ∈ items) : j.Fits n room := by
  have hle : j.reading.depth ≤ Reading.itemsDepth (itemReadings items) :=
    depth_le_itemsDepth (itemReadings_eq items ▸ List.mem_map_of_mem hj)
  have hn : Reading.itemsDepth (itemReadings items) + 1 ≤ n + 1 := h.1
  have hroom : Reading.itemsDepth (itemReadings items) + 1 ≤ room + 1 := h.2
  exact ⟨by omega, by omega⟩

theorem Fits.member {n room : Nat} {members : List (String × Json)}
    (h : Fits (n + 1) (room + 1) (.obj members)) {m : String × Json} (hm : m ∈ members) :
    m.2.Fits n room := by
  have hmem : ((some m.1, m.2.reading) : Option String × Reading) ∈ memberReadings members := by
    rw [memberReadings_eq]
    exact List.mem_map_of_mem hm
  have hle : m.2.reading.depth ≤ Reading.membersDepth (memberReadings members) :=
    depth_le_membersDepth hmem
  have hn : Reading.membersDepth (memberReadings members) + 1 ≤ n + 1 := h.1
  have hroom : Reading.membersDepth (memberReadings members) + 1 ≤ room + 1 := h.2
  exact ⟨by omega, by omega⟩

/-! ## Spellings -/

/-- The documents that are admitted for a value. -/
abbrev Spellings := Json → Prop

/-- A field of a structure: its name, the spellings of its value, and whether it may be left out
since it holds its default. -/
structure FieldSpelling where
  name : String
  value : Spellings
  optional : Prop

/-- A field that is never left out. -/
def FieldSpelling.required (name : String) (value : Spellings) : FieldSpelling :=
  ⟨name, value, False⟩

namespace Spellings

/-- An alternative without content. -/
def unit (name : String) : Spellings := fun j => j = .str name ∨ j = .obj [(name, .null)]

/-- An alternative with content. -/
def tagged (name : String) (S : Spellings) : Spellings := fun j => ∃ j', S j' ∧ j = .obj [(name, j')]

def list (Ss : List Spellings) : Spellings := fun j =>
  ∃ items, List.Forall₂ (fun S item => S item) Ss items ∧ j = .arr items

/-- The members of an object in which each field stands once, or is left out. What else is there,
and in which order, is free. -/
def Members (fields : List FieldSpelling) (members : List (String × Json)) : Prop :=
  ∀ f ∈ fields, (∃ j, members.filter (·.1 == f.name) = [(f.name, j)] ∧ f.value j) ∨
    f.optional ∧ ∀ m ∈ members, m.1 ≠ f.name

/-- The items of an array of the fields in order, of which the last may be left out. -/
def Items : List FieldSpelling → List Json → Prop
  | fields, [] => ∀ f ∈ fields, f.optional
  | [], _ :: _ => False
  | f :: fields, j :: items => f.value j ∧ Items fields items

theorem items_nil {fields : List FieldSpelling} :
    Items fields [] ↔ ∀ f ∈ fields, f.optional := by
  cases fields <;> exact Iff.rfl

def struct (fields : List FieldSpelling) : Spellings := fun j =>
  (∃ members, Members fields members ∧ j = .obj members) ∨
    ∃ items, Items fields items ∧ j = .arr items

/-- The fields of an alternative. -/
def body (form : BodyForm) (fields : List FieldSpelling) : Spellings := fun j =>
  (∃ members, Members fields members ∧ j = .obj members) ∨
    form = .objectOrArray ∧ ∃ items, Items fields items ∧ j = .arr items

theorem names_of_forall₂ {fields : List FieldSpelling} {members : List (String × Json)}
    (h : List.Forall₂ (fun f m => m.1 = f.name ∧ f.value m.2) fields members) :
    members.map Prod.fst = fields.map FieldSpelling.name := by
  induction h with
  | nil => rfl
  | cons hm _ ih => rw [List.map_cons, List.map_cons, hm.1, ih]

/-- An object of the fields in order, and of nothing else, is a spelling. -/
theorem members_of_forall₂ {fields : List FieldSpelling} {members : List (String × Json)}
    (h : List.Forall₂ (fun f m => m.1 = f.name ∧ f.value m.2) fields members)
    (hnd : (fields.map FieldSpelling.name).Nodup) : Members fields members := by
  induction h with
  | nil => exact fun f hf => by cases hf
  | @cons f m fields members hm htail ih =>
    rw [List.map_cons, List.nodup_cons] at hnd
    intro g hg
    rcases List.mem_cons.1 hg with rfl | hg
    · have hrest : members.filter (·.1 == g.name) = [] := by
        refine List.filter_eq_nil_iff.2 fun m' hm' hname => hnd.1 ?_
        rw [← beq_iff_eq.1 hname, ← names_of_forall₂ htail]
        exact List.mem_map_of_mem hm'
      refine .inl ⟨m.2, ?_, hm.2⟩
      rw [List.filter_cons_of_pos (by simpa using hm.1), hrest, ← hm.1]
    · have hne : m.1 ≠ g.name := fun hname => hnd.1 (by
        rw [← hm.1, hname]
        exact List.mem_map_of_mem hg)
      rcases ih hnd.2 g hg with ⟨j, hfilter, hj⟩ | ⟨hopt, habsent⟩
      · refine .inl ⟨j, ?_, hj⟩
        rwa [List.filter_cons_of_neg (by simpa using hne)]
      · exact .inr ⟨hopt, List.forall_mem_cons.2 ⟨hne, habsent⟩⟩

theorem struct_obj {fields : List FieldSpelling} {members : List (String × Json)}
    (h : List.Forall₂ (fun f m => m.1 = f.name ∧ f.value m.2) fields members)
    (hnd : (fields.map FieldSpelling.name).Nodup) : struct fields (.obj members) :=
  .inl ⟨members, members_of_forall₂ h hnd, rfl⟩

theorem body_obj (form : BodyForm) {fields : List FieldSpelling} {members : List (String × Json)}
    (h : List.Forall₂ (fun f m => m.1 = f.name ∧ f.value m.2) fields members)
    (hnd : (fields.map FieldSpelling.name).Nodup) : body form fields (.obj members) :=
  .inl ⟨members, members_of_forall₂ h hnd, rfl⟩

theorem tagged_obj {name : String} {S : Spellings} {j : Json} (h : S j) :
    tagged name S (.obj [(name, j)]) := ⟨j, h, rfl⟩

theorem list_arr {α : Type} {S : α → Spellings} {encode : α → Json} {as : List α}
    (h : ∀ a ∈ as, S a (encode a)) : list (as.map S) (.arr (as.map encode)) := by
  refine ⟨as.map encode, ?_, rfl⟩
  rw [List.forall₂_map_left_iff, List.forall₂_map_right_iff, List.forall₂_same]
  exact h

end Spellings

open Spellings

/-! ## Lists and alternatives -/

/-- The decoder makes `a` of every spelling in `S` that is nested to `n` levels at most. -/
def Decoder.Reads {α : Type} (d : Decoder α) (n : Nat) (S : Spellings) (a : α) : Prop :=
  ∀ (j : Json) (room : Nat), S j → j.Fits n room → d room j.reading = .ok a

section
variable {α β : Type} {d : Decoder α} {n : Nat} {S : Spellings} {a : α}

theorem Decoder.Reads.map (f : α → β) (h : d.Reads n S a) : (d.map f).Reads n S (f a) := by
  intro j room hj hfits
  rw [Decoder.map, h j room hj hfits]
  rfl

theorem Decoder.Reads.mono {m : Nat} (h : d.Reads n S a) (hm : m ≤ n) : d.Reads m S a :=
  fun j room hj hfits => h j room hj ⟨Nat.le_trans hfits.1 hm, hfits.2⟩

theorem reads_list {S : α → Spellings} {as : List α} (h : ∀ a ∈ as, d.Reads n (S a) a) :
    (Decoder.list d).Reads (n + 1) (.list (as.map S)) as := by
  rintro _ room ⟨items, hitems, rfl⟩ hfits
  cases room with
  | zero => exact absurd hfits.2 (Nat.not_succ_le_zero _)
  | succ room =>
    have hall : ∀ j ∈ items, j.Fits n room := fun j hj => hfits.item hj
    clear hfits
    have hmap : (itemReadings items).mapM (d room) = .ok as := by
      induction as generalizing items with
      | nil =>
        cases hitems
        rfl
      | cons a as ih =>
        cases hitems with
        | @cons _ j _ js hj hjs =>
          have ha : d room j.reading = .ok a := h a (.head _) j room hj (hall j (.head _))
          have has := ih (fun a' ha' => h a' (.tail _ ha')) js hjs fun j' hj' => hall j' (.tail _ hj')
          rw [itemReadings, List.mapM_cons, ha, has]
          rfl
    rw [reading, Decoder.list, hmap]
    rfl

variable {content? : String → Option (Content α)} {name : String}

theorem reads_tagged (hname : content? name = some (.value d)) (h : d.Reads n S a) :
    (Decoder.alternative content?).Reads (n + 1) (.tagged name S) a := by
  rintro _ room ⟨j, hj, rfl⟩ hfits
  cases room with
  | zero => exact absurd hfits.2 (Nat.not_succ_le_zero _)
  | succ room =>
    rw [reading, memberReadings, memberReadings, Decoder.alternative]
    simp only [hname, Content.decoder, h j room hj (hfits.member (.head _))]
    rfl

theorem reads_unit (hname : content? name = some (.nothing a)) :
    (Decoder.alternative content?).Reads n (.unit name) a := by
  rintro _ room (rfl | rfl) hfits
  · rw [reading, Decoder.alternative, hname]
  · cases room with
    | zero => exact absurd hfits.2 (Nat.not_succ_le_zero _)
    | succ room =>
      rw [reading, memberReadings, memberReadings, Decoder.alternative]
      simp only [hname, Content.decoder, reading]
      rfl

end

/-! ## Records -/

namespace Record

variable {State State' α β : Type} {n : Nat}

/-- The record makes `a` of every spelling of the fields. It asks for no other members, and leaves
the items of an array behind its own. -/
structure Reads (d : Record State α) (n : Nat) (fields : List FieldSpelling) (a : α) : Prop where
  keys : ∀ room found key r, (d.take? room found key r).isSome = true →
    key ∈ fields.map FieldSpelling.name
  members : ∀ (room : Nat) (members : List (String × Json)), Members fields members →
    (∀ m ∈ members, m.2.Fits n room) →
    ∃ found, (memberReadings members).foldlM (d.takeMember room) d.start = .ok found ∧
      d.finish found = .ok a
  items : ∀ (room : Nat) (fields' : List FieldSpelling) (items : List Json),
    Items (fields ++ fields') items → (∀ j ∈ items, j.Fits n room) →
    ∃ items', d.takeItems room (itemReadings items) .closed = .ok (a, itemReadings items') ∧
      Items fields' items' ∧ items' ⊆ items

/-- Members that are no fields are skipped. -/
theorem takeMember_of_none {d : Record State α} {room : Nat} {found : State} {key : String}
    {j : Json} (h : d.take? room found key j.reading = none) :
    d.takeMember room found (some key, j.reading) = .ok found := by
  simp only [takeMember, h, isComplete_reading, if_true]

/-! ### One field -/

theorem foldlM_field_of_absent {name : String} {value : Decoder α} {default? : Option α}
    {room : Nat} {found : Option α} {members : List (String × Json)}
    (h : ∀ m ∈ members, m.1 ≠ name) :
    (memberReadings members).foldlM ((field name value default?).takeMember room) found =
      .ok found := by
  induction members with
  | nil => rfl
  | cons m ms ih =>
    have hskip : (field name value default?).takeMember room found (some m.1, m.2.reading) =
        .ok found := takeMember_of_none (if_neg (h m (.head _)))
    rw [memberReadings, List.foldlM_cons, hskip]
    exact ih fun m' hm' => h m' (.tail _ hm')

theorem reads_field (name : String) {value : Decoder α} {default? : Option α} {S : Spellings}
    {optional : Prop} {a : α} (hvalue : value.Reads n S a)
    (hdefault : optional → default? = some a) :
    (field name value default?).Reads n [⟨name, S, optional⟩] a where
  keys room found key r h := by
    by_cases hkey : key = name
    · exact List.mem_singleton.2 hkey
    · simp [field, hkey] at h
  members room members hmembers hfits := by
    rcases hmembers _ (.head _) with ⟨j, hfilter, hj⟩ | ⟨hopt, habsent⟩
    · -- the member that is the field stands between members that are not
      obtain ⟨pre, post, rfl, hpre, -, hpost⟩ := List.filter_eq_cons_iff.1 hfilter
      have hpre : ∀ m ∈ pre, m.1 ≠ name := fun m hm => by simpa using hpre m hm
      have hpost : ∀ m ∈ post, m.1 ≠ name := fun m hm => by
        simpa using List.filter_eq_nil_iff.1 hpost m hm
      have ha : value room j.reading = .ok a :=
        hvalue j room hj (hfits (name, j) (List.mem_append_right _ (.head _)))
      have htake : (field name value default?).takeMember room none (some name, j.reading) =
          .ok (some a) := by
        simp only [takeMember, field, if_true, Option.isSome_none, Bool.false_eq_true, if_false, ha]
        rfl
      refine ⟨some a, ?_, rfl⟩
      have happend : memberReadings (pre ++ (name, j) :: post) =
          memberReadings pre ++ (some name, j.reading) :: memberReadings post := by
        simp only [memberReadings_eq, List.map_append, List.map_cons]
      show List.foldlM _ (none : Option α) _ = _
      rw [happend, List.foldlM_append, foldlM_field_of_absent hpre]
      show List.foldlM _ (none : Option α) _ = _
      rw [List.foldlM_cons, htake]
      exact foldlM_field_of_absent hpost
    · refine ⟨none, foldlM_field_of_absent habsent, ?_⟩
      simp only [field, hdefault hopt]
      rfl
  items room fields' items hitems hfits := by
    cases items with
    | nil =>
      refine ⟨[], ?_, items_nil.2 fun f hf => hitems f (List.mem_append_right _ hf), ?_⟩
      · simp only [itemReadings, field, hdefault (hitems _ (.head _))]
      · exact List.Subset.refl _
    | cons j js =>
      refine ⟨js, ?_, hitems.2, List.subset_cons_self j js⟩
      simp only [itemReadings, field, hvalue j room hitems.1 (hfits j (.head _))]
      rfl

theorem reads_required (name : String) {value : Decoder α} {S : Spellings} {a : α}
    (hvalue : value.Reads n S a) : (field name value).Reads n [.required name S] a :=
  reads_field name hvalue False.elim

/-! ### Fields one after the other -/

/-- Each member is for the first record, for the second, or for none of them. -/
theorem takeMember_and {a : Record State α} {b : Record State' β} {room : Nat} {s s₁ : State}
    {t t₁ : State'} {key : String} {j : Json}
    (hdisjoint : (a.take? room s key j.reading).isSome = true →
      b.take? room t key j.reading = none)
    (ha : a.takeMember room s (some key, j.reading) = .ok s₁)
    (hb : b.takeMember room t (some key, j.reading) = .ok t₁) :
    (a.and b).takeMember room (s, t) (some key, j.reading) = .ok (s₁, t₁) := by
  cases hs : a.take? room s key j.reading with
  | some next =>
    have htaken : (a.and b).take? room (s, t) key j.reading = some (next.map (·, t)) := by
      simp only [Record.and, hs]
    have hnext : next = .ok s₁ := by simpa only [takeMember, hs] using ha
    have hskip := takeMember_of_none (hdisjoint (by rw [hs]; rfl))
    obtain rfl : t = t₁ := Except.ok.inj (hskip.symm.trans hb)
    simp only [takeMember, htaken, hnext]
    rfl
  | none =>
    obtain rfl : s = s₁ := Except.ok.inj ((takeMember_of_none hs).symm.trans ha)
    have htaken : (a.and b).take? room (s, t) key j.reading =
        (b.take? room t key j.reading).map fun next => next.map (s, ·) := by
      simp only [Record.and, hs]
    cases ht : b.take? room t key j.reading with
    | some next =>
      have hnext : next = .ok t₁ := by simpa only [takeMember, ht] using hb
      simp only [takeMember, htaken, ht, hnext, Option.map_some]
      rfl
    | none =>
      obtain rfl : t = t₁ := Except.ok.inj ((takeMember_of_none ht).symm.trans hb)
      exact takeMember_of_none (by rw [htaken, ht]; rfl)

theorem foldlM_and {a : Record State α} {b : Record State' β} {room : Nat}
    (hdisjoint : ∀ s t key r, (a.take? room s key r).isSome = true →
      b.take? room t key r = none) :
    ∀ (members : List (String × Json)) {s s₁ : State} {t t₁ : State'},
      (memberReadings members).foldlM (a.takeMember room) s = .ok s₁ →
      (memberReadings members).foldlM (b.takeMember room) t = .ok t₁ →
      (memberReadings members).foldlM ((a.and b).takeMember room) (s, t) = .ok (s₁, t₁)
  | [], _, _, _, _, ha, hb => by
    cases ha
    cases hb
    rfl
  | (key, j) :: ms, s, s₁, t, t₁, ha, hb => by
    rw [memberReadings, List.foldlM_cons] at ha hb ⊢
    cases hs : a.takeMember room s (some key, j.reading) with
    | error f => rw [hs] at ha; cases ha
    | ok s' =>
      cases ht : b.takeMember room t (some key, j.reading) with
      | error f => rw [ht] at hb; cases hb
      | ok t' =>
        rw [hs] at ha
        rw [ht] at hb
        rw [takeMember_and (hdisjoint s t key j.reading) hs ht]
        exact foldlM_and hdisjoint ms ha hb

/-- **Fields of two records**, if no name is in both. -/
theorem Reads.and {a : Record State α} {b : Record State' β} {fs gs : List FieldSpelling} {x : α}
    {y : β} (ha : a.Reads n fs x) (hb : b.Reads n gs y)
    (hdisjoint : ∀ f ∈ fs, ∀ g ∈ gs, f.name ≠ g.name) : (a.and b).Reads n (fs ++ gs) (x, y) where
  keys room found key r h := by
    rw [List.map_append]
    cases hs : a.take? room found.1 key r with
    | some next => exact List.mem_append_left _ (ha.keys room found.1 key r (by rw [hs]; rfl))
    | none =>
      have hb' : (b.take? room found.2 key r).isSome = true := by
        simpa only [Record.and, hs, Option.isSome_map] using h
      exact List.mem_append_right _ (hb.keys room found.2 key r hb')
  members room members hmembers hfits := by
    obtain ⟨s, hs, hx⟩ :=
      ha.members room members (fun f hf => hmembers f (List.mem_append_left _ hf)) hfits
    obtain ⟨t, ht, hy⟩ :=
      hb.members room members (fun g hg => hmembers g (List.mem_append_right _ hg)) hfits
    refine ⟨(s, t), foldlM_and (fun s t key r h => ?_) members hs ht, ?_⟩
    · rw [← Option.not_isSome_iff_eq_none]
      intro h'
      obtain ⟨f, hf, hfkey⟩ := List.mem_map.1 (ha.keys room s key r h)
      obtain ⟨g, hg, hgkey⟩ := List.mem_map.1 (hb.keys room t key r h')
      exact hdisjoint f hf g hg (hfkey.trans hgkey.symm)
    · simp only [Record.and, hx, hy]
      rfl
  items room fields' items hitems hfits := by
    rw [List.append_assoc] at hitems
    obtain ⟨items₁, hx, hitems₁, hsub₁⟩ := ha.items room (gs ++ fields') items hitems hfits
    obtain ⟨items₂, hy, hitems₂, hsub₂⟩ :=
      hb.items room fields' items₁ hitems₁ fun j hj => hfits j (hsub₁ hj)
    refine ⟨items₂, ?_, hitems₂, List.Subset.trans hsub₂ hsub₁⟩
    simp only [Record.and, hx, hy, bind, Except.bind]
    rfl

/-! ### Structures -/

variable {d : Record State α} {fields : List FieldSpelling} {a : α}

theorem Reads.decoder_obj (h : d.Reads n fields a) {members : List (String × Json)} {room : Nat}
    (hmembers : Members fields members) (hfits : Fits (n + 1) room (.obj members)) :
    d.decoder room (reading (.obj members)) = .ok a := by
  cases room with
  | zero => exact absurd hfits.2 (Nat.not_succ_le_zero _)
  | succ room =>
    obtain ⟨found, hfound, ha⟩ := h.members room members hmembers fun m hm => hfits.member hm
    rw [reading, Record.decoder, hfound]
    exact ha

theorem Reads.decoder_arr (h : d.Reads n fields a) {items : List Json} {room : Nat}
    (hitems : Items fields items) (hfits : Fits (n + 1) room (.arr items)) :
    d.decoder room (reading (.arr items)) = .ok a := by
  cases room with
  | zero => exact absurd hfits.2 (Nat.not_succ_le_zero _)
  | succ room =>
    obtain ⟨rest, htake, hrest, -⟩ :=
      h.items room [] items (by rwa [List.append_nil]) fun j hj => hfits.item hj
    obtain rfl : rest = [] := by
      cases rest with
      | nil => rfl
      | cons => exact hrest.elim
    rw [reading, Record.decoder, htake]
    rfl

/-- **A structure is read from each of its spellings.** -/
theorem Reads.decoder (h : d.Reads n fields a) : d.decoder.Reads (n + 1) (.struct fields) a := by
  rintro _ room (⟨members, hmembers, rfl⟩ | ⟨items, hitems, rfl⟩) hfits
  · exact h.decoder_obj hmembers hfits
  · exact h.decoder_arr hitems hfits

/-- **So are the fields of an alternative.** -/
theorem Reads.bodyDecoder (form : BodyForm) (h : d.Reads n fields a) :
    (d.bodyDecoder form).Reads (n + 1) (.body form fields) a := by
  rintro _ room (⟨members, hmembers, rfl⟩ | ⟨rfl, items, hitems, rfl⟩) hfits
  · rw [← h.decoder_obj hmembers hfits]
    rfl
  · rw [← h.decoder_arr hitems hfits]
    rfl

end Record

end ViewTyping.Json
