import ViewTyping.Proofs.DueForms

/-!
# Decoders and what is due

A decoder meets what is due (`Decoder.Meets`) if it takes every value that is, and stops at the
first fault of every value that is not. There is a lemma for each way to build decoders.

* `Meets.eq_ok_iff`, `Meets.eq_error_iff`: nothing else is taken, and there is no other fault.
* `meets_leaf`, `Meets.list`, `meets_alternative`: values without parts, lists and alternatives.
-/

set_option autoImplicit false

namespace ViewTyping.Json

open Reading

/-- Where no more than `n` arrays and objects may be opened, the decoder takes what is due and stops
at the first fault. -/
structure Decoder.Meets {α : Type} (n : Nat) (d : Decoder α) (due : Due) : Prop where
  taken : ∀ {room r}, room ≤ n → Takes due room r → ∃ a, d room r = .ok a
  fault : ∀ {room r f}, room ≤ n → FirstFault due room r f → d room r = .error f

theorem bind_ok {α β : Type} (x : α) (g : α → Except Fault β) : (Except.ok x >>= g) = g x := rfl

theorem Reading.fault_of_unreadable {r : Reading} (h : r.isReadable = false) :
    r.fault = .malformed := by
  cases r with
  | null | bool | arr | obj => cases h
  | num n => simpa [Reading.fault, isReadable] using h
  | str s =>
    cases s with
    | none => rfl
    | some s => cases h
  | broken => rfl

theorem Reading.fault_of_readable {r : Reading} (h : r.isReadable = true) :
    r.fault = .mismatch := by
  cases r with
  | null | bool | arr | obj => rfl
  | num n => simpa [Reading.fault, isReadable] using h
  | str s =>
    cases s with
    | none => cases h
    | some s => rfl
  | broken => cases h

namespace Decoder

variable {α β : Type} {n : Nat} {d : Decoder α} {due : Due}

theorem Meets.mono {m : Nat} (h : d.Meets n due) (hle : m ≤ n) : d.Meets m due :=
  ⟨fun hroom => h.taken (Nat.le_trans hroom hle), fun hroom => h.fault (Nat.le_trans hroom hle)⟩

theorem Meets.eq_ok_iff (h : d.Meets n due) {room : Nat} (hroom : room ≤ n) (r : Reading) :
    (∃ a, d room r = .ok a) ↔ Takes due room r := by
  refine ⟨?_, h.taken hroom⟩
  rintro ⟨a, ha⟩
  rcases takes_or_firstFault due room r with hr | ⟨f, hf⟩
  · exact hr
  · rw [h.fault hroom hf] at ha
    cases ha

theorem Meets.eq_error_iff (h : d.Meets n due) {room : Nat} (hroom : room ≤ n) (r : Reading)
    (f : Fault) : d room r = .error f ↔ FirstFault due room r f := by
  refine ⟨fun hfault => ?_, h.fault hroom⟩
  rcases takes_or_firstFault due room r with hr | ⟨f', hf'⟩
  · obtain ⟨a, ha⟩ := h.taken hroom hr
    rw [hfault] at ha
    cases ha
  · rw [h.fault hroom hf'] at hfault
    cases hfault
    exact hf'

theorem Meets.map (h : d.Meets n due) (g : α → β) : (d.map g).Meets n due where
  taken hroom hr := by
    obtain ⟨a, ha⟩ := h.taken hroom hr
    exact ⟨g a, by rw [Decoder.map, ha]; rfl⟩
  fault hroom hf := by
    rw [Decoder.map, h.fault hroom hf]
    rfl

/-! ## Values without parts -/

theorem firstFault_leaf {l : Leaf} {room : Nat} {r : Reading} {f : Fault}
    (h : FirstFault (.leaf l) room r f) : l.refuses r = true ∧ f = r.fault ∨
      ∃ name, l = .kind ∧ r = .str (some name) ∧ Kind.ofName? name = none ∧
        f = .unknownKind name := by
  cases h with
  | here h =>
    cases h with
    | unreadable h hr => exact .inl ⟨h, (fault_of_unreadable hr).symm⟩
    | otherForm h hr => exact .inl ⟨h, (fault_of_readable hr).symm⟩
    | unknownKind h => exact .inr ⟨_, rfl, rfl, h, rfl⟩
  | inside hleads _ => cases hleads

theorem meets_leaf {l : Leaf} (hkind : l ≠ .kind)
    (htaken : ∀ room r, l.accepts r = true → ∃ a, d room r = .ok a)
    (hother : ∀ room r, l.accepts r = false → d room r = .error r.fault) :
    d.Meets n (.leaf l) where
  taken {room r} _ hr := by
    cases hr with
    | leaf h => exact htaken room r h
  fault {room r f} _ hf := by
    rcases firstFault_leaf hf with ⟨hr, rfl⟩ | ⟨_, rfl, -⟩
    · refine hother room r ?_
      unfold Leaf.refuses at hr
      split at hr
      · cases hr
      · simpa using hr
    · exact absurd rfl hkind

theorem meets_text : text.Meets n .text := by
  refine meets_leaf (by decide) (fun room r h => ?_) (fun room r h => ?_)
  · obtain ⟨s, rfl⟩ : ∃ s, r = .str (some s) := by
      unfold Leaf.accepts at h
      split at h <;> grind
    exact ⟨s, rfl⟩
  · unfold text
    split
    · cases h
    · rfl

theorem meets_bool : bool.Meets n (.leaf .bool) := by
  refine meets_leaf (by decide) (fun room r h => ?_) (fun room r h => ?_)
  · cases r with
    | bool b => exact ⟨b, rfl⟩
    | _ => cases h
  · unfold bool
    split
    · cases h
    · rfl

theorem meets_whole (least greatest : Int) :
    (whole fun i => least ≤ i && i ≤ greatest).Meets n (.leaf (.whole least greatest)) := by
  refine meets_leaf (by simp) (fun room r h => ?_) (fun room r h => ?_)
  · cases r with
    | num x =>
      rw [Leaf.accepts, Option.any_eq_true] at h
      obtain ⟨i, hi, hfits⟩ := h
      exact ⟨i, by simp only [whole, hi, if_pos hfits]⟩
    | _ => cases h
  · unfold whole
    split
    · rename_i x
      cases hx : x.toInt? with
      | none => rfl
      | some i =>
        rw [Leaf.accepts, hx, Option.any_some] at h
        simp only [h, Bool.false_eq_true, if_false]
    · rfl

theorem meets_double : double.Meets n (.leaf .double) := by
  refine meets_leaf (by decide) (fun room r h => ?_) (fun room r h => ?_)
  · cases r with
    | num x =>
      obtain ⟨y, hy⟩ := Option.isSome_iff_exists.1 h
      exact ⟨y, by simp only [double, hy]⟩
    | _ => cases h
  · unfold double
    split
    · rename_i x
      have hx : x.toBinary64? = none := by
        rw [Leaf.accepts, Numeral.inRange, Option.isSome_eq_false_iff] at h
        exact Option.isNone_iff_eq_none.1 h
      have hr : (Reading.num x).isReadable = false := h
      rw [hx, fault_of_unreadable hr]
    · rfl

theorem meets_kind : kind.Meets n (.leaf .kind) where
  taken {room r} _ hr := by
    cases hr with
    | leaf h =>
      obtain ⟨name, rfl, hname⟩ : ∃ name, r = .str (some name) ∧
          (Kind.ofName? name).isSome = true := by
        unfold Leaf.accepts at h
        split at h <;> grind
      obtain ⟨k, hk⟩ := Option.isSome_iff_exists.1 hname
      exact ⟨k, by simp only [kind, text, bind, Except.bind, hk, pure, Except.pure]⟩
  fault {room r f} _ hf := by
    rcases firstFault_leaf hf with ⟨hr, rfl⟩ | ⟨name, -, rfl, hname, rfl⟩
    · have htext : text room r = .error r.fault := by
        unfold text
        split
        · cases hr
        · rfl
      simp only [kind, htext, bind, Except.bind]
    · simp only [kind, text, bind, Except.bind, hname]
      rfl

/-! ## Lists -/

theorem mapM_of_ok {f : Reading → Except Fault α} : ∀ {rs : List Reading},
    (∀ r ∈ rs, ∃ a, f r = .ok a) → ∃ as, rs.mapM f = .ok as
  | [], _ => ⟨[], rfl⟩
  | r :: rs, h => by
    obtain ⟨a, ha⟩ := h r List.mem_cons_self
    obtain ⟨as, has⟩ := mapM_of_ok fun r' hr' => h r' (List.mem_cons_of_mem r hr')
    exact ⟨a :: as, by rw [List.mapM_cons, ha, has]; rfl⟩

theorem mapM_of_error {f : Reading → Except Fault α} {before after : List Reading} {r : Reading}
    {e : Fault} (hbefore : ∀ r' ∈ before, ∃ a, f r' = .ok a) (hr : f r = .error e) :
    (before ++ r :: after).mapM f = .error e := by
  obtain ⟨as, has⟩ := mapM_of_ok hbefore
  rw [List.mapM_append, has, List.mapM_cons, hr]
  rfl

theorem list_of_otherForm {item : Due} {room : Nat} {r : Reading}
    (h : (Due.list item).otherForm r = true) : list d room r = .error r.fault := by
  cases r with
  | arr => cases h
  | _ => cases room <;> rfl

theorem Meets.list (h : d.Meets n due) : (list d).Meets n (.list due) where
  taken {room r} hroom hr := by
    cases hr with
    | list hitems =>
      obtain ⟨as, has⟩ := mapM_of_ok fun r hr => h.taken (Nat.le_of_succ_le hroom) (hitems r hr)
      exact ⟨as, by rw [Decoder.list, has]; rfl⟩
  fault {room r f} hroom hf := by
    cases hf with
    | here hf =>
      cases hf with
      | unreadable hform hr => rw [list_of_otherForm hform, fault_of_unreadable hr]
      | otherForm hform hr => rw [list_of_otherForm hform, fault_of_readable hr]
      | deepList => rfl
      | openList hitems hending =>
        obtain ⟨as, has⟩ := mapM_of_ok fun r hr => h.taken (Nat.le_of_succ_le hroom) (hitems r hr)
        rw [Decoder.list, has]
        exact if_neg hending
    | inside hleads hf =>
      cases hleads with
      | item hbefore =>
        have hle := Nat.le_of_succ_le hroom
        rw [Decoder.list,
          mapM_of_error (fun r' hr' => h.taken hle (hbefore r' hr')) (h.fault hle hf)]
        rfl

/-! ## Alternatives -/

theorem alone_of_ne_nil (a : α) {behind : List β} (h : behind ≠ []) (ending : Ending) :
    alone a behind ending = .error .misplaced := by
  cases behind with
  | nil => exact absurd rfl h
  | cons => rfl

theorem alone_of_open (a : α) {ending : Ending} (h : ending ≠ .closed) :
    alone a ([] : List β) ending = .error .malformed :=
  if_neg h

end Decoder

/-- An alternative without content is written as `null`, any other as what is due. -/
inductive Content.Meets {α : Type} (n : Nat) : Content α → Due → Prop
  | nothing (a : α) : Content.Meets n (.nothing a) (.leaf .null)
  | value {d : Decoder α} {due : Due} (hdue : due ≠ .leaf .null) (h : d.Meets n due) :
      Content.Meets n (.value d) due

theorem Content.Meets.decoder {α : Type} {n : Nat} {content : Content α} {due : Due}
    (h : content.Meets n due) : content.decoder.Meets n due := by
  cases h with
  | nothing a =>
    refine Decoder.meets_leaf (by decide) (fun room r h => ?_) (fun room r h => ?_)
    · cases r with
      | null => exact ⟨a, rfl⟩
      | _ => cases h
    · cases r with
      | null => cases h
      | _ => rfl
  | value _ h => exact h

namespace Decoder

section
variable {α : Type} {n : Nat} {content? : String → Option (Content α)} {alternatives : Alternatives}
  (h : ∀ name, Option.Rel (Content.Meets n) (content? name) (alternatives.lookup name))
include h

theorem content_of_lookup {name : String} {due : Due}
    (hname : alternatives.lookup name = some due) :
    ∃ content, content? name = some content ∧ content.Meets n due := by
  have hrel := h name
  rw [hname] at hrel
  generalize content? name = found at hrel ⊢
  cases hrel with
  | some hcontent => exact ⟨_, rfl, hcontent⟩

theorem no_content_of_lookup {name : String} (hname : alternatives.lookup name = none) :
    content? name = none := by
  have hrel := h name
  rw [hname] at hrel
  generalize content? name = found at hrel ⊢
  cases hrel with
  | none => rfl

theorem alternative_name {name : String} (hname : alternatives.lookup name = some (.leaf .null))
    (room : Nat) : ∃ a, alternative content? room (.str (some name)) = .ok a := by
  obtain ⟨content, hcontent, hmeets⟩ := content_of_lookup h hname
  cases hmeets with
  | nothing a => exact ⟨a, by simp only [alternative, hcontent]⟩
  | value hdue => exact absurd rfl hdue

theorem alternative_unknownName {name : String}
    (hname : alternatives.lookup name ≠ some (.leaf .null)) (room : Nat) :
    alternative content? room (.str (some name)) = .error .mismatch := by
  cases hdue : alternatives.lookup name with
  | none => simp only [alternative, no_content_of_lookup h hdue]
  | some due =>
    obtain ⟨content, hcontent, hmeets⟩ := content_of_lookup h hdue
    cases hmeets with
    | nothing a => exact absurd hdue hname
    | value => simp only [alternative, hcontent]

theorem alternative_taken {name : String} {due : Due} {room : Nat} {r : Reading}
    (hname : alternatives.lookup name = some due) (hroom : room ≤ n) (hr : Takes due room r) :
    ∃ a, ∀ rest ending, alternative content? (room + 1) (.obj ((some name, r) :: rest) ending) =
      alone a rest ending := by
  obtain ⟨content, hcontent, hmeets⟩ := content_of_lookup h hname
  obtain ⟨a, ha⟩ := hmeets.decoder.taken hroom hr
  refine ⟨a, fun rest ending => ?_⟩
  simp only [alternative, hcontent, ha]
  rfl

theorem alternative_fault {name : String} {due : Due} {room : Nat} {r : Reading} {f : Fault}
    (hname : alternatives.lookup name = some due) (hroom : room ≤ n) (hf : FirstFault due room r f)
    (rest : Members) (ending : Ending) :
    alternative content? (room + 1) (.obj ((some name, r) :: rest) ending) = .error f := by
  obtain ⟨content, hcontent, hmeets⟩ := content_of_lookup h hname
  simp only [alternative, hcontent, hmeets.decoder.fault hroom hf]
  rfl

theorem alternative_fault_here {room : Nat} {r : Reading} {f : Fault} (hroom : room ≤ n + 1)
    (hf : FaultAt (.choice alternatives) room r f) : alternative content? room r = .error f := by
  cases hf with
  | unreadable hform | otherForm hform => cases hform
  | deepChoice | noMember | cutObject | badTag => simp only [alternative]
  | brokenChoice | brokenName => cases room <;> simp only [alternative]
  | noAlternative hr =>
    cases r with
    | null | bool | num | arr => cases room <;> simp only [alternative]
    | str | obj | broken => cases hr
  | unknownName hname => exact alternative_unknownName h hname room
  | unknownTag hname => simp only [alternative, no_content_of_lookup h hname]
  | memberBehind hname hr hrest =>
    obtain ⟨a, ha⟩ := alternative_taken h hname (Nat.le_of_succ_le_succ hroom) hr
    rw [ha, alone_of_ne_nil a hrest]
  | openChoice hname hr hending =>
    obtain ⟨a, ha⟩ := alternative_taken h hname (Nat.le_of_succ_le_succ hroom) hr
    rw [ha, alone_of_open a hending]

/-- The alternatives are decoded with one more array or object to open than what they hold. -/
theorem meets_alternative : (alternative content?).Meets (n + 1) (.choice alternatives) where
  taken {room r} hroom hr := by
    cases hr with
    | name hname => exact alternative_name h hname room
    | content hname hr =>
      obtain ⟨a, ha⟩ := alternative_taken h hname (Nat.le_of_succ_le_succ hroom) hr
      exact ⟨a, ha [] .closed⟩
  fault {room r f} hroom hf := by
    cases hf with
    | here hf => exact alternative_fault_here h hroom hf
    | inside hleads hf =>
      cases hleads with
      | content hname => exact alternative_fault h hname (Nat.le_of_succ_le_succ hroom) hf _ _

end

theorem rel_named {α : Type} {n : Nat} (name : α → String) (key : String) : ∀ values : List α,
    Option.Rel (Content.Meets n) ((values.find? (name · == key)).map .nothing)
      (((values.map name).map fun name => (name, Due.leaf .null)).lookup key)
  | [] => .none
  | a :: values => by
    rw [List.map_cons, List.map_cons, List.lookup_cons, List.find?_cons]
    by_cases hkey : name a = key
    · rw [hkey, beq_self_eq_true]
      exact .some (.nothing a)
    · rw [beq_false_of_ne hkey, beq_false_of_ne (Ne.symm hkey)]
      exact rel_named name key values

theorem meets_named {α : Type} {n : Nat} (name : α → String) (values : List α) :
    (named name values).Meets n (.oneOf (values.map name)) :=
  (meets_alternative fun key => rel_named name key values).mono (Nat.le_succ n)

end Decoder

end ViewTyping.Json
