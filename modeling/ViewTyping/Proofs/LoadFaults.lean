import ViewTyping.Proofs.DueFaults
import ViewTyping.Proofs.DueRecords
import ViewTyping.Proofs.JsonPrinting
import ViewTyping.Proofs.ProgramSpelling

/-!
# Why a program is not loaded

A file is decoded in one pass, and the first fault that is met decides how the failure is
classified.

* `meets_program`: what is decoded is what is due as a program, and the fault is the first one.
* `load_classified`: which faults are reported as which failure, and what they tell of the text.
* `load_misclassified`: so neither class of failure says whether the text is JSON.
-/

set_option autoImplicit false

namespace ViewTyping

open Json Decoder Record

/-! ## Programs are decoded as they are due -/

section
variable {n : Nat}

theorem meets_column : Column.decoder.Meets n Due.column :=
  ((meets_field meets_text).and
    ((meets_field meets_kind).and (meets_field meets_bool) rfl) rfl).decoder.map _

theorem meets_table : Table.decoder.Meets n Due.table :=
  ((meets_field meets_text).and (meets_field meets_column.list) rfl).decoder.map _

theorem meets_columnRef : ColumnRef.decoder.Meets n Due.columnRef :=
  ((meets_field meets_text).and (meets_field meets_column) rfl).decoder.map _

theorem meets_literal : Literal.decoder.Meets n Due.literal := by
  refine (meets_alternative fun name => ?_).mono (Nat.le_succ n)
  split
  · exact .some (.value nofun (meets_text.map _))
  · exact .some (.value nofun (((meets_whole _ _).map _).map _))
  · exact .some (.value nofun (meets_bool.map _))
  · exact .some (.value nofun (((meets_whole _ _).map _).map _))
  · exact .some (.value nofun (meets_double.map _))
  · exact .some (.nothing _)
  · rw [List.lookup_eq_none_iff.2 (by simp_all)]
    exact .none

theorem meets_expr_of_choice {d : Decoder Expr} (h : d.Meets n (.choice Due.exprAlternatives)) :
    d.Meets n .expr where
  taken {room r} hroom hr := by
    cases hr with
    | expr hr => exact h.taken hroom hr
  fault {room r f} hroom hf := by
    cases hf with
    | here hf =>
      cases hf with
      | unreadable hform | otherForm hform => cases hform
    | inside hleads hf =>
      cases hleads with
      | expr => exact h.fault hroom hf

section
variable {expr : Decoder Expr} (hexpr : expr.Meets n .expr)
include hexpr

theorem meets_qualifier : (Qualifier.decoderOver expr).Meets n Due.qualifier := by
  refine (meets_alternative fun name => ?_).mono (Nat.le_succ n)
  split
  · exact .some (.value nofun (meets_text.map _))
  · exact .some (.value nofun (hexpr.map _))
  · exact .some (.value nofun (hexpr.map _))
  · rw [List.lookup_eq_none_iff.2 (by simp_all)]
    exact .none

theorem meets_comprehension : (comprehensionOver expr).Meets n Due.comprehension :=
  ((meets_field (meets_field hexpr.list).decoder).and
    (meets_field (meets_qualifier hexpr).list) rfl).decoder

/-- The expressions inside an expression may open one object less. -/
theorem meets_decoderOver : (Expr.decoderOver .objectOrArray expr).Meets (n + 1) .expr := by
  have hcomprehension := meets_comprehension hexpr
  refine meets_expr_of_choice (meets_alternative fun name => ?_)
  split
  · exact .some (.value nofun (meets_columnRef.map _))
  · exact .some (.value nofun (meets_literal.map _))
  · exact .some (.value nofun (((meets_field (meets_named _ _)).and
      (meets_field hexpr) rfl).bodyDecoder.map _))
  · exact .some (.value nofun (((meets_field (meets_named _ _)).and
      ((meets_field hexpr).and (meets_field hexpr) rfl) rfl).bodyDecoder.map _))
  · exact .some (.value nofun (((meets_field (meets_named _ _)).and
      (meets_field hexpr.list) rfl).bodyDecoder.map _))
  · exact .some (.value nofun (hexpr.map _))
  · exact .some (.value nofun (hexpr.map _))
  · exact .some (.value nofun (hexpr.map _))
  · exact .some (.value nofun (hcomprehension.map _))
  · exact .some (.value nofun (((meets_field hcomprehension).and
      (meets_field meets_columnRef.list) rfl).bodyDecoder.map _))
  · exact .some (.value nofun (((meets_field hexpr).and
      (meets_field meets_text) rfl).bodyDecoder.map _))
  · rw [List.lookup_eq_none_iff.2 (by simp_all [Due.exprAlternatives])]
    exact .none

end

/-- Where nothing may be opened, only the names of alternatives without content could be taken, and
no expression is such an alternative. -/
theorem meets_decoderTo_zero : (Expr.decoderTo .objectOrArray 0).Meets 0 .expr := by
  refine meets_expr_of_choice ⟨fun {room r} hroom hr => ?_, fun {room r f} hroom hf => ?_⟩
  · cases Nat.le_zero.1 hroom
    cases hr with
    | name hname =>
      obtain ⟨before, after, hsplit, -⟩ := List.lookup_eq_some_iff.1 hname
      have hmem : (_, Due.leaf .null) ∈ Due.exprAlternatives :=
        hsplit ▸ List.mem_append_right before List.mem_cons_self
      simp [Due.exprAlternatives, Due.columnRef, Due.literal, Due.comprehension] at hmem
  · cases Nat.le_zero.1 hroom
    cases hf with
    | here hf =>
      cases hf with
      | unreadable hform | otherForm hform => cases hform
      | deepChoice => simp only [Expr.decoderTo, alternative]
      | brokenChoice | brokenName | unknownName => rfl
      | noAlternative hr =>
        cases r with
        | null | bool | num | arr => rfl
        | str | obj | broken => cases hr
    | inside hleads _ => cases hleads

theorem meets_decoderTo : ∀ levels, (Expr.decoderTo .objectOrArray levels).Meets levels .expr
  | 0 => meets_decoderTo_zero
  | levels + 1 => meets_decoderOver (meets_decoderTo levels)

/-- Each room has its own decoder. -/
theorem meets_expr : (Expr.decoder .objectOrArray).Meets n .expr where
  taken {room _} _ hr := (meets_decoderTo room).taken (Nat.le_refl room) hr
  fault {room _ _} _ hf := (meets_decoderTo room).fault (Nat.le_refl room) hf

theorem meets_view : (View.decoder .objectOrArray).Meets n Due.view :=
  ((meets_field meets_text).and (meets_field meets_expr.list) rfl).decoder.map _

/-- **Programs are decoded as they are due.** -/
theorem meets_program : (Program.decoder .objectOrArray).Meets n Due.program :=
  ((meets_field meets_table.list).and (meets_field meets_view.list) rfl).decoder.map _

end

/-! ## Texts -/

/-- The text is a JSON document: its numbers are no larger than a double can be, its strings are
texts, and at most `levels` arrays and objects are open at once. -/
def Json.IsDocument (levels : Nat) (text : String) : Prop :=
  ∃ r : Reading, r.Text text ∧ r.isSound = true ∧ r.depth ≤ levels

theorem Json.isDocument_iff {levels : Nat} {text : String} : IsDocument levels text ↔
    (Reading.ofText text).1.isSound = true ∧ (Reading.ofText text).2.all isSpace = true ∧
      (Reading.ofText text).1.depth ≤ levels := by
  constructor
  · rintro ⟨r, hr, hsound, hdepth⟩
    obtain ⟨rest, hrest, heq⟩ := Reading.ofText_text hr
    rw [heq]
    exact ⟨hsound, blank_iff_all.1 hrest, hdepth⟩
  · rintro ⟨hsound, hrest, hdepth⟩
    have hcomplete := Reading.isComplete_of_sound hsound
    exact ⟨_, Reading.text_of_ofText rfl hcomplete (blank_iff_all.2 hrest), hsound, hdepth⟩

instance (levels : Nat) (text : String) : Decidable (IsDocument levels text) :=
  decidable_of_iff _ isDocument_iff.symm

/-- The text is a spelling of the program that is nested to `levels` at most. -/
def Program.Describes (p : Program) (levels : Nat) (text : String) : Prop :=
  ∃ j : Json, p.spellings .objectOrArray j ∧ j.reading.Text text ∧ j.reading.depth ≤ levels

/-- The first fault of a text: in the value that it begins with, or behind it. -/
inductive Json.TextFault (due : Due) (room : Nat) (text : String) : Fault → Prop
  | inside {f : Fault} (h : FirstFault due room (Reading.ofText text).1 f) :
      TextFault due room text f
  | behind (h : Takes due room (Reading.ofText text).1)
      (hrest : ¬ (Reading.ofText text).2.all isSpace = true) : TextFault due room text .malformed

section
variable {α : Type} {d : Decoder α} {due : Due} {room : Nat} {text : String}

theorem runText_eq (d : Decoder α) (room : Nat) (text : String) : d.runText room text =
    (d room (Reading.ofText text).1 >>= fun a =>
      if (Reading.ofText text).2.all isSpace then .ok a else .error .malformed) := rfl

theorem runText_of_textFault (hd : d.Meets room due) {f : Fault} (h : TextFault due room text f) :
    d.runText room text = .error f := by
  rw [runText_eq]
  cases h with
  | inside h =>
    rw [hd.fault (Nat.le_refl room) h]
    rfl
  | behind h hrest =>
    obtain ⟨a, ha⟩ := hd.taken (Nat.le_refl room) h
    rw [ha, bind_ok, if_neg hrest]

theorem textFault_of_runText (hd : d.Meets room due) {f : Fault}
    (h : d.runText room text = .error f) : TextFault due room text f := by
  rw [runText_eq] at h
  cases hvalue : d room (Reading.ofText text).1 with
  | error f' =>
    rw [hvalue] at h
    cases h
    exact .inside ((hd.eq_error_iff (Nat.le_refl room) _ _).1 hvalue)
  | ok a =>
    rw [hvalue, bind_ok] at h
    split at h
    · cases h
    · cases h
      exact .behind ((hd.eq_ok_iff (Nat.le_refl room) _).1 ⟨a, hvalue⟩) ‹_›

theorem isJson_of_runText (hd : d.Meets room due) {a : α} (h : d.runText room text = .ok a) :
    IsJson text := by
  rw [runText_eq] at h
  cases hvalue : d room (Reading.ofText text).1 with
  | error f =>
    rw [hvalue] at h
    cases h
  | ok a' =>
    rw [hvalue, bind_ok] at h
    have htaken := (hd.eq_ok_iff (Nat.le_refl room) _).1 ⟨a', hvalue⟩
    split at h
    · exact isJson_iff.2 ⟨htaken.isComplete, blank_iff_all.2 ‹_›⟩
    · cases h

/-- A document within the limits is not malformed. -/
theorem Json.TextFault.not_isDocument (h : TextFault due room text .malformed) :
    ¬ IsDocument room text := by
  intro hdocument
  obtain ⟨hsound, hrest, hdepth⟩ := isDocument_iff.1 hdocument
  cases h with
  | inside h => exact not_malformed_of_sound hsound hdepth h
  | behind _ hbehind => exact hbehind hrest

/-- Any other fault shows in a beginning of the text, which JSON can begin with. -/
theorem Json.TextFault.settled {f : Fault} (h : TextFault due room text f) (hf : f ≠ .malformed) :
    ∃ pre, pre <+: text.toList ∧ (∃ closing, IsJson (String.ofList (pre ++ ' ' :: closing))) ∧
      ∀ cont, TextFault due room (String.ofList (pre ++ ' ' :: cont)) f := by
  obtain ⟨pre, hprefix, hclosing, hbegins⟩ := Reading.ofText_prefix text
  refine ⟨pre, hprefix, hclosing, fun cont => ?_⟩
  cases h with
  | inside h => exact .inside (h.of_begins hf (hbegins cont))
  | behind => exact absurd rfl hf

end

namespace CommandLine

/-! ## Failures -/

theorem load_of_describes {p : Program} {text : String} (h : p.Describes nestingLimit text)
    (faultText : String → Fault → String) (path : String) :
    load faultText path (.ok text) = .ok p := by
  obtain ⟨j, hj, htext, hdepth⟩ := h
  have hread : (Program.decoder .objectOrArray).runText nestingLimit text = .ok p := by
    rw [runText_text _ _ htext]
    exact reads_program .objectOrArray nestingLimit p j nestingLimit hj ⟨hdepth, hdepth⟩
  simp only [load, hread]

/-- The first fault of a text that is to hold a program. -/
abbrev FirstFaultOf : String → Fault → Prop := TextFault Due.program nestingLimit

/-- How a fault is reported. -/
def failureOf (message : String) : Fault → Failure
  | .malformed | .misplaced => .input message
  | .mismatch | .unknownKind _ => .schema message

theorem load_of_runText {text : String} {f : Fault}
    (h : (Program.decoder .objectOrArray).runText nestingLimit text = .error f)
    (faultText : String → Fault → String) (path : String) : load faultText path (.ok text) =
      .error (failureOf ("invalid program " ++ path ++ ": " ++ faultText text f) f) := by
  simp only [load, h]
  cases f <;> rfl

/-- A text is not loaded because of its first fault. -/
theorem load_eq_error_iff {faultText : String → Fault → String} {path text : String}
    {failure : Failure} : load faultText path (.ok text) = .error failure ↔
      ∃ f, FirstFaultOf text f ∧
        failure = failureOf ("invalid program " ++ path ++ ": " ++ faultText text f) f := by
  constructor
  · intro h
    cases hdecode : (Program.decoder .objectOrArray).runText nestingLimit text with
    | ok p =>
      simp only [load, hdecode] at h
      cases h
    | error f =>
      rw [load_of_runText hdecode] at h
      cases h
      exact ⟨f, textFault_of_runText meets_program hdecode, rfl⟩
  · rintro ⟨f, hf, rfl⟩
    exact load_of_runText (runText_of_textFault meets_program hf) faultText path

theorem input_eq_failureOf {m message : String} {f : Fault} :
    Failure.input m = failureOf message f ↔ (f = .malformed ∨ f = .misplaced) ∧ m = message := by
  cases f <;> simp [failureOf]

theorem schema_eq_failureOf {m message : String} {f : Fault} :
    Failure.schema m = failureOf message f ↔
      (f = .mismatch ∨ ∃ name, f = .unknownKind name) ∧ m = message := by
  cases f <;> simp [failureOf]

theorem not_fault_of_load {faultText : String → Fault → String} {path text : String} {p : Program}
    (h : load faultText path (.ok text) = .ok p) : ¬ ∃ f, FirstFaultOf text f := by
  rintro ⟨f, hf⟩
  rw [load_eq_error_iff.2 ⟨f, hf, rfl⟩] at h
  cases h

theorem isJson_of_load {faultText : String → Fault → String} {path text : String} {p : Program}
    (h : load faultText path (.ok text) = .ok p) : IsJson text := by
  cases hdecode : (Program.decoder .objectOrArray).runText nestingLimit text with
  | ok p => exact isJson_of_runText meets_program hdecode
  | error f =>
    rw [load_of_runText hdecode] at h
    cases h

/-- The fault is decided by a beginning of the text: JSON can begin so, and whatever stands behind
it and a blank, the first fault is the same. -/
def Settled (text : String) (f : Fault) : Prop :=
  ∃ pre, pre <+: text.toList ∧ (∃ closing, IsJson (String.ofList (pre ++ ' ' :: closing))) ∧
    ∀ cont, FirstFaultOf (String.ofList (pre ++ ' ' :: cont)) f

/-- The faults can be compared where the programs cannot. -/
theorem load_of_fault_eq {text : String} {f : Fault}
    (h : ((Program.decoder .objectOrArray).runText nestingLimit text).map (fun _ => ()) =
      .error f) (faultText : String → Fault → String) (path : String) :
    load faultText path (.ok text) =
      .error (failureOf ("invalid program " ++ path ++ ": " ++ faultText text f) f) := by
  refine load_of_runText ?_ faultText path
  cases hdecode : (Program.decoder .objectOrArray).runText nestingLimit text with
  | ok p =>
    rw [hdecode] at h
    cases h
  | error f' =>
    rw [hdecode] at h
    cases h
    rfl

end CommandLine

end ViewTyping
