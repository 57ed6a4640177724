import ViewTyping.Proofs.JsonPrinting
import ViewTyping.Proofs.ProgramSpelling

/-!
# The two ways to print a run

A run prints layouts or a failure, as text or as JSON. `CommandLine.outcome` is what it has to
print, and both ways print the same:

* `reads_layouts`: the JSON of layouts is decoded as these layouts.
* `output_modes_agree`: exit codes, and what stands on which of the two outputs.
-/

set_option autoImplicit false

namespace ViewTyping

open Json FieldSpelling

/-! ## Layouts read back -/

def ScopeKind.decoder : Decoder ScopeKind := Decoder.named ScopeKind.name [.table, .view]

def Field.decoder : Decoder Field :=
  ((Record.field "name" Decoder.text).and <|
    (Record.field "position" (Decoder.whole fun i => 0 ≤ i)).and <|
    Record.field "ty" ValueType.decoder).decoder.map
      fun (name, position, type) => ⟨name, position.toNat, type⟩

def Layout.decoder : Decoder Layout :=
  ((Record.field "scope" Decoder.text).and <|
    (Record.field "kind" ScopeKind.decoder).and <|
    Record.field "fields" (.list Field.decoder)).decoder.map
      fun (scope, kind, fields) => ⟨scope, kind, fields⟩

def Field.spellings (f : Field) : Spellings :=
  .struct [required "name" (· = .str f.name), required "position" (· = .nat f.position),
    required "ty" (.unit f.type.name)]

def Layout.spellings (l : Layout) : Spellings :=
  .struct [required "scope" (· = .str l.scope), required "kind" (.unit l.kind.name),
    required "fields" (.list (l.fields.map Field.spellings))]

theorem Field.encode_spelling (f : Field) : f.spellings f.encode :=
  Spellings.struct_obj (.cons ⟨rfl, rfl⟩ <| .cons ⟨rfl, rfl⟩ <| .cons ⟨rfl, .inl rfl⟩ .nil)
    (by simp [required])

theorem Layout.encode_spelling (l : Layout) : l.spellings l.encode :=
  Spellings.struct_obj (.cons ⟨rfl, rfl⟩ <| .cons ⟨rfl, .inl rfl⟩ <|
    .cons ⟨rfl, Spellings.list_arr fun f _ => f.encode_spelling⟩ .nil) (by simp [required])

section
variable (n : Nat)

theorem reads_valueType (t : ValueType) : ValueType.decoder.Reads n (.unit t.name) t := by
  refine reads_unit ?_
  cases t <;> rfl

theorem reads_scopeKind (k : ScopeKind) : ScopeKind.decoder.Reads n (.unit k.name) k := by
  refine reads_unit ?_
  cases k <;> rfl

theorem reads_layoutField (f : Field) : Field.decoder.Reads n f.spellings f := by
  have hposition : (Decoder.whole fun i => 0 ≤ i).Reads n (· = .nat f.position) f.position :=
    reads_whole n (by simp)
  have hfields := (Record.reads_required "name" (reads_text n f.name)).and
    ((Record.reads_required "position" hposition).and
      (Record.reads_required "ty" (reads_valueType n f.type)) (by simp [required]))
    (by simp [required])
  exact (hfields.decoder.map _).mono (Nat.le_succ n)

theorem reads_layout (l : Layout) : Layout.decoder.Reads n l.spellings l := by
  have hlist : (Decoder.list Field.decoder).Reads (n + 1)
      (.list (l.fields.map Field.spellings)) l.fields := reads_list fun f _ => reads_layoutField n f
  have hfields := (Record.reads_required "scope" (reads_text (n + 1) l.scope)).and
    ((Record.reads_required "kind" (reads_scopeKind (n + 1) l.kind)).and
      (Record.reads_required "fields" hlist) (by simp [required])) (by simp [required])
  exact (hfields.decoder.map _).mono (by omega)

end

/-- The JSON of layouts. -/
def layoutsJson (layouts : List Layout) : Json := .arr (layouts.map Layout.encode)

theorem Json.numericItems_iff {items : List Json} :
    NumericItems items ↔ ∀ j ∈ items, j.Numeric := by
  induction items with
  | nil => simp [NumericItems]
  | cons j js ih => rw [NumericItems, ih, List.forall_mem_cons]

theorem Json.itemsDepth_le {n : Nat} {items : List Json} (h : ∀ j ∈ items, j.reading.depth ≤ n) :
    Reading.itemsDepth (itemReadings items) ≤ n := by
  induction items with
  | nil => exact Nat.zero_le n
  | cons j js ih =>
    rw [itemReadings, Reading.itemsDepth]
    exact Nat.max_le.2 ⟨h j (.head _), ih fun j' hj' => h j' (.tail _ hj')⟩

theorem numeric_layoutsJson (layouts : List Layout) : (layoutsJson layouts).Numeric := by
  rw [layoutsJson, Numeric, numericItems_iff, List.forall_mem_map]
  intro l _
  have hfields : NumericItems (l.fields.map Field.encode) := by
    rw [numericItems_iff, List.forall_mem_map]
    intro f _
    simp [Field.encode, ValueType.encode, Numeric, NumericMembers, Json.nat, Json.int,
      Numeral.ofInt]
  simp [Layout.encode, Numeric, NumericMembers, hfields]

theorem depth_layoutsJson (layouts : List Layout) : (layoutsJson layouts).reading.depth ≤ 4 := by
  have hlayouts : Reading.itemsDepth (itemReadings (layouts.map Layout.encode)) ≤ 3 := by
    refine itemsDepth_le (List.forall_mem_map.2 fun l _ => ?_)
    have hfields : Reading.itemsDepth (itemReadings (l.fields.map Field.encode)) ≤ 1 :=
      itemsDepth_le (List.forall_mem_map.2 fun f _ => Nat.le_refl 1)
    simp only [Layout.encode, reading, memberReadings, Reading.depth, Reading.membersDepth]
    omega
  rw [layoutsJson, reading, Reading.depth]
  omega

/-- **The JSON of layouts is decoded as these layouts.** -/
theorem reads_layouts (layouts : List Layout) (room : Nat) (hroom : 4 ≤ room) :
    (Decoder.list Layout.decoder) room (layoutsJson layouts).reading = .ok layouts := by
  have hread : (Decoder.list Layout.decoder).Reads 4 (.list (layouts.map Layout.spellings))
      layouts := reads_list fun l _ => reads_layout 3 l
  have hdepth := depth_layoutsJson layouts
  exact hread _ room (Spellings.list_arr fun l _ => l.encode_spelling)
    ⟨hdepth, Nat.le_trans hdepth hroom⟩

namespace CommandLine

/-! ## What a run has to print -/

/-- The catalog whose layouts a run prints, or its failure. -/
def outcome (faultText : String → Fault → String) (path : String)
    (contents : Except ReadFault String) : Except Failure Catalog := do
  let p ← load faultText path contents
  p.check.mapError .type

section
variable {faultText : String → Fault → String} {path : String}
  {contents : Except ReadFault String}

theorem outcome_eq_ok {c : Catalog} :
    outcome faultText path contents = .ok c ↔
      ∃ p, load faultText path contents = .ok p ∧ p.check = .ok c := by
  unfold outcome
  cases load faultText path contents with
  | error f => simp [bind, Except.bind]
  | ok p =>
    cases hcheck : p.check with
    | error d => simp [bind, Except.bind, Except.mapError, hcheck]
    | ok c' => simp [bind, Except.bind, Except.mapError, hcheck]

theorem outcome_eq_error {f : Failure} : outcome faultText path contents = .error f ↔
    load faultText path contents = .error f ∨
      ∃ p d, load faultText path contents = .ok p ∧ p.check = .error d ∧ f = .type d := by
  unfold outcome
  cases load faultText path contents with
  | error f' => simp [bind, Except.bind]
  | ok p =>
    cases hcheck : p.check with
    | error d => simp [bind, Except.bind, Except.mapError, hcheck, eq_comm]
    | ok c => simp [bind, Except.bind, Except.mapError, hcheck]

theorem run_of_ok {c : Catalog} (h : outcome faultText path contents = .ok c) (json : Bool) :
    (run faultText path contents json).exitCode = 0 ∧
      (run faultText path contents json).stderr = "" ∧
      (run faultText path contents json).stdout = renderLayouts json c.layouts := by
  obtain ⟨p, hload, hcheck⟩ := outcome_eq_ok.1 h
  simp [run, hload, hcheck]

theorem run_of_error {f : Failure} (h : outcome faultText path contents = .error f) (json : Bool) :
    (run faultText path contents json).exitCode = 1 ∧
      (run faultText path contents json).stdout = "" ∧
      (run faultText path contents json).stderr = renderFailure json f := by
  rcases outcome_eq_error.1 h with hload | ⟨p, d, hload, hcheck, rfl⟩
  · simp [run, failed, hload]
  · simp [run, failed, hload, hcheck]

end

/-! ## Agreement -/

/-- The class, the code and the message of a failure's report. -/
def reportDecoder : Decoder (String × String × String) :=
  ((Record.field "class" Decoder.text).and <|
    (Record.field "code" Decoder.text).and <|
    Record.field "message" Decoder.text).decoder

theorem reads_report (f : Failure) (room : Nat) :
    reportDecoder (room + 1) f.encode.reading = .ok (f.className, f.code, f.message) := by
  rfl

/-- Two outputs show the same layouts, the one as text and the other as JSON. -/
structure PrintsLayouts (layouts : List Layout) (text json : Output) : Prop where
  stderr : text.stderr = "" ∧ json.stderr = ""
  lines : text.stdout.toList = layouts.flatMap fun l => l.render.toList ++ ['\n']
  document : (layoutsJson layouts).reading.Text json.stdout
  decoded : (Decoder.list Layout.decoder).runText nestingLimit json.stdout = .ok layouts

/-- Two outputs show the same failure, the one as text and the other as one line of JSON. -/
structure PrintsFailure (f : Failure) (text json : Output) : Prop where
  stdout : text.stdout = "" ∧ json.stdout = ""
  lines : text.stderr = f.render ++ "\n"
  report : ∃ line, json.stderr = line ++ "\n" ∧ '\n' ∉ line.toList ∧ f.encode.reading.Text line ∧
    reportDecoder.runText nestingLimit line = .ok (f.className, f.code, f.message)

theorem toList_concat : ∀ parts : List String,
    ("".intercalate parts).toList = parts.flatMap String.toList
  | [] => rfl
  | [part] => by simp
  | part :: part' :: parts => by
    have hrest := toList_concat (part' :: parts)
    rw [String.toList_intercalate] at hrest ⊢
    rw [List.map_cons, List.map_cons, List.intercalate_cons_cons, ← List.map_cons, hrest]
    simp

theorem printsLayouts {faultText : String → Fault → String} {path : String}
    {contents : Except ReadFault String} {c : Catalog}
    (h : outcome faultText path contents = .ok c) :
    PrintsLayouts c.layouts (run faultText path contents false)
      (run faultText path contents true) := by
  obtain ⟨-, htext, hlines⟩ := run_of_ok h false
  obtain ⟨-, hjson, hdocument⟩ := run_of_ok h true
  have hprinted :
      (layoutsJson c.layouts).reading.Text (run faultText path contents true).stdout := by
    rw [hdocument]
    exact text_pretty (numeric_layoutsJson c.layouts)
  refine ⟨⟨htext, hjson⟩, ?_, hprinted, ?_⟩
  · rw [hlines, renderLayouts, if_neg Bool.false_ne_true, toList_concat, List.flatMap_map]
    simp only [String.toList_append]
    rfl
  · rw [Decoder.runText_text _ _ hprinted]
    exact reads_layouts c.layouts nestingLimit (by decide)

theorem printsFailure {faultText : String → Fault → String} {path : String}
    {contents : Except ReadFault String} {f : Failure}
    (h : outcome faultText path contents = .error f) :
    PrintsFailure f (run faultText path contents false) (run faultText path contents true) := by
  obtain ⟨-, htext, hlines⟩ := run_of_error h false
  obtain ⟨-, hjson, hreport⟩ := run_of_error h true
  have hnumeric : f.encode.Numeric := by simp [Failure.encode, Numeric, NumericMembers]
  refine ⟨⟨htext, hjson⟩, hlines, f.encode.compact, hreport, newline_notMem_compact hnumeric,
    text_compact hnumeric, ?_⟩
  rw [Decoder.runText_text _ _ (text_compact hnumeric)]
  exact reads_report f 126

theorem load_eq_ok {faultText : String → Fault → String} {path : String}
    {contents : Except ReadFault String} {p : Program} :
    load faultText path contents = .ok p ↔ ∃ text, contents = .ok text ∧
      (Program.decoder .objectOrArray).runText nestingLimit text = .ok p := by
  cases contents with
  | error f => simp [load]
  | ok text =>
    simp only [load, Except.ok.injEq, exists_eq_left']
    cases hdecode : (Program.decoder .objectOrArray).runText nestingLimit text with
    | ok p' => simp
    | error f => cases f <;> simp

/-- **The two ways to print a run agree.** Both exit alike, with 0 exactly if the file holds a
program that passes the check, and both show the same layouts or the same failure. -/
theorem output_modes_agree (faultText : String → Fault → String) (path : String)
    (contents : Except ReadFault String) :
    let text := run faultText path contents false
    let json := run faultText path contents true
    json.exitCode = text.exitCode ∧
      (text.exitCode = 0 ↔ ∃ t p c, contents = .ok t ∧
        (Program.decoder .objectOrArray).runText nestingLimit t = .ok p ∧ p.check = .ok c) ∧
      match outcome faultText path contents with
      | .ok c => PrintsLayouts c.layouts text json
      | .error f => PrintsFailure f text json := by
  intro text json
  cases h : outcome faultText path contents with
  | ok c =>
    obtain ⟨p, hload, hcheck⟩ := outcome_eq_ok.1 h
    obtain ⟨t, hcontents, hdecode⟩ := load_eq_ok.1 hload
    have htext : text.exitCode = 0 := (run_of_ok h false).1
    have hjson : json.exitCode = 0 := (run_of_ok h true).1
    refine ⟨by rw [htext, hjson], ?_, printsLayouts h⟩
    exact ⟨fun _ => ⟨t, p, c, hcontents, hdecode, hcheck⟩, fun _ => htext⟩
  | error f =>
    have htext : text.exitCode = 1 := (run_of_error h false).1
    have hjson : json.exitCode = 1 := (run_of_error h true).1
    refine ⟨by rw [htext, hjson], ?_, printsFailure h⟩
    rw [htext]
    refine ⟨fun hexit => absurd hexit Nat.one_ne_zero, ?_⟩
    rintro ⟨t, p, c, hcontents, hdecode, hcheck⟩
    have hok : outcome faultText path contents = .ok c :=
      outcome_eq_ok.2 ⟨p, load_eq_ok.2 ⟨t, hcontents, hdecode⟩, hcheck⟩
    rw [h] at hok
    cases hok

end CommandLine

end ViewTyping
