import ViewTyping.Proofs.JsonGrammar
import ViewTyping.Proofs.JsonSpelling

/-!
# Printed documents

The texts of a document, `compact` and `pretty`, are written by the grammar of JSON for what a
reader sees of the document, whatever characters its strings hold. So they are read back as the
document, and decoding the text is decoding the document (`Decoder.runText_text`).

* `Numeral.written_render`, `written_quote`: numbers and strings.
* `written_compact`, `written_prettyAt`: documents, on one line and on several.
-/

set_option autoImplicit false

namespace ViewTyping.Json

/-! ## Numbers -/

namespace Numeral

/-- The digits of a number start with a zero only if there is no other digit. -/
theorem isWhole_toDigits (n : Nat) : IsWhole (Nat.toDigits 10 n) where
  ne_nil := Nat.toDigits_ne_nil
  isDigit _ hc := Nat.isDigit_of_mem_toDigits (by decide) (by decide) hc
  zero := by
    induction n using Nat.strongRecOn with
    | ind n ih =>
      intro ds h
      rw [Nat.toDigits_eq_if (by decide)] at h
      split at h
      · exact (List.cons.inj h).2.symm
      · rename_i hn
        obtain ⟨d, ds', heq⟩ : ∃ d ds', Nat.toDigits 10 (n / 10) = d :: ds' :=
          List.exists_cons_of_ne_nil Nat.toDigits_ne_nil
        rw [heq, List.cons_append] at h
        obtain rfl : d = '0' := (List.cons.inj h).1
        obtain rfl := ih (n / 10) (by omega) ds' heq
        have hzero : n / 10 = 0 := by
          rw [← Nat.ofDigitChars_ten_toDigits (n := n / 10), heq]
          rfl
        omega

theorem ofDigits_toDigits (n : Nat) : ofDigits (Nat.toDigits 10 n) = n :=
  Nat.ofDigitChars_ten_toDigits

theorem toList_toString (n : Nat) : (toString n).toList = Nat.toDigits 10 n := by
  rw [Nat.toString_eq_ofList_toDigits, String.toList_ofList]

theorem powerText_toString : ∀ power : Int,
    PowerText (some power) ('e' :: (toString power).toList)
  | .ofNat m => by
    have hdigits := isWhole_toDigits m
    have h : PowerText _ ('e' :: _) := .some (.inl rfl) .none hdigits.ne_nil hdigits.isDigit
    rw [if_neg Bool.false_ne_true, ofDigits_toDigits, List.nil_append, ← toList_toString] at h
    exact h
  | .negSucc m => by
    have hdigits := isWhole_toDigits (m + 1)
    have h : PowerText _ ('e' :: _) := .some (.inl rfl) .minus hdigits.ne_nil hdigits.isDigit
    rw [if_pos rfl, ofDigits_toDigits, ← toList_toString] at h
    have htext : (toString (Int.negSucc m)).toList = ['-'] ++ (toString (m + 1)).toList := by
      show ("-" ++ toString (m + 1)).toList = _
      rw [String.toList_append]
      rfl
    rw [htext]
    exact h

/-- **A number is printed as numbers are written.** -/
theorem written_render {n : Numeral} (h : ∀ c ∈ n.fraction, c.isDigit = true) :
    n.Written n.render.toList := by
  have hfraction : FractionText n.fraction
      (if n.fraction.isEmpty then "" else "." ++ String.ofList n.fraction).toList := by
    cases hd : n.fraction with
    | nil => exact .none
    | cons d ds =>
      have hne : n.fraction ≠ [] := by simp [hd]
      rw [← hd, if_neg (by simpa using hne), String.toList_append, String.toList_ofList,
        String.toList_ofList]
      exact .some hne h
  obtain ⟨power, hpower, hrender⟩ : ∃ power : String, PowerText n.exponent power.toList ∧
      n.render = (if n.negative then "-" else "") ++ toString n.whole ++
        (if n.fraction.isEmpty then "" else "." ++ String.ofList n.fraction) ++ power := by
    refine ⟨_, ?_, rfl⟩
    cases n.exponent with
    | none => exact .none
    | some power =>
      rw [String.toList_append]
      exact powerText_toString power
  have hunsigned : n.Unsigned _ :=
    ⟨_, _, _, isWhole_toDigits n.whole, ofDigits_toDigits n.whole, hfraction, hpower, rfl⟩
  refine ⟨_, hunsigned, ?_⟩
  rw [hrender]
  simp only [String.toList_append, toList_toString, List.append_assoc]
  cases n.negative <;> rfl

end Numeral

/-! ## Strings -/

/-- Each character of a string is written as one piece. -/
theorem stringText_escapeChar (c : Char) : ∃ p, (∀ {ps : List Piece} {cs : List Char},
    StringText ps cs → StringText (p :: ps) (escapeChar c ++ cs)) ∧
    ∀ ps, assemble (p :: ps) = (assemble ps).map (c :: ·) := by
  unfold escapeChar
  split
  case h_8 hquote hslash _ _ _ _ _ =>
    split
    · rename_i hcontrol
      have hunit : ∀ n < 0x20,
          unitOfHex? '0' '0' (Nat.digitChar (n / 16)) (Nat.digitChar (n % 16)) = some n := by decide
      refine ⟨.unit c.toNat, .unit (hunit _ hcontrol), fun ps => ?_⟩
      have hhigh : isHighSurrogate c.toNat = false := by
        simp only [isHighSurrogate, Bool.and_eq_false_iff, decide_eq_false_iff_not]
        omega
      have hlow : isLowSurrogate c.toNat = false := by
        simp only [isLowSurrogate, Bool.and_eq_false_iff, decide_eq_false_iff_not]
        omega
      rw [assemble.eq_def]
      simp [hhigh, hlow, Char.ofNat_toNat]
    · exact ⟨.char c, .char hquote hslash (by omega), fun ps => rfl⟩
  all_goals exact ⟨.char _, .escape rfl, fun ps => rfl⟩

theorem stringText_escaped : ∀ cs : List Char, ∃ ps, StringText ps (cs.flatMap escapeChar) ∧
    assemble ps = some cs
  | [] => ⟨[], .nil, rfl⟩
  | c :: cs => by
    obtain ⟨ps, htext, hps⟩ := stringText_escaped cs
    obtain ⟨p, hp, hchar⟩ := stringText_escapeChar c
    exact ⟨p :: ps, hp htext, by rw [hchar, hps]; rfl⟩

/-- **A quoted string is read as the string**, whatever characters it is made of. -/
theorem written_quote (s : String) : StringWritten (some s) (quote s).toList := by
  obtain ⟨ps, htext, hps⟩ := stringText_escaped s.toList
  refine ⟨ps, _, htext, ?_, ?_⟩
  · rw [hps, Option.map_some, String.ofList_toList]
  · simp [quote]

/-! ## Arrays and objects -/

namespace Reading

/-- Values with commas between them, each behind the same gap. -/
theorem writtenItems_intercalate {gap gap' : List Char} (hgap : Blank gap) (hgap' : Blank gap') :
    ∀ {rs : List Reading} {texts : List (List Char)}, List.Forall₂ Written rs texts → rs ≠ [] →
      WrittenItems rs (gap ++ ((',' :: gap).intercalate texts ++ gap'))
  | _, _, .nil, hne => absurd rfl hne
  | [r], [text], .cons hr .nil, _ => by
    rw [WrittenItems, List.intercalate_singleton]
    exact ⟨_, [], ⟨gap, text, gap', hgap, hr, hgap', rfl⟩, by simp, .inl ⟨rfl, rfl⟩⟩
  | _ :: r :: rs, _ :: text :: texts, .cons hr hrs, _ => by
    have hrest := writtenItems_intercalate hgap hgap' hrs (List.cons_ne_nil _ _)
    rw [WrittenItems, List.intercalate_cons_cons]
    exact ⟨_, _, ⟨gap, _, [], hgap, hr, blank_nil, rfl⟩, by simp, .inr ⟨_, hrest, rfl⟩⟩

/-- The text of a member whose value may stand behind a gap. -/
def MemberWritten (m : Option String × Reading) (text : List Char) : Prop :=
  ∃ label gap value, StringWritten m.1 label ∧ Blank gap ∧ m.2.Written value ∧
    text = label ++ ':' :: (gap ++ value)

theorem writtenMembers_intercalate {gap gap' : List Char} (hgap : Blank gap) (hgap' : Blank gap') :
    ∀ {ms : List (Option String × Reading)} {texts : List (List Char)},
      List.Forall₂ MemberWritten ms texts → ms ≠ [] →
      WrittenMembers ms (gap ++ ((',' :: gap).intercalate texts ++ gap'))
  | _, _, .nil, hne => absurd rfl hne
  | (name, r) :: [], [_], .cons ⟨label, gap₁, value, hlabel, hgap₁, hvalue, rfl⟩ .nil, _ => by
    rw [WrittenMembers, List.intercalate_singleton]
    exact ⟨_, _, [], ⟨gap, label, [], hgap, hlabel, blank_nil, rfl⟩,
      ⟨gap₁, value, gap', hgap₁, hvalue, hgap', rfl⟩, by simp, .inl ⟨rfl, rfl⟩⟩
  | (name, r) :: m :: ms, _ :: text :: texts,
      .cons ⟨label, gap₁, value, hlabel, hgap₁, hvalue, rfl⟩ hms, _ => by
    have hrest := writtenMembers_intercalate hgap hgap' hms (List.cons_ne_nil _ _)
    rw [WrittenMembers, List.intercalate_cons_cons]
    exact ⟨_, _, _, ⟨gap, label, [], hgap, hlabel, blank_nil, rfl⟩,
      ⟨gap₁, value, [], hgap₁, hvalue, blank_nil, rfl⟩, by simp, .inr ⟨_, hrest, rfl⟩⟩

/-- An array is written as its items between brackets, the gaps being blank. -/
theorem written_arr {rs : List Reading} {texts : List (List Char)} {gap gap' : List Char}
    (h : List.Forall₂ Written rs texts) (hgap : Blank gap) (hgap' : Blank gap') :
    (arr rs .closed).Written
      ('[' :: (gap ++ ((',' :: gap).intercalate texts ++ gap') ++ [']'])) := by
  rw [Written]
  refine ⟨_, ?_, rfl⟩
  cases h with
  | nil => exact .inl ⟨rfl, hgap.append hgap'⟩
  | cons hr hrs =>
    exact .inr (writtenItems_intercalate hgap hgap' (.cons hr hrs) (List.cons_ne_nil _ _))

theorem written_obj {ms : List (Option String × Reading)} {texts : List (List Char)}
    {gap gap' : List Char} (h : List.Forall₂ MemberWritten ms texts) (hgap : Blank gap)
    (hgap' : Blank gap') : (obj ms .closed).Written
      ('\x7b' :: (gap ++ ((',' :: gap).intercalate texts ++ gap') ++ ['\x7d'])) := by
  rw [Written]
  refine ⟨_, ?_, rfl⟩
  cases h with
  | nil => exact .inl ⟨rfl, hgap.append hgap'⟩
  | cons hm hms =>
    exact .inr (writtenMembers_intercalate hgap hgap' (.cons hm hms) (List.cons_ne_nil _ _))

end Reading

/-! ## Documents -/

mutual

/-- The numbers of a document are numbers: their fractions are made of digits. -/
def Numeric : Json → Prop
  | .null | .bool _ | .str _ => True
  | .num n => ∀ c ∈ n.fraction, c.isDigit = true
  | .arr items => NumericItems items
  | .obj members => NumericMembers members

def NumericItems : List Json → Prop
  | [] => True
  | j :: js => j.Numeric ∧ NumericItems js

def NumericMembers : List (String × Json) → Prop
  | [] => True
  | (_, j) :: ms => j.Numeric ∧ NumericMembers ms

end

mutual

/-- **The text of a document on one line is JSON, and read as the document.** -/
theorem written_compact : ∀ {j : Json}, j.Numeric → j.reading.Written j.compact.toList
  | .null, _ | .bool true, _ | .bool false, _ => by
    rw [reading, Reading.Written]
    rfl
  | .num n, h => by
    rw [reading, Reading.Written]
    rw [Numeric] at h
    exact Numeral.written_render h
  | .str s, _ => by
    rw [reading, Reading.Written]
    exact written_quote s
  | .arr items, h => by
    rw [Numeric] at h
    have hitems := Reading.written_arr (written_compactItems h) blank_nil blank_nil
    rw [compact, reading]
    simpa [String.toList_intercalate] using hitems
  | .obj members, h => by
    rw [Numeric] at h
    have hmembers := Reading.written_obj (written_compactMembers h) blank_nil blank_nil
    rw [compact, reading]
    simpa [String.toList_intercalate] using hmembers

theorem written_compactItems : ∀ {items : List Json}, NumericItems items →
    List.Forall₂ Reading.Written (itemReadings items) ((compactItems items).map String.toList)
  | [], _ => .nil
  | j :: js, h => by
    rw [NumericItems] at h
    exact .cons (written_compact h.1) (written_compactItems h.2)

theorem written_compactMembers : ∀ {members : List (String × Json)}, NumericMembers members →
    List.Forall₂ Reading.MemberWritten (memberReadings members)
      ((compactMembers members).map String.toList)
  | [], _ => .nil
  | (name, j) :: ms, h => by
    rw [NumericMembers] at h
    refine .cons ⟨_, [], _, written_quote name, blank_nil, written_compact h.1, ?_⟩
      (written_compactMembers h.2)
    simp

end

/-! ### On several lines -/

theorem blank_newLine (level : Nat) : Blank (newLine level).toList := by
  intro c hc
  rw [newLine, String.toList_append, String.toList_ofList, String.toList_ofList,
    List.mem_append] at hc
  rcases hc with hc | hc
  · rw [List.mem_singleton.1 hc]
    rfl
  · rw [(List.mem_replicate.1 hc).2]
    rfl

theorem toList_block (opening closing : String) (level : Nat) (parts : List String) :
    ∃ gap gap', Blank gap ∧ Blank gap' ∧ (block opening closing level parts).toList =
      opening.toList ++ (gap ++ ((',' :: gap).intercalate (parts.map String.toList) ++ gap') ++
        closing.toList) := by
  cases parts with
  | nil => exact ⟨[], [], blank_nil, blank_nil, by simp [block]⟩
  | cons part parts =>
    refine ⟨(newLine (level + 1)).toList, (newLine level).toList, blank_newLine _,
      blank_newLine _, ?_⟩
    simp [block, String.toList_intercalate]

mutual

/-- **The text of a document on several lines is JSON, and read as the document.** -/
theorem written_prettyAt : ∀ {j : Json} (level : Nat), j.Numeric →
    j.reading.Written (j.prettyAt level).toList
  | .null, _, _ | .bool true, _, _ | .bool false, _, _ => by
    rw [reading, Reading.Written, prettyAt]
    rfl
  | .num n, _, h => by
    rw [reading, Reading.Written, prettyAt]
    rw [Numeric] at h
    exact Numeral.written_render h
  | .str s, _, _ => by
    rw [reading, Reading.Written, prettyAt]
    exact written_quote s
  | .arr items, level, h => by
    rw [Numeric] at h
    obtain ⟨gap, gap', hgap, hgap', htext⟩ :=
      toList_block "[" "]" level (prettyItems (level + 1) items)
    rw [prettyAt, htext]
    exact Reading.written_arr (written_prettyItems (level + 1) h) hgap hgap'
  | .obj members, level, h => by
    rw [Numeric] at h
    obtain ⟨gap, gap', hgap, hgap', htext⟩ :=
      toList_block "\x7b" "\x7d" level (prettyMembers (level + 1) members)
    rw [prettyAt, htext]
    exact Reading.written_obj (written_prettyMembers (level + 1) h) hgap hgap'

theorem written_prettyItems : ∀ {items : List Json} (level : Nat), NumericItems items →
    List.Forall₂ Reading.Written (itemReadings items)
      ((prettyItems level items).map String.toList)
  | [], _, _ => .nil
  | j :: js, level, h => by
    rw [NumericItems] at h
    exact .cons (written_prettyAt level h.1) (written_prettyItems level h.2)

theorem written_prettyMembers : ∀ {members : List (String × Json)} (level : Nat),
    NumericMembers members → List.Forall₂ Reading.MemberWritten (memberReadings members)
      ((prettyMembers level members).map String.toList)
  | [], _, _ => .nil
  | (name, j) :: ms, level, h => by
    rw [NumericMembers] at h
    refine .cons ⟨_, [' '], _, written_quote name, blank_space, written_prettyAt level h.1, ?_⟩
      (written_prettyMembers level h.2)
    simp

end

/-! ### On one line -/

theorem newline_notMem_intercalate {gap : List Char} (hgap : '\n' ∉ gap) :
    ∀ {texts : List (List Char)}, (∀ text ∈ texts, '\n' ∉ text) → '\n' ∉ gap.intercalate texts
  | [], _ => by simp [List.intercalate]
  | [text], h => by
    rw [List.intercalate_singleton]
    exact h text (.head _)
  | text :: text' :: texts, h => by
    have hrest := newline_notMem_intercalate hgap fun t ht => h t (.tail _ ht)
    rw [List.intercalate_cons_cons, List.mem_append, List.mem_append, not_or, not_or]
    exact ⟨⟨h text (.head _), hgap⟩, hrest⟩

theorem newline_notMem_escapeChar (c : Char) : '\n' ∉ escapeChar c := by
  unfold escapeChar
  split
  case h_8 _ _ _ _ hnewline _ _ =>
    split
    · rename_i hcontrol
      have hpair : ∀ n < 0x20, '\n' ∉ hexPair n := by decide
      simpa using hpair _ hcontrol
    · intro h
      exact hnewline (List.mem_singleton.1 h).symm
  all_goals decide

theorem newline_notMem_quote (s : String) : '\n' ∉ (quote s).toList := by
  simp [quote, newline_notMem_escapeChar]

theorem newline_notMem_digits {digits : List Char} (h : ∀ c ∈ digits, c.isDigit = true) :
    '\n' ∉ digits := by
  intro hmem
  cases h _ hmem

theorem newline_notMem_fraction {digits cs : List Char} (h : Numeral.FractionText digits cs) :
    '\n' ∉ cs := by
  cases h with
  | none => simp
  | some _ h => simp [newline_notMem_digits h]

theorem newline_notMem_power {power : Option Int} {cs : List Char}
    (h : Numeral.PowerText power cs) : '\n' ∉ cs := by
  cases h with
  | none => simp
  | some hmark hsign _ h =>
    rcases hmark with rfl | rfl <;> cases hsign <;> simp [newline_notMem_digits h]

theorem newline_notMem_number {n : Numeral} {cs : List Char} (h : n.Written cs) : '\n' ∉ cs := by
  obtain ⟨_, ⟨whole, fraction, power, hwhole, -, hfraction, hpower, rfl⟩, rfl⟩ := h
  cases n.negative <;> simp [newline_notMem_digits hwhole.isDigit,
    newline_notMem_fraction hfraction, newline_notMem_power hpower]

mutual

/-- **The text on one line holds no line break.** -/
theorem newline_notMem_compact : ∀ {j : Json}, j.Numeric → '\n' ∉ j.compact.toList
  | .null, _ | .bool true, _ | .bool false, _ => by decide
  | .num n, h => by
    rw [Numeric] at h
    exact newline_notMem_number (Numeral.written_render h)
  | .str s, _ => newline_notMem_quote s
  | .arr items, h => by
    rw [Numeric] at h
    have hitems := newline_notMem_intercalate (by decide : '\n' ∉ [',']) (newline_notMem_items h)
    simp only [compact, String.toList_append, String.toList_intercalate]
    simpa using hitems
  | .obj members, h => by
    rw [Numeric] at h
    have hmembers :=
      newline_notMem_intercalate (by decide : '\n' ∉ [',']) (newline_notMem_members h)
    simp only [compact, String.toList_append, String.toList_intercalate]
    simpa using hmembers

theorem newline_notMem_items : ∀ {items : List Json}, NumericItems items →
    ∀ text ∈ (compactItems items).map String.toList, '\n' ∉ text
  | [], _ => by simp [compactItems]
  | j :: js, h => by
    rw [NumericItems] at h
    exact List.forall_mem_cons.2 ⟨newline_notMem_compact h.1, newline_notMem_items h.2⟩

theorem newline_notMem_members : ∀ {members : List (String × Json)}, NumericMembers members →
    ∀ text ∈ (compactMembers members).map String.toList, '\n' ∉ text
  | [], _ => by simp [compactMembers]
  | (name, j) :: ms, h => by
    rw [NumericMembers] at h
    have hmember : '\n' ∉ (quote name ++ ":" ++ j.compact).toList := by
      simp [newline_notMem_quote, newline_notMem_compact h.1]
    exact List.forall_mem_cons.2 ⟨hmember, newline_notMem_members h.2⟩

end

/-! ## Decoding what is printed -/

/-- **Decoding a text is decoding what it was written for.** -/
theorem Decoder.runText_text {α : Type} (d : Decoder α) (room : Nat) {r : Reading} {text : String}
    (h : r.Text text) : d.runText room text = d room r := by
  obtain ⟨rest, hrest, heq⟩ := Reading.ofText_text h
  rw [Decoder.runText, heq]
  simp only [blank_iff_all.1 hrest, if_true]
  cases d room r <;> rfl

theorem text_compact {j : Json} (h : j.Numeric) : j.reading.Text j.compact :=
  ⟨[], _, [], blank_nil, written_compact h, blank_nil, by simp⟩

/-- A line break may end the text on several lines. -/
theorem text_pretty {j : Json} (h : j.Numeric) : j.reading.Text (j.pretty ++ "\n") :=
  ⟨[], _, ['\n'], blank_nil, written_prettyAt 0 h, List.forall_mem_singleton.2 rfl,
    by simp [pretty]⟩

end ViewTyping.Json
