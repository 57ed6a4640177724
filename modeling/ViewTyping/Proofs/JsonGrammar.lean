import Mathlib.Data.List.Basic
import ViewTyping.Json.Reading

/-!
# The grammar of JSON

The texts that are JSON, rule by rule: numbers (`Numeral.Written`), strings (`StringText`) and
values (`Reading.Written`), with blanks wherever they are allowed. A text is written for one reading
only, and it is the reading that is made of it.

* `Numeral.read_written`, `Numeral.written_of_read`: numbers.
* `readPieces_written`, `written_of_readPieces`: strings.
* `Reading.readValue_written`: what is written for a reading is read as that reading.
* `Reading.written_of_readValue`: what is read was written, or nothing is left to read.
* `isJson_iff`: a text is JSON exactly if it is read to its end.
-/

set_option autoImplicit false

namespace ViewTyping.Json

/-! ## Blanks -/

def Blank (cs : List Char) : Prop := ∀ c ∈ cs, isSpace c = true

theorem blank_nil : Blank [] := fun _ h => by cases h

theorem blank_space : Blank [' '] := List.forall_mem_singleton.2 rfl

theorem Blank.append {gap gap' : List Char} (h : Blank gap) (h' : Blank gap') :
    Blank (gap ++ gap') := by
  intro c hc
  rcases List.mem_append.1 hc with hc | hc
  · exact h c hc
  · exact h' c hc

theorem blank_iff_all {cs : List Char} : Blank cs ↔ cs.all isSpace = true := List.all_eq_true.symm

theorem skipSpace_append {gap cs : List Char} (h : Blank gap) :
    skipSpace (gap ++ cs) = skipSpace cs :=
  List.dropWhile_append_of_pos h

theorem skipSpace_cons {c : Char} {cs : List Char} (h : isSpace c = false) :
    skipSpace (c :: cs) = c :: cs := by
  simp [skipSpace, h]

@[simp] theorem skipSpace_skipSpace (cs : List Char) : skipSpace (skipSpace cs) = skipSpace cs := by
  induction cs with
  | nil => rfl
  | cons c cs ih =>
    cases hc : isSpace c with
    | true => simpa [skipSpace, hc] using ih
    | false => rw [skipSpace_cons hc, skipSpace_cons hc]

theorem exists_skipSpace (cs : List Char) : ∃ gap, Blank gap ∧ cs = gap ++ skipSpace cs :=
  ⟨cs.takeWhile isSpace, List.all_eq_true.1 List.all_takeWhile,
    List.takeWhile_append_dropWhile.symm⟩

/-! ## Numbers -/

namespace Numeral

/-- One zero, or digits that do not start with a zero. -/
structure IsWhole (digits : List Char) : Prop where
  ne_nil : digits ≠ []
  isDigit : ∀ c ∈ digits, c.isDigit = true
  zero : ∀ ds, digits = '0' :: ds → ds = []

/-- The text of a fraction: none, or a point and digits. -/
inductive FractionText : List Char → List Char → Prop
  | none : FractionText [] []
  | some {digits : List Char} (hne : digits ≠ []) (h : ∀ c ∈ digits, c.isDigit = true) :
      FractionText digits ('.' :: digits)

/-- The sign of an exponent, which may be left out if it is not negative. -/
inductive SignText : Bool → List Char → Prop
  | none : SignText false []
  | plus : SignText false ['+']
  | minus : SignText true ['-']

/-- The text of an exponent: none, or a mark, a sign and digits. -/
inductive PowerText : Option Int → List Char → Prop
  | none : PowerText none []
  | some {mark : Char} {negative : Bool} {sign digits : List Char}
      (hmark : mark = 'e' ∨ mark = 'E') (hsign : SignText negative sign) (hne : digits ≠ [])
      (h : ∀ c ∈ digits, c.isDigit = true) :
      PowerText (some (if negative then -(ofDigits digits : Int) else ofDigits digits))
        (mark :: (sign ++ digits))

/-- The text of a number without its sign. -/
def Unsigned (n : Numeral) (cs : List Char) : Prop :=
  ∃ whole fraction power, IsWhole whole ∧ ofDigits whole = n.whole ∧
    FractionText n.fraction fraction ∧ PowerText n.exponent power ∧
    cs = whole ++ (fraction ++ power)

/-- The text of a number. -/
def Written (n : Numeral) (cs : List Char) : Prop :=
  ∃ digits, n.Unsigned digits ∧ cs = if n.negative then '-' :: digits else digits

/-- What follows is nothing that could belong to a number. -/
def Stops (rest : List Char) : Prop :=
  ∀ c, rest.head? = some c → c.isDigit = false ∧ c ≠ '.' ∧ c ≠ 'e' ∧ c ≠ 'E'

theorem stops_nil : Stops [] := fun _ h => by cases h

theorem stops_cons {c : Char} {cs : List Char} (hd : c.isDigit = false) (hp : c ≠ '.')
    (he : c ≠ 'e') (hE : c ≠ 'E') : Stops (c :: cs) := by
  intro c' h
  cases h
  exact ⟨hd, hp, he, hE⟩

theorem stops_blank_append {gap rest : List Char} (hgap : Blank gap) (hrest : Stops rest) :
    Stops (gap ++ rest) := by
  cases gap with
  | nil => exact hrest
  | cons c gap =>
    have hc := hgap c (.head _)
    simp only [isSpace, Bool.or_eq_true, beq_iff_eq] at hc
    rcases hc with ((rfl | rfl) | rfl) | rfl <;>
      exact stops_cons (by decide) (by decide) (by decide) (by decide)

/-- Behind a number and blanks comes a comma or a bracket. -/
theorem stops_separator {c : Char} {gap rest : List Char} (hgap : Blank gap)
    (hc : c ∈ [',', ']', '\x7d']) : Stops (gap ++ c :: rest) := by
  refine stops_blank_append hgap ?_
  simp only [List.mem_cons, List.not_mem_nil, or_false] at hc
  rcases hc with rfl | rfl | rfl <;>
    exact stops_cons (by decide) (by decide) (by decide) (by decide)

/-! ### Reading -/

theorem digitRun_append {digits rest : List Char} (h : ∀ c ∈ digits, c.isDigit = true)
    (hrest : ∀ c, rest.head? = some c → c.isDigit = false) :
    digitRun (digits ++ rest) = (digits, rest) := by
  have hstop : rest.takeWhile Char.isDigit = [] ∧ rest.dropWhile Char.isDigit = rest := by
    cases rest with
    | nil => exact ⟨rfl, rfl⟩
    | cons c cs => simp [hrest c rfl]
  rw [digitRun, List.takeWhile_append_of_pos h, List.dropWhile_append_of_pos h, hstop.1, hstop.2,
    List.append_nil]

theorem of_digitRun {cs digits rest : List Char} (h : digitRun cs = (digits, rest)) :
    cs = digits ++ rest ∧ ∀ c ∈ digits, c.isDigit = true := by
  obtain ⟨rfl, rfl⟩ := Prod.mk.inj h
  exact ⟨List.takeWhile_append_dropWhile.symm, List.all_eq_true.1 List.all_takeWhile⟩

theorem readWhole_append {whole rest : List Char} (h : IsWhole whole)
    (hrest : ∀ c, rest.head? = some c → c.isDigit = false) :
    readWhole (whole ++ rest) = some (whole, rest) := by
  unfold readWhole
  rw [digitRun_append h.isDigit hrest]
  split
  · rename_i heq
    exact absurd (Prod.mk.inj heq).1 h.ne_nil
  · rename_i c cs _ heq
    have := h.zero _ (Prod.mk.inj heq).1
    cases this
  · rename_i heq
    obtain ⟨rfl, rfl⟩ := Prod.mk.inj heq
    rfl

theorem of_readWhole {cs whole rest : List Char} (h : readWhole cs = some (whole, rest)) :
    cs = whole ++ rest ∧ IsWhole whole := by
  unfold readWhole at h
  split at h
  · cases h
  · cases h
  · rename_i digits rest' hne hzero heq
    cases h
    obtain ⟨rfl, hdigits⟩ := of_digitRun heq
    refine ⟨rfl, hne, hdigits, fun ds hds => ?_⟩
    cases ds with
    | nil => rfl
    | cons d ds => exact (hzero d ds hds).elim

theorem digits_head {digits rest : List Char} (hne : digits ≠ [])
    (h : ∀ c ∈ digits, c.isDigit = true) :
    ∃ d ds, digits ++ rest = d :: ds ∧ d.isDigit = true := by
  cases digits with
  | nil => exact absurd rfl hne
  | cons d ds => exact ⟨d, ds ++ rest, rfl, h d (.head _)⟩

theorem readFraction_append {fraction cs rest : List Char} (h : FractionText fraction cs)
    (hdigit : ∀ c, rest.head? = some c → c.isDigit = false)
    (hpoint : ∀ c, rest.head? = some c → c ≠ '.') :
    readFraction (cs ++ rest) = some (fraction, rest) := by
  cases h with
  | none =>
    unfold readFraction
    split
    · rename_i heq
      exact absurd rfl (hpoint '.' (by simp only [List.nil_append] at heq; rw [heq]; rfl))
    · rfl
  | some hne h =>
    simp only [List.cons_append, readFraction, digitRun_append h hdigit]

theorem of_readFraction {cs fraction rest : List Char}
    (h : readFraction cs = some (fraction, rest)) :
    ∃ text, cs = text ++ rest ∧ FractionText fraction text := by
  unfold readFraction at h
  split at h
  · split at h
    · cases h
    · rename_i hne heq
      cases h
      obtain ⟨rfl, hdigits⟩ := of_digitRun heq
      exact ⟨_, rfl, .some hne hdigits⟩
  · cases h
    exact ⟨[], rfl, .none⟩

theorem readPower_append {digits rest : List Char} (negative : Bool) (hne : digits ≠ [])
    (h : ∀ c ∈ digits, c.isDigit = true)
    (hrest : ∀ c, rest.head? = some c → c.isDigit = false) : readPower negative (digits ++ rest) =
      some (some (if negative then -(ofDigits digits : Int) else ofDigits digits), rest) := by
  simp only [readPower, digitRun_append h hrest]

theorem of_readPower {negative : Bool} {cs rest : List Char} {power : Option Int}
    (h : readPower negative cs = some (power, rest)) : ∃ digits, cs = digits ++ rest ∧
      digits ≠ [] ∧ (∀ c ∈ digits, c.isDigit = true) ∧
      power = some (if negative then -(ofDigits digits : Int) else ofDigits digits) := by
  unfold readPower at h
  split at h
  · cases h
  · rename_i hne heq
    cases h
    obtain ⟨rfl, hdigits⟩ := of_digitRun heq
    exact ⟨_, rfl, hne, hdigits, rfl⟩

/-- Behind the mark of an exponent comes a sign or a digit. -/
theorem readExponent_mark {mark : Char} {negative : Bool} {sign digits rest : List Char}
    (hmark : mark = 'e' ∨ mark = 'E') (hsign : SignText negative sign) (hne : digits ≠ [])
    (h : ∀ c ∈ digits, c.isDigit = true) :
    readExponent (mark :: (sign ++ digits ++ rest)) = readPower negative (digits ++ rest) := by
  cases hsign with
  | plus => rcases hmark with rfl | rfl <;> simp [readExponent]
  | minus => rcases hmark with rfl | rfl <;> simp [readExponent]
  | none =>
    obtain ⟨d, ds, heq, hd⟩ : ∃ d ds, _ ++ rest = d :: ds ∧ d.isDigit = true := digits_head hne h
    have hminus : d ≠ '-' := by rintro rfl; cases hd
    have hplus : d ≠ '+' := by rintro rfl; cases hd
    rw [List.nil_append, heq]
    rcases hmark with rfl | rfl <;> simp [readExponent, hminus, hplus]

theorem readExponent_append {power : Option Int} {cs rest : List Char} (h : PowerText power cs)
    (hrest : Stops rest) : readExponent (cs ++ rest) = some (power, rest) := by
  cases h with
  | none =>
    cases rest with
    | nil => rfl
    | cons c rest =>
      obtain ⟨-, -, he, hE⟩ := hrest c rfl
      simp [readExponent, he, hE]
  | some hmark hsign hne h =>
    rw [List.cons_append, readExponent_mark hmark hsign hne h]
    exact readPower_append _ hne h fun c hc => (hrest c hc).1

theorem of_readExponent {cs rest : List Char} {power : Option Int}
    (h : readExponent cs = some (power, rest)) :
    ∃ text, cs = text ++ rest ∧ PowerText power text := by
  have hsome {negative : Bool} {mark : Char} {sign tail : List Char}
      (hmark : mark = 'e' ∨ mark = 'E') (hsign : SignText negative sign)
      (h : readPower negative tail = some (power, rest)) :
      ∃ text, mark :: (sign ++ tail) = text ++ rest ∧ PowerText power text := by
    obtain ⟨digits, rfl, hne, hdigits, rfl⟩ := of_readPower h
    exact ⟨mark :: (sign ++ digits), by simp, .some hmark hsign hne hdigits⟩
  unfold readExponent at h
  split at h
  · exact hsome (.inl rfl) .minus h
  · exact hsome (.inr rfl) .minus h
  · exact hsome (.inl rfl) .plus h
  · exact hsome (.inr rfl) .plus h
  · exact hsome (.inl rfl) .none h
  · exact hsome (.inr rfl) .none h
  · cases h
    exact ⟨[], rfl, .none⟩

/-- What follows the whole part of a number is no digit, and what follows its fraction no point. -/
theorem head_of_power {power : Option Int} {cs rest : List Char} (h : PowerText power cs)
    (hrest : Stops rest) (c : Char) (hc : (cs ++ rest).head? = some c) :
    c.isDigit = false ∧ c ≠ '.' := by
  cases h with
  | none =>
    obtain ⟨hd, hp, -, -⟩ := hrest c hc
    exact ⟨hd, hp⟩
  | some hmark hsign hne h =>
    cases hc
    rcases hmark with rfl | rfl <;> exact ⟨by decide, by decide⟩

theorem head_of_fraction {fraction : List Char} {power : Option Int} {cs cs' rest : List Char}
    (h : FractionText fraction cs) (hpower : PowerText power cs') (hrest : Stops rest) (c : Char)
    (hc : (cs ++ (cs' ++ rest)).head? = some c) : c.isDigit = false := by
  cases h with
  | none => exact (head_of_power hpower hrest c hc).1
  | some hne h =>
    cases hc
    decide

theorem readUnsigned_written {n : Numeral} {cs rest : List Char} (h : n.Unsigned cs)
    (hrest : Stops rest) : readUnsigned n.negative (cs ++ rest) = some (n, rest) := by
  obtain ⟨negative, k, fraction, exponent⟩ := n
  obtain ⟨whole, cs₁, cs₂, hwhole, rfl, hfraction, hpower, rfl⟩ := h
  have h₁ := readWhole_append hwhole (head_of_fraction hfraction hpower hrest)
  have h₂ := readFraction_append hfraction (fun c hc => (head_of_power hpower hrest c hc).1)
    fun c hc => (head_of_power hpower hrest c hc).2
  have h₃ := readExponent_append hpower hrest
  simp only [List.append_assoc, readUnsigned, h₁, h₂, h₃, Option.bind_eq_bind, Option.bind_some]
  rfl

theorem unsigned_of_readUnsigned {negative : Bool} {n : Numeral} {cs rest : List Char}
    (h : readUnsigned negative cs = some (n, rest)) :
    n.negative = negative ∧ ∃ text, n.Unsigned text ∧ cs = text ++ rest := by
  simp only [readUnsigned, Option.bind_eq_bind, Option.bind_eq_some_iff, Prod.exists] at h
  obtain ⟨whole, cs₁, h₁, fraction, cs₂, h₂, power, cs₃, h₃, hn⟩ := h
  cases hn
  obtain ⟨rfl, hwhole⟩ := of_readWhole h₁
  obtain ⟨text₂, rfl, hfraction⟩ := of_readFraction h₂
  obtain ⟨text₃, rfl, hpower⟩ := of_readExponent h₃
  exact ⟨rfl, _, ⟨whole, text₂, text₃, hwhole, rfl, hfraction, hpower, rfl⟩, by simp⟩

theorem unsigned_head {n : Numeral} {cs : List Char} (h : n.Unsigned cs) :
    ∃ d ds, cs = d :: ds ∧ d.isDigit = true := by
  obtain ⟨whole, cs₁, cs₂, hwhole, -, -, -, rfl⟩ := h
  exact digits_head hwhole.ne_nil hwhole.isDigit

/-- A number starts with a sign or a digit. -/
theorem written_head {n : Numeral} {cs : List Char} (h : n.Written cs) :
    ∃ c tail, cs = c :: tail ∧ (c = '-' ∨ c.isDigit = true) := by
  obtain ⟨digits, hdigits, rfl⟩ := h
  cases n.negative with
  | true => exact ⟨'-', digits, rfl, .inl rfl⟩
  | false =>
    obtain ⟨d, ds, rfl, hd⟩ := unsigned_head hdigits
    exact ⟨d, ds, rfl, .inr hd⟩

/-- **A number is read as it is written.** -/
theorem read_written {n : Numeral} {cs rest : List Char} (h : n.Written cs) (hrest : Stops rest) :
    read (cs ++ rest) = some (n, rest) := by
  obtain ⟨digits, hdigits, rfl⟩ := h
  have hread := readUnsigned_written hdigits hrest
  cases hn : n.negative with
  | true =>
    rw [hn] at hread
    exact hread
  | false =>
    rw [hn] at hread
    obtain ⟨d, ds, rfl, hd⟩ := unsigned_head hdigits
    have hminus : d ≠ '-' := by rintro rfl; cases hd
    rw [if_neg Bool.false_ne_true, List.cons_append, read]
    · exact hread
    · intro cs heq
      exact hminus (List.cons.inj heq).1

/-- **A number that is read was written.** -/
theorem written_of_read {n : Numeral} {cs rest : List Char} (h : read cs = some (n, rest)) :
    ∃ text, n.Written text ∧ cs = text ++ rest := by
  unfold read at h
  split at h
  · obtain ⟨hn, text, htext, rfl⟩ := unsigned_of_readUnsigned h
    exact ⟨'-' :: text, ⟨text, htext, by rw [hn]; rfl⟩, rfl⟩
  · obtain ⟨hn, text, htext, rfl⟩ := unsigned_of_readUnsigned h
    exact ⟨text, ⟨text, htext, by rw [hn]; rfl⟩, rfl⟩

end Numeral

/-! ## Strings -/

/-- The text of a string's pieces between its quotes. -/
inductive StringText : List Piece → List Char → Prop
  | nil : StringText [] []
  | char {c : Char} {ps : List Piece} {cs : List Char} (hquote : c ≠ '"') (hslash : c ≠ '\\')
      (hcontrol : 0x20 ≤ c.toNat) : StringText ps cs → StringText (.char c :: ps) (c :: cs)
  | escape {letter c : Char} {ps : List Piece} {cs : List Char} (h : unescape? letter = some c) :
      StringText ps cs → StringText (.char c :: ps) ('\\' :: letter :: cs)
  | unit {a b c d : Char} {n : Nat} {ps : List Piece} {cs : List Char}
      (h : unitOfHex? a b c d = some n) :
      StringText ps cs → StringText (.unit n :: ps) ('\\' :: 'u' :: a :: b :: c :: d :: cs)

theorem readPieces_written {ps : List Piece} {cs : List Char} (h : StringText ps cs)
    (acc : List Piece) (rest : List Char) :
    readPieces acc (cs ++ '"' :: rest) = some (acc.reverse ++ ps, rest) := by
  induction h generalizing acc with
  | nil => simp [readPieces]
  | @char c ps cs hquote hslash hcontrol _ ih =>
    have hge : ¬ c.toNat < 0x20 := by omega
    simp [readPieces, hslash, hge, ih]
  | @escape letter c ps cs hletter _ ih =>
    have hu : letter ≠ 'u' := by rintro rfl; cases hletter
    simp [readPieces, hu, hletter, ih]
  | unit hunit _ ih => simp [readPieces, hunit, ih]

theorem written_of_readPieces {acc ps : List Piece} {cs rest : List Char}
    (h : readPieces acc cs = some (ps, rest)) : ∃ ps' text, StringText ps' text ∧
      ps = acc.reverse ++ ps' ∧ cs = text ++ '"' :: rest := by
  fun_induction readPieces acc cs with
  | case1 => cases h
  | case2 acc cs =>
    cases h
    exact ⟨[], [], .nil, by simp, rfl⟩
  | case3 acc a b c d cs n hn ih =>
    obtain ⟨ps', text, htext, rfl, rfl⟩ := ih h
    exact ⟨.unit n :: ps', _, .unit hn htext, by simp, rfl⟩
  | case4 => cases h
  | case5 acc letter cs hu c hc ih =>
    obtain ⟨ps', text, htext, rfl, rfl⟩ := ih h
    exact ⟨.char c :: ps', _, .escape hc htext, by simp, rfl⟩
  | case6 => cases h
  | case7 => cases h
  | case8 acc c cs hquote hunit hslash hcontrol ih =>
    obtain ⟨ps', text, htext, rfl, rfl⟩ := ih h
    refine ⟨.char c :: ps', c :: text, .char ?_ ?_ (by omega) htext, by simp, rfl⟩
    · exact hquote
    · intro hc
      obtain ⟨c', cs, heq⟩ := List.exists_cons_of_ne_nil (l := text ++ '"' :: rest) (by simp)
      exact hslash c' cs hc heq

/-- The text of a string. -/
def StringWritten (s : Option String) (cs : List Char) : Prop :=
  ∃ ps body, StringText ps body ∧ s = (assemble ps).map String.ofList ∧
    cs = '"' :: (body ++ ['"'])

/-- **A string is read as it is written.** -/
theorem readString_written {s : Option String} {cs : List Char} (h : StringWritten s cs) :
    ∃ tail, cs = '"' :: tail ∧ ∀ rest, readString (tail ++ rest) = some (s, rest) := by
  obtain ⟨ps, body, hbody, rfl, rfl⟩ := h
  refine ⟨body ++ ['"'], rfl, fun rest => ?_⟩
  rw [readString, List.append_assoc, List.singleton_append, readPieces_written hbody]
  rfl

/-- **A string that is read was written.** -/
theorem written_of_readString {s : Option String} {cs rest : List Char}
    (h : readString cs = some (s, rest)) :
    ∃ tail, StringWritten s ('"' :: tail) ∧ cs = tail ++ rest := by
  rw [readString, Option.map_eq_some_iff] at h
  obtain ⟨⟨ps, rest'⟩, hpieces, heq⟩ := h
  cases heq
  obtain ⟨ps, text, htext, rfl, rfl⟩ := written_of_readPieces hpieces
  exact ⟨text ++ ['"'], ⟨ps, text, htext, rfl, rfl⟩, by simp⟩

/-! ## Values -/

/-- Blanks may stand before and behind what `P` describes. -/
def Padded (P : List Char → Prop) (cs : List Char) : Prop :=
  ∃ before inner after, Blank before ∧ P inner ∧ Blank after ∧ cs = before ++ inner ++ after

namespace Reading

mutual

/-- The text of a value. -/
def Written : Reading → List Char → Prop
  | .null, cs => cs = ['n', 'u', 'l', 'l']
  | .bool true, cs => cs = ['t', 'r', 'u', 'e']
  | .bool false, cs => cs = ['f', 'a', 'l', 's', 'e']
  | .num n, cs => n.Written cs
  | .str s, cs => StringWritten s cs
  | .arr items .closed, cs => ∃ body,
      (items = [] ∧ Blank body ∨ WrittenItems items body) ∧ cs = '[' :: (body ++ [']'])
  | .obj members .closed, cs => ∃ body,
      (members = [] ∧ Blank body ∨ WrittenMembers members body) ∧ cs = '\x7b' :: (body ++ ['\x7d'])
  | .arr _ .cut, _ | .obj _ .cut, _ | .broken, _ => False

/-- The text of values with commas between them. -/
def WrittenItems : List Reading → List Char → Prop
  | [], _ => False
  | r :: rs, cs => ∃ item tail, Padded r.Written item ∧ cs = item ++ tail ∧
      (rs = [] ∧ tail = [] ∨ ∃ tail', WrittenItems rs tail' ∧ tail = ',' :: tail')

/-- The text of members with commas between them. -/
def WrittenMembers : List (Option String × Reading) → List Char → Prop
  | [], _ => False
  | (name, r) :: ms, cs => ∃ label item tail, Padded (StringWritten name) label ∧
      Padded r.Written item ∧ cs = label ++ ':' :: (item ++ tail) ∧
      (ms = [] ∧ tail = [] ∨ ∃ tail', WrittenMembers ms tail' ∧ tail = ',' :: tail')

end

mutual

theorem isComplete_of_written : ∀ {r : Reading} {cs : List Char}, r.Written cs →
    r.isComplete = true
  | .null, _, _ | .bool _, _, _ | .num _, _, _ | .str _, _, _ => rfl
  | .arr items .closed, cs, h => by
    rw [Written] at h
    obtain ⟨body, ⟨rfl, -⟩ | hitems, -⟩ := h
    · rfl
    · rw [isComplete, itemsComplete_of_written hitems]
      rfl
  | .obj members .closed, cs, h => by
    rw [Written] at h
    obtain ⟨body, ⟨rfl, -⟩ | hmembers, -⟩ := h
    · rfl
    · rw [isComplete, membersComplete_of_written hmembers]
      rfl
  | .arr _ .cut, _, h | .obj _ .cut, _, h | .broken, _, h => by
    rw [Written] at h
    exact h.elim

theorem itemsComplete_of_written : ∀ {rs : List Reading} {cs : List Char}, WrittenItems rs cs →
    itemsComplete rs = true
  | [], _, h => by rw [WrittenItems] at h; exact h.elim
  | r :: rs, cs, h => by
    rw [WrittenItems] at h
    obtain ⟨item, tail, ⟨before, inner, after, -, hr, -, -⟩, -, htail⟩ := h
    rw [itemsComplete, isComplete_of_written hr]
    rcases htail with ⟨rfl, -⟩ | ⟨tail', hrs, -⟩
    · rfl
    · rw [itemsComplete_of_written hrs]
      rfl

theorem membersComplete_of_written : ∀ {ms : List (Option String × Reading)} {cs : List Char},
    WrittenMembers ms cs → membersComplete ms = true
  | [], _, h => by rw [WrittenMembers] at h; exact h.elim
  | (name, r) :: ms, cs, h => by
    rw [WrittenMembers] at h
    obtain ⟨label, item, tail, -, ⟨before, inner, after, -, hr, -, -⟩, -, htail⟩ := h
    rw [membersComplete, isComplete_of_written hr]
    rcases htail with ⟨rfl, -⟩ | ⟨tail', hms, -⟩
    · rfl
    · rw [membersComplete_of_written hms]
      rfl

end

/-! ### One step of the reader -/

section
variable {fuel : Nat} {cs cs' rest : List Char}

theorem readValue_skipSpace (fuel : Nat) (cs : List Char) :
    readValue fuel (skipSpace cs) = readValue fuel cs := by
  cases fuel with
  | zero => rw [readValue, readValue]
  | succ fuel => rw [readValue, readValue, skipSpace_skipSpace]

theorem readItems_skipSpace (fuel : Nat) (cs : List Char) :
    readItems fuel (skipSpace cs) = readItems fuel cs := by
  cases fuel with
  | zero => rw [readItems, readItems]
  | succ fuel => rw [readItems, readItems, readValue_skipSpace]

theorem readMembers_skipSpace (fuel : Nat) (cs : List Char) :
    readMembers fuel (skipSpace cs) = readMembers fuel cs := by
  cases fuel with
  | zero => rw [readMembers, readMembers]
  | succ fuel => rw [readMembers, readMembers, skipSpace_skipSpace]

theorem readValue_number {c : Char} {n : Numeral} (h : skipSpace cs = c :: cs')
    (hc : c = '-' ∨ c.isDigit = true) (hn : Numeral.read (c :: cs') = some (n, rest)) :
    readValue (fuel + 1) cs = (.num n, rest) := by
  rw [readValue, h]
  split
  case h_7 => rw [hn]
  all_goals
    rename_i heq
    cases heq
    rcases hc with hc | hc <;> exact absurd hc (by decide)

theorem readValue_string {s : Option String} (h : skipSpace cs = '"' :: cs')
    (hs : readString cs' = some (s, rest)) : readValue (fuel + 1) cs = (.str s, rest) := by
  simp only [readValue, h, hs]

theorem readValue_emptyArray (h : skipSpace cs = '[' :: cs') (h' : skipSpace cs' = ']' :: rest) :
    readValue (fuel + 1) cs = (.arr [] .closed, rest) := by
  simp only [readValue, h, h']

theorem readValue_array (h : skipSpace cs = '[' :: cs')
    (h' : ∀ rest, skipSpace cs' ≠ ']' :: rest) : readValue (fuel + 1) cs =
      (.arr (readItems fuel cs').1 (readItems fuel cs').2.1, (readItems fuel cs').2.2) := by
  simp only [readValue, h, readItems_skipSpace]

theorem readValue_emptyObject (h : skipSpace cs = '\x7b' :: cs')
    (h' : skipSpace cs' = '\x7d' :: rest) :
    readValue (fuel + 1) cs = (.obj [] .closed, rest) := by
  simp only [readValue, h, h']

theorem readValue_object (h : skipSpace cs = '\x7b' :: cs')
    (h' : ∀ rest, skipSpace cs' ≠ '\x7d' :: rest) : readValue (fuel + 1) cs =
      (.obj (readMembers fuel cs').1 (readMembers fuel cs').2.1,
        (readMembers fuel cs').2.2) := by
  simp only [readValue, h, readMembers_skipSpace]

theorem readItems_last {r : Reading} {after : List Char} (h : readValue fuel cs = (r, after))
    (h' : skipSpace after = ']' :: rest) : readItems (fuel + 1) cs = ([r], .closed, rest) := by
  simp only [readItems, h, h']

theorem readItems_cons {r : Reading} {after : List Char} (h : readValue fuel cs = (r, after))
    (h' : skipSpace after = ',' :: cs') : readItems (fuel + 1) cs =
      (r :: (readItems fuel cs').1, (readItems fuel cs').2.1, (readItems fuel cs').2.2) := by
  simp only [readItems, h, h']

/-- A name, a colon and a value stand at the start of the text. -/
def MemberAt (fuel : Nat) (cs : List Char) (name : Option String) (r : Reading)
    (after : List Char) : Prop :=
  ∃ tail rest cs', skipSpace cs = '"' :: tail ∧ readString tail = some (name, rest) ∧
    skipSpace rest = ':' :: cs' ∧ readValue fuel cs' = (r, after)

/-- A name that is padded with blanks is read as it is written. -/
theorem memberAt_padded {name : Option String} {r : Reading} {label body after : List Char}
    (hname : Padded (StringWritten name) label) (h : readValue fuel body = (r, after)) :
    MemberAt fuel (label ++ ':' :: body) name r after := by
  obtain ⟨gap, _, gap', hgap, hname, hgap', rfl⟩ := hname
  obtain ⟨tail, rfl, hread⟩ := readString_written hname
  refine ⟨tail ++ (gap' ++ ':' :: body), gap' ++ ':' :: body, body, ?_, hread _,
    skipSpace_append hgap', h⟩
  rw [List.append_assoc, List.append_assoc, skipSpace_append hgap]
  rfl

theorem readMembers_last {name : Option String} {r : Reading} {after : List Char}
    (h : MemberAt fuel cs name r after) (h' : skipSpace after = '\x7d' :: rest) :
    readMembers (fuel + 1) cs = ([(name, r)], .closed, rest) := by
  obtain ⟨_, _, _, h₁, h₂, h₃, h₄⟩ := h
  simp only [readMembers, h₁, h₂, h₃, h₄, h']

theorem readMembers_cons {name : Option String} {r : Reading} {after : List Char}
    (h : MemberAt fuel cs name r after) (h' : skipSpace after = ',' :: cs') :
    readMembers (fuel + 1) cs = ((name, r) :: (readMembers fuel cs').1,
      (readMembers fuel cs').2.1, (readMembers fuel cs').2.2) := by
  obtain ⟨_, _, _, h₁, h₂, h₃, h₄⟩ := h
  simp only [readMembers, h₁, h₂, h₃, h₄, h']

end

/-! ### What is written is read -/

/-- A character that may stand at the start of a value or of a name. -/
structure Opener (c : Char) : Prop where
  visible : isSpace c = false
  not_bracket : c ≠ ']'
  not_brace : c ≠ '\x7d'

theorem opener_of_number {c : Char} (h : c = '-' ∨ c.isDigit = true) : Opener c := by
  refine ⟨?_, ?_, ?_⟩
  · rw [← Bool.not_eq_true]
    intro hspace
    simp only [isSpace, Bool.or_eq_true, beq_iff_eq] at hspace
    rcases hspace with ((rfl | rfl) | rfl) | rfl <;> rcases h with h | h <;> cases h
  · rintro rfl
    rcases h with h | h <;> cases h
  · rintro rfl
    rcases h with h | h <;> cases h

theorem written_head : ∀ {r : Reading} {value : List Char}, r.Written value →
    ∃ c tail, value = c :: tail ∧ Opener c
  | .null, _, h | .bool true, _, h | .bool false, _, h => by
    rw [Written] at h
    exact ⟨_, _, h, by decide, by decide, by decide⟩
  | .num _, _, h => by
    rw [Written] at h
    obtain ⟨c, tail, rfl, hc⟩ := Numeral.written_head h
    exact ⟨c, tail, rfl, opener_of_number hc⟩
  | .str _, _, h => by
    rw [Written] at h
    obtain ⟨tail, rfl, -⟩ := readString_written h
    exact ⟨_, _, rfl, by decide, by decide, by decide⟩
  | .arr _ .closed, _, h | .obj _ .closed, _, h => by
    rw [Written] at h
    obtain ⟨body, -, rfl⟩ := h
    exact ⟨_, _, rfl, by decide, by decide, by decide⟩
  | .arr _ .cut, _, h | .obj _ .cut, _, h | .broken, _, h => by
    rw [Written] at h
    exact h.elim

theorem skipSpace_written {r : Reading} {gap value : List Char} (hgap : Blank gap)
    (h : r.Written value) (rest : List Char) :
    skipSpace (gap ++ (value ++ rest)) = value ++ rest := by
  obtain ⟨c, tail, rfl, hc⟩ := written_head h
  rw [skipSpace_append hgap, List.cons_append, skipSpace_cons hc.visible]

/-- The first of several items is no closing bracket. -/
theorem skipSpace_items_ne {rs : List Reading} {body : List Char} (h : WrittenItems rs body)
    (rest rest' : List Char) : skipSpace (body ++ rest) ≠ ']' :: rest' := by
  cases rs with
  | nil =>
    rw [WrittenItems] at h
    exact h.elim
  | cons r rs =>
    rw [WrittenItems] at h
    obtain ⟨_, tail, ⟨before, value, after, hbefore, hvalue, -, rfl⟩, rfl, -⟩ := h
    obtain ⟨c, cs, rfl, hc⟩ := written_head hvalue
    simp only [List.append_assoc, List.cons_append]
    rw [skipSpace_append hbefore, skipSpace_cons hc.visible]
    intro heq
    exact hc.not_bracket (List.cons.inj heq).1

/-- The name of the first of several members is no closing bracket. -/
theorem skipSpace_members_ne {ms : List (Option String × Reading)} {body : List Char}
    (h : WrittenMembers ms body) (rest rest' : List Char) :
    skipSpace (body ++ rest) ≠ '\x7d' :: rest' := by
  cases ms with
  | nil =>
    rw [WrittenMembers] at h
    exact h.elim
  | cons m ms =>
    obtain ⟨name, r⟩ := m
    rw [WrittenMembers] at h
    obtain ⟨_, _, tail, ⟨before, label, after, hbefore, hlabel, -, rfl⟩, -, rfl, -⟩ := h
    obtain ⟨cs, rfl, -⟩ := readString_written hlabel
    simp only [List.append_assoc, List.cons_append]
    rw [skipSpace_append hbefore, skipSpace_cons (by decide)]
    intro heq
    cases heq

mutual

/-- **What is written for a reading is read as that reading.** -/
theorem readValue_written : ∀ {r : Reading} {value gap rest : List Char} {fuel : Nat},
    r.Written value → Blank gap → Numeral.Stops rest → 2 * value.length ≤ fuel →
    readValue fuel (gap ++ (value ++ rest)) = (r, rest)
  | r, value, gap, rest, 0, h, _, _, hfuel => by
    obtain ⟨c, tail, rfl, -⟩ := written_head h
    rw [List.length_cons] at hfuel
    omega
  | .null, value, gap, rest, fuel + 1, h, hgap, _, _
  | .bool true, value, gap, rest, fuel + 1, h, hgap, _, _
  | .bool false, value, gap, rest, fuel + 1, h, hgap, _, _ => by
    rw [readValue, skipSpace_written hgap h]
    rw [Written] at h
    subst h
    rfl
  | .num n, value, gap, rest, fuel + 1, h, hgap, hrest, _ => by
    have hskip := skipSpace_written hgap h rest
    rw [Written] at h
    obtain ⟨c, tail, rfl, hc⟩ := Numeral.written_head h
    exact readValue_number hskip hc (Numeral.read_written h hrest)
  | .str s, value, gap, rest, fuel + 1, h, hgap, _, _ => by
    have hskip := skipSpace_written hgap h rest
    rw [Written] at h
    obtain ⟨tail, rfl, hread⟩ := readString_written h
    exact readValue_string hskip (hread rest)
  | .arr items .closed, value, gap, rest, fuel + 1, h, hgap, _, hfuel => by
    have hskip := skipSpace_written hgap h rest
    rw [Written] at h
    obtain ⟨body, hbody, rfl⟩ := h
    rw [List.cons_append, List.append_assoc, List.singleton_append] at hskip ⊢
    rcases hbody with ⟨rfl, hblank⟩ | hitems
    · exact readValue_emptyArray hskip (skipSpace_append hblank)
    · have hfuel' : 2 * body.length + 1 ≤ fuel := by
        simp only [List.length_cons, List.length_append] at hfuel
        omega
      rw [readValue_array hskip (skipSpace_items_ne hitems _), readItems_written hitems hfuel']
  | .obj members .closed, value, gap, rest, fuel + 1, h, hgap, _, hfuel => by
    have hskip := skipSpace_written hgap h rest
    rw [Written] at h
    obtain ⟨body, hbody, rfl⟩ := h
    rw [List.cons_append, List.append_assoc, List.singleton_append] at hskip ⊢
    rcases hbody with ⟨rfl, hblank⟩ | hmembers
    · exact readValue_emptyObject hskip (skipSpace_append hblank)
    · have hfuel' : 2 * body.length + 1 ≤ fuel := by
        simp only [List.length_cons, List.length_append] at hfuel
        omega
      rw [readValue_object hskip (skipSpace_members_ne hmembers _),
        readMembers_written hmembers hfuel']
  | .arr _ .cut, _, _, _, _, h, _, _, _ | .obj _ .cut, _, _, _, _, h, _, _, _
  | .broken, _, _, _, _, h, _, _, _ => by
    rw [Written] at h
    exact h.elim

theorem readItems_written : ∀ {rs : List Reading} {body rest : List Char} {fuel : Nat},
    WrittenItems rs body → 2 * body.length + 1 ≤ fuel →
    readItems fuel (body ++ ']' :: rest) = (rs, .closed, rest)
  | [], _, _, _, h, _ => by
    rw [WrittenItems] at h
    exact h.elim
  | r :: rs, body, rest, 0, _, hfuel => by omega
  | r :: rs, body, rest, fuel + 1, h, hfuel => by
    rw [WrittenItems] at h
    obtain ⟨_, tail, ⟨before, value, after, hbefore, hvalue, hafter, rfl⟩, rfl, htail⟩ := h
    have hlen : 2 * value.length + 2 * tail.length ≤ fuel := by
      simp only [List.length_append] at hfuel
      omega
    simp only [List.append_assoc]
    rcases htail with ⟨rfl, rfl⟩ | ⟨tail', hrs, rfl⟩
    · have hstops : Numeral.Stops (after ++ ']' :: rest) :=
        Numeral.stops_separator hafter (by decide)
      exact readItems_last (readValue_written hvalue hbefore hstops (by omega))
        (skipSpace_append hafter)
    · have hstops : Numeral.Stops (after ++ ',' :: (tail' ++ ']' :: rest)) :=
        Numeral.stops_separator hafter (by decide)
      have hread : readItems fuel (tail' ++ ']' :: rest) = (rs, .closed, rest) :=
        readItems_written hrs (by rw [List.length_cons] at hlen; omega)
      rw [List.cons_append, readItems_cons (readValue_written hvalue hbefore hstops (by omega))
        (skipSpace_append hafter), hread]

theorem readMembers_written : ∀ {ms : List (Option String × Reading)} {body rest : List Char}
    {fuel : Nat}, WrittenMembers ms body → 2 * body.length + 1 ≤ fuel →
    readMembers fuel (body ++ '\x7d' :: rest) = (ms, .closed, rest)
  | [], _, _, _, h, _ => by
    rw [WrittenMembers] at h
    exact h.elim
  | _ :: _, body, rest, 0, _, hfuel => by omega
  | (name, r) :: ms, body, rest, fuel + 1, h, hfuel => by
    rw [WrittenMembers] at h
    obtain ⟨label, _, tail, hlabel, ⟨before, value, after, hbefore, hvalue, hafter, rfl⟩, rfl,
      htail⟩ := h
    have hlen : 2 * value.length + 2 * tail.length ≤ fuel := by
      simp only [List.length_append, List.length_cons] at hfuel
      omega
    have hmember {rest : List Char} (hstops : Numeral.Stops (after ++ rest)) :
        MemberAt fuel (label ++ ':' :: (before ++ (value ++ (after ++ rest)))) name r
          (after ++ rest) :=
      memberAt_padded hlabel (readValue_written hvalue hbefore hstops (by omega))
    simp only [List.append_assoc, List.cons_append]
    rcases htail with ⟨rfl, rfl⟩ | ⟨tail', hms, rfl⟩
    · have hstops : Numeral.Stops (after ++ '\x7d' :: rest) :=
        Numeral.stops_separator hafter (by decide)
      exact readMembers_last (hmember hstops) (skipSpace_append hafter)
    · have hstops : Numeral.Stops (after ++ ',' :: (tail' ++ '\x7d' :: rest)) :=
        Numeral.stops_separator hafter (by decide)
      have hread : readMembers fuel (tail' ++ '\x7d' :: rest) = (ms, .closed, rest) :=
        readMembers_written hms (by rw [List.length_cons] at hlen; omega)
      rw [List.cons_append, readMembers_cons (hmember hstops) (skipSpace_append hafter), hread]

end

/-! ### What is read was written -/

theorem blank_cut {cs tail : List Char} (h : skipSpace cs = tail) :
    ∃ gap, Blank gap ∧ cs = gap ++ tail := by
  subst h
  exact exists_skipSpace cs

/-- What one step of the reader can make of a text: a value without parts or an empty one, the start
of an array or object, or nothing. -/
inductive ValueStep (fuel : Nat) (cs : List Char) : Reading × List Char → Prop
  | whole {gap value rest : List Char} {r : Reading} (hgap : Blank gap) (h : r.Written value)
      (hcs : cs = gap ++ (value ++ rest)) : ValueStep fuel cs (r, rest)
  | array {gap body : List Char} (hgap : Blank gap) (hcs : cs = gap ++ '[' :: body) :
      ValueStep fuel cs
        (.arr (readItems fuel body).1 (readItems fuel body).2.1, (readItems fuel body).2.2)
  | object {gap body : List Char} (hgap : Blank gap) (hcs : cs = gap ++ '\x7b' :: body) :
      ValueStep fuel cs
        (.obj (readMembers fuel body).1 (readMembers fuel body).2.1, (readMembers fuel body).2.2)
  | broken : ValueStep fuel cs (.broken, [])

theorem readValue_step (fuel : Nat) (cs : List Char) :
    ValueStep fuel cs (readValue (fuel + 1) cs) := by
  rw [readValue]
  split
  case h_1 | h_2 | h_3 =>
    rename_i heq
    obtain ⟨gap, hgap, hcs⟩ := blank_cut heq
    exact .whole hgap (by rw [Written]) hcs
  case h_4 cs' heq =>
    obtain ⟨gap, hgap, hcs⟩ := blank_cut heq
    split
    · rename_i hread
      obtain ⟨tail, htail, rfl⟩ := written_of_readString hread
      exact .whole hgap (by rw [Written]; exact htail) hcs
    · exact .broken
  case h_5 cs' heq =>
    obtain ⟨gap, hgap, hcs⟩ := blank_cut heq
    split
    · rename_i rest hclose
      obtain ⟨body, hbody, rfl⟩ := blank_cut hclose
      have hwritten : (Reading.arr [] .closed).Written ('[' :: (body ++ [']'])) := by
        rw [Written]
        exact ⟨body, .inl ⟨rfl, hbody⟩, rfl⟩
      exact .whole hgap hwritten (by simp [hcs])
    · rw [readItems_skipSpace]
      exact .array hgap hcs
  case h_6 cs' heq =>
    obtain ⟨gap, hgap, hcs⟩ := blank_cut heq
    split
    · rename_i rest hclose
      obtain ⟨body, hbody, rfl⟩ := blank_cut hclose
      have hwritten : (Reading.obj [] .closed).Written ('\x7b' :: (body ++ ['\x7d'])) := by
        rw [Written]
        exact ⟨body, .inl ⟨rfl, hbody⟩, rfl⟩
      exact .whole hgap hwritten (by simp [hcs])
    · rw [readMembers_skipSpace]
      exact .object hgap hcs
  case h_7 =>
    obtain ⟨gap, hgap, hcs⟩ := exists_skipSpace cs
    split
    · rename_i hread
      obtain ⟨value, hvalue, htext⟩ := Numeral.written_of_read hread
      exact .whole hgap (by rw [Written]; exact hvalue) (by rw [← htext, ← hcs])
    · exact .broken

/-- What one step makes of the items of an array. -/
inductive ItemsStep (fuel : Nat) (cs : List Char) : List Reading × Ending × List Char → Prop
  | last {r : Reading} {gap after rest : List Char} (h : readValue fuel cs = (r, after))
      (hgap : Blank gap) (hafter : after = gap ++ ']' :: rest) :
      ItemsStep fuel cs ([r], .closed, rest)
  | cons {r : Reading} {gap after rest : List Char} (h : readValue fuel cs = (r, after))
      (hgap : Blank gap) (hafter : after = gap ++ ',' :: rest) :
      ItemsStep fuel cs
        (r :: (readItems fuel rest).1, (readItems fuel rest).2.1, (readItems fuel rest).2.2)
  | cut {r : Reading} {after : List Char} (h : readValue fuel cs = (r, after)) :
      ItemsStep fuel cs ([r], .cut, [])

theorem readItems_step (fuel : Nat) (cs : List Char) :
    ItemsStep fuel cs (readItems (fuel + 1) cs) := by
  rw [readItems]
  obtain ⟨r, after, hr⟩ : ∃ r after, readValue fuel cs = (r, after) := ⟨_, _, rfl⟩
  simp only [hr]
  split
  · rename_i hclose
    obtain ⟨gap, hgap, hafter⟩ := blank_cut hclose
    exact .last hr hgap hafter
  · rename_i hcomma
    obtain ⟨gap, hgap, hafter⟩ := blank_cut hcomma
    exact .cons hr hgap hafter
  · exact .cut hr

/-- What one step makes of the members of an object. -/
inductive MembersStep (fuel : Nat) (cs : List Char) :
    List (Option String × Reading) × Ending × List Char → Prop
  | last {name : Option String} {r : Reading} {label gap body after rest : List Char}
      (hname : Padded (StringWritten name) label) (hcs : cs = label ++ ':' :: body)
      (h : readValue fuel body = (r, after)) (hgap : Blank gap)
      (hafter : after = gap ++ '\x7d' :: rest) : MembersStep fuel cs ([(name, r)], .closed, rest)
  | cons {name : Option String} {r : Reading} {label gap body after rest : List Char}
      (hname : Padded (StringWritten name) label) (hcs : cs = label ++ ':' :: body)
      (h : readValue fuel body = (r, after)) (hgap : Blank gap)
      (hafter : after = gap ++ ',' :: rest) :
      MembersStep fuel cs ((name, r) :: (readMembers fuel rest).1, (readMembers fuel rest).2.1,
        (readMembers fuel rest).2.2)
  | cut {name : Option String} {r : Reading} {label body after : List Char}
      (hname : Padded (StringWritten name) label) (hcs : cs = label ++ ':' :: body)
      (h : readValue fuel body = (r, after)) : MembersStep fuel cs ([(name, r)], .cut, [])
  | bare {name : Option String} {gap label rest : List Char} (hgap : Blank gap)
      (hname : StringWritten name label) (hcs : cs = gap ++ (label ++ rest)) :
      MembersStep fuel cs ([(name, .broken)], .cut, [])
  | none : MembersStep fuel cs ([], .cut, [])

theorem readMembers_step (fuel : Nat) (cs : List Char) :
    MembersStep fuel cs (readMembers (fuel + 1) cs) := by
  rw [readMembers]
  split
  · rename_i cs₁ hquote
    obtain ⟨gap, hgap, hcs⟩ := blank_cut hquote
    split
    · exact .none
    · rename_i name cs₂ hname
      obtain ⟨label, hlabel, rfl⟩ := written_of_readString hname
      split
      · rename_i body hcolon
        obtain ⟨gap', hgap', rfl⟩ := blank_cut hcolon
        have hpadded : Padded (StringWritten name) (gap ++ '"' :: label ++ gap') :=
          ⟨gap, _, gap', hgap, hlabel, hgap', rfl⟩
        have hcs : cs = gap ++ '"' :: label ++ gap' ++ ':' :: body := by simp [hcs]
        obtain ⟨r, after, hr⟩ : ∃ r after, readValue fuel body = (r, after) := ⟨_, _, rfl⟩
        simp only [hr]
        split
        · rename_i hclose
          obtain ⟨gap'', hgap'', hafter⟩ := blank_cut hclose
          exact .last hpadded hcs hr hgap'' hafter
        · rename_i hcomma
          obtain ⟨gap'', hgap'', hafter⟩ := blank_cut hcomma
          exact .cons hpadded hcs hr hgap'' hafter
        · exact .cut hpadded hcs hr
      · exact .bare hgap hlabel hcs
  · exact .none

mutual

/-- **What is read was written**, or the text is not JSON and nothing of it is left. -/
theorem written_of_readValue : ∀ {fuel : Nat} {cs rest : List Char} {r : Reading},
    readValue fuel cs = (r, rest) →
    (∃ gap value, Blank gap ∧ r.Written value ∧ cs = gap ++ (value ++ rest)) ∨
      r.isComplete = false ∧ rest = []
  | 0, _, _, _, h => by
    rw [readValue] at h
    cases h
    exact .inr ⟨rfl, rfl⟩
  | fuel + 1, cs, rest, r, h => by
    have hstep := readValue_step fuel cs
    rw [h] at hstep
    cases hstep with
    | whole hgap hr hcs => exact .inl ⟨_, _, hgap, hr, hcs⟩
    | @array gap body hgap hcs =>
      rcases written_of_readItems (rfl : readItems fuel body = _) with
        ⟨hending, items, hitems, hbody⟩ | ⟨hending, hrest⟩
      · refine .inl ⟨gap, '[' :: (items ++ [']']), hgap, ?_, ?_⟩
        · rw [hending, Written]
          exact ⟨items, .inr hitems, rfl⟩
        · rw [hcs, List.cons_append, List.append_assoc, List.singleton_append, ← hbody]
      · exact .inr ⟨by rw [hending, isComplete, Bool.and_eq_false_iff]; exact .inr rfl, hrest⟩
    | @object gap body hgap hcs =>
      rcases written_of_readMembers (rfl : readMembers fuel body = _) with
        ⟨hending, members, hmembers, hbody⟩ | ⟨hending, hrest⟩
      · refine .inl ⟨gap, '\x7b' :: (members ++ ['\x7d']), hgap, ?_, ?_⟩
        · rw [hending, Written]
          exact ⟨members, .inr hmembers, rfl⟩
        · rw [hcs, List.cons_append, List.append_assoc, List.singleton_append, ← hbody]
      · exact .inr ⟨by rw [hending, isComplete, Bool.and_eq_false_iff]; exact .inr rfl, hrest⟩
    | broken => exact .inr ⟨rfl, rfl⟩

theorem written_of_readItems : ∀ {fuel : Nat} {cs rest : List Char} {rs : List Reading}
    {ending : Ending}, readItems fuel cs = (rs, ending, rest) →
    (ending = .closed ∧ ∃ body, WrittenItems rs body ∧ cs = body ++ ']' :: rest) ∨
      ending = .cut ∧ rest = []
  | 0, _, _, _, _, h => by
    rw [readItems] at h
    cases h
    exact .inr ⟨rfl, rfl⟩
  | fuel + 1, cs, rest, rs, ending, h => by
    have hstep := readItems_step fuel cs
    rw [h] at hstep
    cases hstep with
    | @last _ gap' after _ hr hgap' hafter =>
      rcases written_of_readValue hr with ⟨gap, value, hgap, hvalue, rfl⟩ | ⟨-, rfl⟩
      · refine .inl ⟨rfl, gap ++ value ++ gap', ?_, by simp [hafter]⟩
        rw [WrittenItems]
        exact ⟨_, [], ⟨gap, value, gap', hgap, hvalue, hgap', rfl⟩, by simp, .inl ⟨rfl, rfl⟩⟩
      · simp at hafter
    | @cons r gap' after cs' hr hgap' hafter =>
      rcases written_of_readValue hr with ⟨gap, value, hgap, hvalue, rfl⟩ | ⟨-, rfl⟩
      · rcases written_of_readItems (rfl : readItems fuel cs' = _) with
          ⟨hending, body, hbody, hcs'⟩ | hcut
        · refine .inl ⟨hending, gap ++ value ++ gap' ++ ',' :: body, ?_, ?_⟩
          · rw [WrittenItems]
            exact ⟨_, _, ⟨gap, value, gap', hgap, hvalue, hgap', rfl⟩, rfl, .inr ⟨body, hbody, rfl⟩⟩
          · simp only [hafter, List.append_assoc, List.cons_append, ← hcs']
        · exact .inr hcut
      · simp at hafter
    | cut => exact .inr ⟨rfl, rfl⟩

theorem written_of_readMembers : ∀ {fuel : Nat} {cs rest : List Char}
    {ms : List (Option String × Reading)} {ending : Ending},
    readMembers fuel cs = (ms, ending, rest) →
    (ending = .closed ∧ ∃ body, WrittenMembers ms body ∧ cs = body ++ '\x7d' :: rest) ∨
      ending = .cut ∧ rest = []
  | 0, _, _, _, _, h => by
    rw [readMembers] at h
    cases h
    exact .inr ⟨rfl, rfl⟩
  | fuel + 1, cs, rest, ms, ending, h => by
    have hstep := readMembers_step fuel cs
    rw [h] at hstep
    cases hstep with
    | @last name r label gap' _ after _ hname hcs hr hgap' hafter =>
      rcases written_of_readValue hr with ⟨gap, value, hgap, hvalue, rfl⟩ | ⟨-, rfl⟩
      · refine .inl ⟨rfl, label ++ ':' :: (gap ++ value ++ gap'), ?_, by simp [hcs, hafter]⟩
        rw [WrittenMembers]
        exact ⟨label, _, [], hname, ⟨gap, value, gap', hgap, hvalue, hgap', rfl⟩, by simp,
          .inl ⟨rfl, rfl⟩⟩
      · simp at hafter
    | @cons name r label gap' _ after cs' hname hcs hr hgap' hafter =>
      rcases written_of_readValue hr with ⟨gap, value, hgap, hvalue, rfl⟩ | ⟨-, rfl⟩
      · rcases written_of_readMembers (rfl : readMembers fuel cs' = _) with
          ⟨hending, body, hbody, hcs'⟩ | hcut
        · refine .inl ⟨hending, label ++ ':' :: (gap ++ value ++ gap' ++ ',' :: body), ?_, ?_⟩
          · rw [WrittenMembers]
            exact ⟨label, _, _, hname, ⟨gap, value, gap', hgap, hvalue, hgap', rfl⟩, rfl,
              .inr ⟨body, hbody, rfl⟩⟩
          · simp only [hcs, hafter, List.append_assoc, List.cons_append, ← hcs']
        · exact .inr hcut
      · simp at hafter
    | cut => exact .inr ⟨rfl, rfl⟩
    | bare => exact .inr ⟨rfl, rfl⟩
    | none => exact .inr ⟨rfl, rfl⟩

end

/-! ## Texts -/

/-- The text is that of one value, with blanks around it. -/
def Text (r : Reading) (text : String) : Prop := Padded r.Written text.toList

/-- **A text is read as what it was written for.** -/
theorem ofText_text {r : Reading} {text : String} (h : r.Text text) :
    ∃ rest, Blank rest ∧ ofText text = (r, rest) := by
  obtain ⟨before, value, after, hbefore, hvalue, hafter, htext⟩ := h
  refine ⟨after, hafter, ?_⟩
  have hlen : text.length = before.length + value.length + after.length := by
    rw [← String.length_toList, htext, List.length_append, List.length_append]
  have hstops : Numeral.Stops after := by
    simpa using Numeral.stops_blank_append hafter Numeral.stops_nil
  rw [ofText, htext, List.append_assoc]
  exact readValue_written hvalue hbefore hstops (by omega)

theorem text_of_ofText {r : Reading} {rest : List Char} {text : String}
    (h : ofText text = (r, rest)) (hcomplete : r.isComplete = true) (hrest : Blank rest) :
    r.Text text := by
  rcases written_of_readValue h with ⟨gap, value, hgap, hvalue, htext⟩ | ⟨hbroken, -⟩
  · exact ⟨gap, value, rest, hgap, hvalue, hrest, by rw [htext, List.append_assoc]⟩
  · exact absurd hcomplete (by simp [hbroken])

end Reading

/-- The text is JSON. -/
def IsJson (text : String) : Prop := ∃ r : Reading, r.Text text

/-- **A text is JSON exactly if it is read to its end.** -/
theorem isJson_iff {text : String} :
    IsJson text ↔ (Reading.ofText text).1.isComplete = true ∧ Blank (Reading.ofText text).2 := by
  constructor
  · rintro ⟨r, hr⟩
    obtain ⟨rest, hrest, heq⟩ := Reading.ofText_text hr
    obtain ⟨_, value, _, -, hvalue, -⟩ := hr
    rw [heq]
    exact ⟨Reading.isComplete_of_written hvalue, hrest⟩
  · rintro ⟨hcomplete, hrest⟩
    exact ⟨_, Reading.text_of_ofText rfl hcomplete hrest⟩

end ViewTyping.Json
