import Mathlib.Data.String.Basic
import Mathlib.Tactic.IntervalCases
import ViewTyping.Name

/-!
# Names compared byte by byte

Views are sorted by the characters of their names. `Name.bytes_lt_bytes`: this is the order of the
names' UTF-8 forms, byte by byte.

A character is encoded as one lead byte and `k` trailing bytes, `k ≤ 3`, where each trailing byte
holds six bits of its number (`Name.digits`, `exists_digits`). Of two characters with the same `k`
the smaller number has the smaller digits (`digits_lt`), and a larger `k` has a larger lead byte
(`digits_lt_of_lead`); so the order is decided within the two characters, whatever follows them
(`utf8EncodeChar_lt`).
-/

set_option autoImplicit false

namespace ViewTyping.Name

/-- The UTF-8 form of a name. -/
def bytes (name : String) : List UInt8 := name.toUTF8.data.toList

theorem bytes_eq (name : String) : bytes name = name.toList.flatMap String.utf8EncodeChar := by
  have h : name.toUTF8 = name.toList.utf8Encode := by
    rw [String.toUTF8_eq_toByteArray, ← String.toByteArray_ofList, String.ofList_toList]
  rw [bytes, h, List.utf8Encode, List.toList_data_toByteArray]

/-! ## Characters as digits -/

/-- How many lead bytes there are for characters with `k` trailing bytes. -/
def leadCount : Nat → Nat
  | 0 => 0x80
  | 1 => 0x20
  | 2 => 0x10
  | _ => 0x08

/-- The first of the lead bytes for characters with `k` trailing bytes. -/
def leadBase : Nat → Nat
  | 0 => 0
  | 1 => 0xc0
  | 2 => 0xe0
  | _ => 0xf0

theorem leadCount_add_leadBase (k : Nat) : leadCount k + leadBase k ≤ 0x100 := by
  unfold leadCount leadBase
  split <;> omega

theorem leadCount_pos (k : Nat) : 0 < leadCount k := by
  unfold leadCount
  split <;> omega

/-- A lead byte of characters with `k` trailing bytes, then the last `j` digits of `v`. -/
def digits (k : Nat) : (j : Nat) → (v : Nat) → List UInt8
  | 0, v => [UInt8.ofNat (v % leadCount k + leadBase k)]
  | j + 1, v => digits k j (v / 64) ++ [UInt8.ofNat (v % 64 + 0x80)]

/-- **Every character is a lead byte and digits**, and as short as its number allows. -/
theorem exists_digits (c : Char) : ∃ k ≤ 3, String.utf8EncodeChar c = digits k k c.val.toNat ∧
    c.val.toNat < leadCount k * 64 ^ k ∧ ∀ l < k, leadCount l * 64 ^ l ≤ c.val.toNat := by
  have hlt : c.val.toNat < 0x110000 := by
    have := c.valid
    unfold UInt32.isValidChar Nat.isValidChar at this
    omega
  unfold String.utf8EncodeChar
  generalize c.val.toNat = v at hlt
  by_cases h1 : v ≤ 0x7f
  · refine ⟨0, by omega, ?_, by simp only [leadCount]; omega, by simp⟩
    simp [h1, digits, leadCount, leadBase, Nat.mod_eq_of_lt (show v < 128 by omega)]
  by_cases h2 : v ≤ 0x7ff
  · refine ⟨1, by omega, ?_, by simp only [leadCount]; omega, ?_⟩
    · simp [h1, h2, digits, leadCount, leadBase]
    · intro l hl
      interval_cases l
      simp only [leadCount]
      omega
  by_cases h3 : v ≤ 0xffff
  · refine ⟨2, by omega, ?_, by simp only [leadCount]; omega, ?_⟩
    · simp [h1, h2, h3, digits, leadCount, leadBase, Nat.div_div_eq_div_mul]
    · intro l hl
      interval_cases l <;> simp only [leadCount] <;> omega
  · refine ⟨3, by omega, ?_, by simp only [leadCount]; omega, ?_⟩
    · simp [h1, h2, h3, digits, leadCount, leadBase, Nat.div_div_eq_div_mul]
    · intro l hl
      interval_cases l <;> simp only [leadCount] <;> omega

/-- With as many digits the smaller number comes first. -/
theorem digits_lt (k : Nat) : ∀ (j : Nat) {v w : Nat}, v < w → w < leadCount k * 64 ^ j →
    ∀ x y : List UInt8, digits k j v ++ x < digits k j w ++ y
  | 0, v, w, hvw, hw, x, y => by
    have hle := leadCount_add_leadBase k
    rw [Nat.pow_zero, Nat.mul_one] at hw
    refine List.Lex.rel ?_
    rw [UInt8.lt_iff_toNat_lt, UInt8.toNat_ofNat', UInt8.toNat_ofNat',
      Nat.mod_eq_of_lt (hvw.trans hw), Nat.mod_eq_of_lt hw, Nat.mod_eq_of_lt (by omega),
      Nat.mod_eq_of_lt (by omega)]
    omega
  | j + 1, v, w, hvw, hw, x, y => by
    rw [digits, digits, List.append_assoc, List.append_assoc]
    rcases Nat.lt_or_eq_of_le (Nat.div_le_div_right (c := 64) hvw.le) with hlt | heq
    · refine digits_lt k j hlt ?_ _ _
      rw [Nat.div_lt_iff_lt_mul (by omega)]
      rwa [Nat.pow_succ, ← Nat.mul_assoc] at hw
    · -- the numbers agree but for the last digit
      rw [heq]
      refine List.append_left_lt (List.Lex.rel ?_)
      rw [UInt8.lt_iff_toNat_lt, UInt8.toNat_ofNat', UInt8.toNat_ofNat']
      omega

theorem exists_lead (k : Nat) : ∀ j v : Nat, ∃ b rest, b < leadCount k ∧
    digits k j v = UInt8.ofNat (b + leadBase k) :: rest
  | 0, v => ⟨v % leadCount k, [], Nat.mod_lt _ (leadCount_pos k), rfl⟩
  | j + 1, v => by
    obtain ⟨b, rest, hb, h⟩ := exists_lead k j (v / 64)
    exact ⟨b, rest ++ [UInt8.ofNat (v % 64 + 0x80)], hb, by rw [digits, h, List.cons_append]⟩

/-- More trailing bytes come later. -/
theorem digits_lt_of_lead {k l : Nat} (hkl : leadCount k + leadBase k ≤ leadBase l) (j i v w : Nat)
    (x y : List UInt8) : digits k j v ++ x < digits l i w ++ y := by
  obtain ⟨a, rest, ha, hv⟩ := exists_lead k j v
  obtain ⟨b, rest', hb, hw⟩ := exists_lead l i w
  have hle := leadCount_add_leadBase l
  rw [hv, hw]
  refine List.Lex.rel ?_
  rw [UInt8.lt_iff_toNat_lt, UInt8.toNat_ofNat', UInt8.toNat_ofNat', Nat.mod_eq_of_lt (by omega),
    Nat.mod_eq_of_lt (by omega)]
  omega

theorem leadBase_le {k l : Nat} (hkl : k < l) (hl : l ≤ 3) :
    leadCount k + leadBase k ≤ leadBase l := by
  interval_cases l <;> interval_cases k <;> decide

/-- **The smaller character has the smaller bytes**, whatever follows. -/
theorem utf8EncodeChar_lt {c d : Char} (h : c < d) (x y : List UInt8) :
    String.utf8EncodeChar c ++ x < String.utf8EncodeChar d ++ y := by
  have hlt : c.val.toNat < d.val.toNat := h
  obtain ⟨k, hk, hc, -, hleast⟩ := exists_digits c
  obtain ⟨l, hl, hd, hbound, -⟩ := exists_digits d
  rw [hc, hd]
  rcases Nat.lt_trichotomy k l with hkl | rfl | hkl
  · exact digits_lt_of_lead (leadBase_le hkl hl) _ _ _ _ x y
  · exact digits_lt k k hlt hbound x y
  · -- the smaller number would not need more bytes
    have := hleast l hkl
    omega

/-! ## Names -/

theorem flatMap_encode_lt : ∀ {cs ds : List Char}, cs < ds →
    cs.flatMap String.utf8EncodeChar < ds.flatMap String.utf8EncodeChar
  | _, _, .nil => by
    rename_i d ds
    rw [List.flatMap_cons]
    cases h : String.utf8EncodeChar d with
    | nil => exact absurd h String.utf8EncodeChar_ne_nil
    | cons b rest => exact .nil
  | _, _, .rel h => by
    rw [List.flatMap_cons, List.flatMap_cons]
    exact utf8EncodeChar_lt h _ _
  | _, _, .cons h => by
    rw [List.flatMap_cons, List.flatMap_cons]
    exact List.append_left_lt (flatMap_encode_lt h)

/-- **The order of names is the order of their bytes.** -/
theorem bytes_lt_bytes {n m : String} (h : n < m) : bytes n < bytes m := by
  rw [bytes_eq, bytes_eq]
  exact flatMap_encode_lt (String.lt_iff_toList_lt.1 h)

end ViewTyping.Name
