import Mathlib.Data.Nat.Digits.Lemmas
import Mathlib.Data.UInt

/-! # ASCII decimal numerals

Numerals are byte strings. `format` prints a number the way C does; `value` reads
a digit string from the left. A digit string without a superfluous leading zero
is the numeral of its value, and of no other number.
-/

namespace Decimal

def isDigit (b : UInt8) : Bool := '0'.toUInt8 ≤ b && b ≤ '9'.toUInt8

def digitVal (b : UInt8) : Nat := b.toNat - 48

def digitChar (d : Nat) : UInt8 := '0'.toUInt8 + UInt8.ofNat d

def format (n : Nat) : List UInt8 :=
  if n = 0 then ['0'.toUInt8] else (Nat.digits 10 n).reverse.map digitChar

/-- The value of a digit string read after a prefix of value `acc`. -/
def value (acc : Nat) (ds : List UInt8) : Nat := ds.foldl (fun n b => n * 10 + digitVal b) acc

/-- A digit string with no leading zero, except for the zero itself. -/
def Canonical (ds : List UInt8) : Prop :=
  ds ≠ [] ∧ (∀ b ∈ ds, isDigit b = true) ∧ (ds.head? = some '0'.toUInt8 → ds.length = 1)

/-! ## Single digits -/

theorem isDigit_iff (b : UInt8) : isDigit b = true ↔ 48 ≤ b.toNat ∧ b.toNat ≤ 57 := by
  simp only [isDigit, Bool.and_eq_true, decide_eq_true_eq, UInt8.le_iff_toNat_le]
  exact Iff.rfl

theorem digitVal_lt {b : UInt8} (h : isDigit b = true) : digitVal b < 10 := by
  rw [isDigit_iff] at h
  unfold digitVal
  omega

theorem digitChar_toNat {d : Nat} (h : d < 10) : (digitChar d).toNat = 48 + d := by
  have h0 : ('0'.toUInt8).toNat = 48 := rfl
  rw [digitChar, UInt8.toNat_add, h0, UInt8.toNat_ofNat']
  omega

theorem isDigit_digitChar {d : Nat} (h : d < 10) : isDigit (digitChar d) = true := by
  rw [isDigit_iff, digitChar_toNat h]
  omega

theorem digitVal_digitChar {d : Nat} (h : d < 10) : digitVal (digitChar d) = d := by
  rw [digitVal, digitChar_toNat h]
  omega

theorem digitChar_digitVal {b : UInt8} (h : isDigit b = true) : digitChar (digitVal b) = b := by
  apply UInt8.toNat_inj.mp
  rw [digitChar_toNat (digitVal_lt h)]
  rw [isDigit_iff] at h
  unfold digitVal
  omega

theorem digitVal_eq_zero {b : UInt8} (h : isDigit b = true) :
    digitVal b = 0 ↔ b = '0'.toUInt8 := by
  rw [isDigit_iff] at h
  constructor
  · intro hz
    apply UInt8.toNat_inj.mp
    have h0 : ('0'.toUInt8).toNat = 48 := rfl
    unfold digitVal at hz
    omega
  · intro hb
    rw [hb]
    decide

/-! ## Values -/

@[simp] theorem value_nil (acc : Nat) : value acc [] = acc := rfl

@[simp] theorem value_cons (acc : Nat) (b : UInt8) (ds : List UInt8) :
    value acc (b :: ds) = value (acc * 10 + digitVal b) ds := by
  simp only [value, List.foldl_cons]

theorem le_value (acc : Nat) (ds : List UInt8) : acc ≤ value acc ds := by
  induction ds generalizing acc with
  | nil => exact Nat.le_refl _
  | cons b ds ih =>
      have h := ih (acc * 10 + digitVal b)
      rw [value_cons]
      omega

theorem value_eq_ofDigits (ds : List UInt8) :
    value 0 ds = Nat.ofDigits 10 (ds.map digitVal).reverse := by
  rw [Nat.ofDigits_eq_foldr, List.foldr_reverse, List.foldl_map, value]
  congr 1
  funext n b
  simp only [Nat.cast_id]
  omega

/-! ## Numerals -/

theorem format_ne_nil (n : Nat) : format n ≠ [] := by
  unfold format
  split
  · simp
  · next h => simpa [Nat.digits_eq_nil_iff_eq_zero] using h

theorem format_digits {n : Nat} {b : UInt8} (h : b ∈ format n) : isDigit b = true := by
  unfold format at h
  split at h
  · rw [List.mem_singleton.mp h]
    rfl
  · obtain ⟨d, hd, rfl⟩ := List.mem_map.mp h
    exact isDigit_digitChar (Nat.digits_lt_base (by decide) (List.mem_reverse.mp hd))

theorem map_digitVal_format {n : Nat} (h : n ≠ 0) :
    (format n).map digitVal = (Nat.digits 10 n).reverse := by
  have hid : ∀ d ∈ (Nat.digits 10 n).reverse, (digitVal ∘ digitChar) d = id d := by
    intro d hd
    exact digitVal_digitChar (Nat.digits_lt_base (by decide) (List.mem_reverse.mp hd))
  rw [format, if_neg h, List.map_map, List.map_congr_left hid, List.map_id]

theorem value_format (n : Nat) : value 0 (format n) = n := by
  by_cases h : n = 0
  · subst h; rfl
  · rw [value_eq_ofDigits, map_digitVal_format h, List.reverse_reverse, Nat.ofDigits_digits]

/-- A canonical digit string is the numeral of its value. -/
theorem format_value {ds : List UInt8} (h : Canonical ds) : format (value 0 ds) = ds := by
  obtain ⟨hne, hdig, hlead⟩ := h
  obtain ⟨b, ds, rfl⟩ := List.exists_cons_of_ne_nil hne
  have hb : isDigit b = true := hdig b List.mem_cons_self
  by_cases hz : b = '0'.toUInt8
  · have hnil : ds = [] := by simpa using hlead (by simp [hz])
    subst hnil hz
    decide
  have hlast : digitVal b ≠ 0 := fun h0 => hz ((digitVal_eq_zero hb).mp h0)
  have hpos : value 0 (b :: ds) ≠ 0 := by
    have := le_value (0 * 10 + digitVal b) ds
    rw [value_cons]
    omega
  have hdigits : Nat.digits 10 (value 0 (b :: ds)) = ((b :: ds).map digitVal).reverse := by
    rw [value_eq_ofDigits]
    apply Nat.digits_ofDigits 10 (by decide)
    · intro d hd
      obtain ⟨c, hc, rfl⟩ := List.mem_map.mp (List.mem_reverse.mp hd)
      exact digitVal_lt (hdig c hc)
    · intro _
      simpa using hlast
  have hid : ∀ c ∈ b :: ds, (digitChar ∘ digitVal) c = id c := fun c hc =>
    digitChar_digitVal (hdig c hc)
  rw [format, if_neg hpos, hdigits, List.reverse_reverse, List.map_map,
    List.map_congr_left hid, List.map_id]

/-- Only the zero itself has a numeral that starts with the digit zero. -/
theorem format_canonical (n : Nat) : Canonical (format n) := by
  refine ⟨format_ne_nil n, fun b hb => format_digits hb, ?_⟩
  intro hhead
  by_cases h : n = 0
  · subst h
    rfl
  exfalso
  have hne : Nat.digits 10 n ≠ [] := by simpa [Nat.digits_eq_nil_iff_eq_zero] using h
  have hlast := Nat.getLast_digit_ne_zero 10 h
  have hlt : (Nat.digits 10 n).getLast hne < 10 :=
    Nat.digits_lt_base (by decide) (List.getLast_mem hne)
  rw [format, if_neg h, List.head?_map, List.head?_reverse, List.getLast?_eq_getLast_of_ne_nil hne]
    at hhead
  simp only [Option.map_some, Option.some.injEq] at hhead
  apply hlast
  rw [← digitVal_digitChar hlt, hhead]
  decide

theorem length_format_le {n k : Nat} (hk : 0 < k) (h : n < 10 ^ k) : (format n).length ≤ k := by
  unfold format
  split
  · exact hk
  · rw [List.length_map, List.length_reverse]
    exact (Nat.digits_length_le_iff (by decide) n).mpr h

end Decimal
