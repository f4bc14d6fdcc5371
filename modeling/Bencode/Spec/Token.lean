import Bencode.Spec.Scanner

/-!
# Tokens are exactly the canonical encodings of their values

A token reader of the scanner accepts the canonical encoding of a value followed
by anything, and nothing else. What it leaves, also on failure, is a suffix.
-/

namespace Bencode

/-! ## Tokens leave a suffix -/

namespace Token

variable {α : Type}

def left : Token α → Bytes
  | ok _ rest => rest
  | err _ rest => rest

@[simp] theorem left_ok (a : α) (rest : Bytes) : (ok a rest).left = rest := rfl
@[simp] theorem left_err (st : Status) (rest : Bytes) : (err st rest : Token α).left = rest := rfl

end Token

theorem scanDigits_suffix (cap acc : Nat) (bs : Bytes) : (scanDigits cap acc bs).left <:+ bs := by
  induction bs generalizing acc with
  | nil => exact List.suffix_refl _
  | cons b bs ih =>
      simp only [scanDigits]
      split
      · split
        · exact List.suffix_refl _
        · exact (ih _).trans (List.suffix_cons b bs)
      · exact List.suffix_refl _

theorem scanNat_suffix (cap : Nat) (bs : Bytes) : (scanNat cap bs).left <:+ bs := by
  cases bs with
  | nil => exact List.suffix_refl _
  | cons b bs =>
      simp only [scanNat]
      split
      · split
        · exact List.suffix_cons b bs
        · exact (scanDigits_suffix cap _ bs).trans (List.suffix_cons b bs)
      · exact List.suffix_refl _

theorem scanEnd_suffix {α : Type} (close : UInt8) (a : α) (bs : Bytes) :
    (scanEnd close a bs).left <:+ bs := by
  cases bs with
  | nil => exact List.suffix_refl _
  | cons b bs =>
      simp only [scanEnd]
      split
      · exact List.suffix_cons b bs
      · exact List.suffix_refl _

theorem scanMagnitude_suffix (negative : Bool) (bs : Bytes) :
    (scanMagnitude negative bs).left <:+ bs := by
  have hnat := scanNat_suffix (magnitudeCap negative) bs
  unfold scanMagnitude
  split
  · next h => rwa [h] at hnat
  · next n rest h =>
      rw [h] at hnat
      split
      · exact hnat
      · exact (scanEnd_suffix _ _ _).trans hnat

theorem scanInt_suffix (bs : Bytes) : (scanInt bs).left <:+ bs := by
  cases bs with
  | nil => exact scanMagnitude_suffix false []
  | cons b bs =>
      simp only [scanInt]
      split
      · exact (scanMagnitude_suffix true bs).trans (List.suffix_cons b bs)
      · exact scanMagnitude_suffix false (b :: bs)

theorem scanString_suffix (bs : Bytes) : (scanString bs).left <:+ bs := by
  have hnat := scanNat_suffix sizeMax bs
  unfold scanString
  split
  · next h => rwa [h] at hnat
  · next n rest h =>
      rw [h] at hnat
      have hend := scanEnd_suffix ':'.toUInt8 () rest
      split
      · next h' =>
          rw [h'] at hend
          exact List.IsSuffix.trans hend hnat
      · next h' =>
          rw [h'] at hend
          split
          · exact List.IsSuffix.trans hend hnat
          · exact ((List.drop_suffix _ _).trans hend).trans hnat

/-! ## Caps and errors -/

theorem isDigit_eq (b : UInt8) : isDigit b = Decimal.isDigit b := rfl

theorem startsWithDigit_colon (z : Bytes) : startsWithDigit (':'.toUInt8 :: z) = false := by
  show isDigit ':'.toUInt8 = false
  decide

theorem startsWithDigit_e (z : Bytes) : startsWithDigit ('e'.toUInt8 :: z) = false := by
  show isDigit 'e'.toUInt8 = false
  decide

theorem scanDigits_le {cap acc n : Nat} {bs rest : Bytes} (hacc : acc ≤ cap)
    (h : scanDigits cap acc bs = .ok n rest) : n ≤ cap := by
  induction bs generalizing acc with
  | nil =>
      simp only [scanDigits, Token.ok.injEq] at h
      omega
  | cons b bs ih =>
      simp only [scanDigits] at h
      split at h
      · split at h
        · cases h
        · next hle => exact ih (Nat.le_of_not_lt hle) h
      · simp only [Token.ok.injEq] at h
        omega

theorem scanNat_le {cap n : Nat} {bs rest : Bytes} (hcap : 9 ≤ cap)
    (h : scanNat cap bs = .ok n rest) : n ≤ cap := by
  cases bs with
  | nil => cases h
  | cons b bs =>
      simp only [scanNat] at h
      split at h
      · next hb =>
          have hlt := Decimal.digitVal_lt hb
          split at h
          · cases h
          · exact scanDigits_le (by omega) h
      · cases h

def numberErrors : List Status :=
  [.errTruncated, .errUnexpectedByte, .errIntegerOverflow, .errIntegerFormat]

theorem ne_ok_of_mem {st : Status} (h : st ∈ numberErrors) : st ≠ .ok := by
  rintro rfl
  revert h
  decide

theorem scanDigits_err {cap acc : Nat} {bs rest : Bytes} {st : Status}
    (h : scanDigits cap acc bs = .err st rest) : st = .errIntegerOverflow := by
  induction bs generalizing acc with
  | nil => cases h
  | cons b bs ih =>
      simp only [scanDigits] at h
      split at h
      · split at h
        · cases h
          rfl
        · exact ih h
      · cases h

theorem scanNat_err_mem {cap : Nat} {bs rest : Bytes} {st : Status}
    (h : scanNat cap bs = .err st rest) : st ∈ numberErrors := by
  cases bs with
  | nil =>
      cases h
      decide
  | cons b bs =>
      simp only [scanNat] at h
      split at h
      · split at h
        · cases h
          decide
        · rw [scanDigits_err h]
          decide
      · cases h
        decide

theorem scanNat_err {cap : Nat} {bs rest : Bytes} {st : Status}
    (h : scanNat cap bs = .err st rest) : st ≠ .ok := ne_ok_of_mem (scanNat_err_mem h)

theorem scanNat_not_digit {cap : Nat} {b : UInt8} {bs : Bytes} (hb : ¬ isDigit b = true) :
    scanNat cap (b :: bs) = .err .errIntegerFormat (b :: bs) := by
  rw [scanNat, if_neg hb]

theorem scanEnd_err {α : Type} {close : UInt8} {a : α} {bs rest : Bytes} {st : Status}
    (h : scanEnd close a bs = .err st rest) : st = .errTruncated ∨ st = .errUnexpectedByte := by
  cases bs with
  | nil =>
      cases h
      exact .inl rfl
  | cons b bs =>
      simp only [scanEnd] at h
      split at h
      · cases h
      · cases h
        exact .inr rfl

theorem scanEnd_err_mem {α : Type} {close : UInt8} {a : α} {bs rest : Bytes} {st : Status}
    (h : scanEnd close a bs = .err st rest) : st ∈ numberErrors := by
  rcases scanEnd_err h with rfl | rfl <;> decide

theorem scanMagnitude_err_mem {negative : Bool} {bs rest : Bytes} {st : Status}
    (h : scanMagnitude negative bs = .err st rest) : st ∈ numberErrors := by
  unfold scanMagnitude at h
  split at h
  · next hnat =>
      cases h
      exact scanNat_err_mem hnat
  · split at h
    · cases h
      decide
    · exact scanEnd_err_mem h

theorem scanInt_err_mem {bs rest : Bytes} {st : Status} (h : scanInt bs = .err st rest) :
    st ∈ numberErrors := by
  cases bs with
  | nil =>
      simp only [scanInt] at h
      exact scanMagnitude_err_mem h
  | cons b bs =>
      simp only [scanInt] at h
      split at h
      · exact scanMagnitude_err_mem h
      · exact scanMagnitude_err_mem h

theorem scanInt_err {bs rest : Bytes} {st : Status} (h : scanInt bs = .err st rest) :
    st ≠ .ok := ne_ok_of_mem (scanInt_err_mem h)

theorem scanString_err_mem {bs rest : Bytes} {st : Status} (h : scanString bs = .err st rest) :
    st = .errStringLength ∨ st ∈ numberErrors := by
  unfold scanString at h
  split at h
  · next hnat =>
      cases h
      exact .inr (scanNat_err_mem hnat)
  · split at h
    · next hend =>
        cases h
        exact .inr (scanEnd_err_mem hend)
    · split at h
      · cases h
        exact .inl rfl
      · cases h

theorem scanString_err {bs rest : Bytes} {st : Status} (h : scanString bs = .err st rest) :
    st ≠ .ok := by
  rcases scanString_err_mem h with rfl | hmem
  · decide
  · exact ne_ok_of_mem hmem

theorem nine_le_magnitudeCap (negative : Bool) : 9 ≤ magnitudeCap negative := by
  cases negative <;> decide

/-! ## Numerals -/

theorem scanDigits_ok {cap acc n : Nat} {bs rest : Bytes} (h : scanDigits cap acc bs = .ok n rest) :
    startsWithDigit rest = false ∧ ∃ ds, bs = ds ++ rest ∧ (∀ b ∈ ds, Decimal.isDigit b = true) ∧
      n = Decimal.value acc ds := by
  induction bs generalizing acc with
  | nil =>
      cases h
      exact ⟨rfl, [], rfl, by simp, rfl⟩
  | cons b bs ih =>
      simp only [scanDigits] at h
      split at h
      · next hb =>
          split at h
          · cases h
          · obtain ⟨hstop, ds, rfl, hds, rfl⟩ := ih h
            exact ⟨hstop, b :: ds, rfl, List.forall_mem_cons.mpr ⟨hb, hds⟩,
              by rw [Decimal.value_cons]⟩
      · next hb =>
          cases h
          exact ⟨by simpa [startsWithDigit] using hb, [], rfl, by simp, rfl⟩

theorem scanDigits_append {cap acc : Nat} {ds rest : Bytes}
    (hds : ∀ b ∈ ds, Decimal.isDigit b = true) (hstop : startsWithDigit rest = false)
    (hcap : Decimal.value acc ds ≤ cap) :
    scanDigits cap acc (ds ++ rest) = .ok (Decimal.value acc ds) rest := by
  induction ds generalizing acc with
  | nil =>
      cases rest with
      | nil => rfl
      | cons b bs =>
          have hb : ¬ isDigit b = true := by simpa [startsWithDigit] using hstop
          simp only [List.nil_append, scanDigits, if_neg hb, Decimal.value_nil]
  | cons b ds ih =>
      have hb : isDigit b = true := hds b List.mem_cons_self
      rw [Decimal.value_cons] at hcap ⊢
      have hle : ¬ acc * 10 + Decimal.digitVal b > cap :=
        Nat.not_lt_of_le ((Decimal.le_value _ ds).trans hcap)
      rw [List.cons_append, scanDigits, if_pos hb, if_neg hle]
      exact ih (fun c hc => hds c (List.mem_cons_of_mem b hc)) hcap

theorem canonical_cons {b : UInt8} {ds rest : Bytes} (hb : isDigit b = true)
    (hds : ∀ c ∈ ds, Decimal.isDigit c = true)
    (hlead : ¬ (b = '0'.toUInt8 ∧ startsWithDigit (ds ++ rest) = true)) :
    Decimal.Canonical (b :: ds) := by
  refine ⟨by simp, List.forall_mem_cons.mpr ⟨hb, hds⟩, ?_⟩
  intro hzero
  cases ds with
  | nil => rfl
  | cons c ds => exact absurd ⟨by simpa using hzero, hds c List.mem_cons_self⟩ hlead

/-- The value of digits, whether the first one is read apart or not. -/
theorem value_digitVal (b : UInt8) (ds : Bytes) :
    Decimal.value (Decimal.digitVal b) ds = Decimal.value 0 (b :: ds) := by
  rw [Decimal.value_cons, Nat.zero_mul, Nat.zero_add]

theorem scanNat_ok {cap n : Nat} {bs rest : Bytes} (h : scanNat cap bs = .ok n rest) :
    bs = formatNat n ++ rest ∧ startsWithDigit rest = false := by
  cases bs with
  | nil => cases h
  | cons b bs =>
      simp only [scanNat] at h
      split at h
      · next hb =>
          split at h
          · cases h
          · next hlead =>
              obtain ⟨hstop, ds, rfl, hds, rfl⟩ := scanDigits_ok h
              rw [value_digitVal, formatNat, Decimal.format_value (canonical_cons hb hds hlead)]
              exact ⟨rfl, hstop⟩
      · cases h

/-- A printed number is read digit by digit, unless more digits follow. -/
theorem scanNat_eq_scanDigits (cap n : Nat) {rest : Bytes} (hstop : startsWithDigit rest = false) :
    ∃ b ds, formatNat n = b :: ds ∧ isDigit b = true ∧ (∀ c ∈ ds, Decimal.isDigit c = true) ∧
      Decimal.value (Decimal.digitVal b) ds = n ∧
      scanNat cap (formatNat n ++ rest) = scanDigits cap (Decimal.digitVal b) (ds ++ rest) := by
  obtain ⟨b, ds, hfmt⟩ := List.exists_cons_of_ne_nil (Decimal.format_ne_nil n)
  have hcanon := Decimal.format_canonical n
  have hvalue := Decimal.value_format n
  rw [hfmt] at hcanon hvalue
  obtain ⟨-, hdig, hlead⟩ := hcanon
  have hb : isDigit b = true := hdig b List.mem_cons_self
  have hzero : ¬ (b = '0'.toUInt8 ∧ startsWithDigit (ds ++ rest) = true) := by
    rintro ⟨rfl, hnext⟩
    have hnil : ds = [] := by simpa using hlead rfl
    rw [hnil, List.nil_append, hstop] at hnext
    cases hnext
  refine ⟨b, ds, hfmt, hb, fun c hc => hdig c (List.mem_cons_of_mem b hc),
    (value_digitVal b ds).trans hvalue, ?_⟩
  rw [formatNat, hfmt, List.cons_append, scanNat, if_pos hb, if_neg hzero]

theorem scanNat_format {cap n : Nat} {rest : Bytes} (hstop : startsWithDigit rest = false)
    (hcap : n ≤ cap) : scanNat cap (formatNat n ++ rest) = .ok n rest := by
  obtain ⟨b, ds, -, -, hds, hvalue, hscan⟩ := scanNat_eq_scanDigits cap n hstop
  rw [hscan, scanDigits_append hds hstop (hvalue.le.trans hcap), hvalue]

/-! ## Numbers out of range -/

/-- Every text begins with a run of digits, which may be empty. -/
theorem exists_digitRun (bs : Bytes) :
    ∃ ds z, bs = ds ++ z ∧ startsWithDigit z = false ∧ ∀ b ∈ ds, Decimal.isDigit b = true := by
  induction bs with
  | nil => exact ⟨[], [], rfl, rfl, by simp⟩
  | cons b bs ih =>
      by_cases hb : isDigit b = true
      · obtain ⟨ds, z, rfl, hstop, hds⟩ := ih
        exact ⟨b :: ds, z, rfl, hstop, List.forall_mem_cons.mpr ⟨hb, hds⟩⟩
      · exact ⟨[], b :: bs, rfl, by simpa [startsWithDigit] using hb, by simp⟩

/-- The loop stops at the digit that leaves the range; the digits from there on only add to it. -/
theorem scanDigits_over {cap acc : Nat} {bs rest : Bytes} {st : Status}
    (h : scanDigits cap acc bs = .err st rest) :
    ∃ ds z, bs = ds ++ z ∧ startsWithDigit z = false ∧
      (∀ b ∈ ds, Decimal.isDigit b = true) ∧ cap < Decimal.value acc ds := by
  induction bs generalizing acc with
  | nil => cases h
  | cons b bs ih =>
      simp only [scanDigits] at h
      split at h
      · next hb =>
          split at h
          · next hover =>
              cases h
              obtain ⟨ds, z, rfl, hstop, hds⟩ := exists_digitRun bs
              refine ⟨b :: ds, z, rfl, hstop, List.forall_mem_cons.mpr ⟨hb, hds⟩, ?_⟩
              rw [Decimal.value_cons]
              exact hover.trans_le (Decimal.le_value _ _)
          · obtain ⟨ds, z, rfl, hstop, hds, hover⟩ := ih h
            refine ⟨b :: ds, z, rfl, hstop, List.forall_mem_cons.mpr ⟨hb, hds⟩, ?_⟩
            rwa [Decimal.value_cons]
      · cases h

theorem scanDigits_over_append {cap acc : Nat} {ds z : Bytes}
    (hds : ∀ b ∈ ds, Decimal.isDigit b = true) (hacc : acc ≤ cap)
    (hover : cap < Decimal.value acc ds) :
    ∃ rest, scanDigits cap acc (ds ++ z) = .err .errIntegerOverflow rest := by
  induction ds generalizing acc with
  | nil => exact absurd hover (Nat.not_lt_of_le hacc)
  | cons b ds ih =>
      have hb : isDigit b = true := hds b List.mem_cons_self
      rw [Decimal.value_cons] at hover
      rw [List.cons_append, scanDigits, if_pos hb]
      by_cases hstep : acc * 10 + Decimal.digitVal b > cap
      · exact ⟨_, if_pos hstep⟩
      · rw [if_neg hstep]
        exact ih (fun c hc => hds c (List.mem_cons_of_mem b hc)) (Nat.le_of_not_lt hstep) hover

/-- An overflow is reported exactly when a canonical numeral is above the cap. -/
theorem scanNat_overflow_iff {cap : Nat} (hcap : 9 ≤ cap) {bs : Bytes} :
    (∃ rest, scanNat cap bs = .err .errIntegerOverflow rest) ↔
      ∃ n z, bs = formatNat n ++ z ∧ startsWithDigit z = false ∧ cap < n := by
  constructor
  · rintro ⟨rest, h⟩
    cases bs with
    | nil => cases h
    | cons b bs =>
        simp only [scanNat] at h
        split at h
        · next hb =>
            split at h
            · cases h
            · next hlead =>
                obtain ⟨ds, z, rfl, hstop, hds, hover⟩ := scanDigits_over h
                rw [value_digitVal] at hover
                refine ⟨_, z, ?_, hstop, hover⟩
                rw [formatNat, Decimal.format_value (canonical_cons hb hds hlead),
                  List.cons_append]
        · cases h
  · rintro ⟨n, z, rfl, hstop, hover⟩
    obtain ⟨b, ds, -, hb, hds, hvalue, hscan⟩ := scanNat_eq_scanDigits cap n hstop
    rw [hscan]
    have hlt := Decimal.digitVal_lt hb
    exact scanDigits_over_append hds (by omega) (hvalue.symm ▸ hover)

theorem scanEnd_ok {α : Type} {close : UInt8} {a a' : α} {bs rest : Bytes}
    (h : scanEnd close a bs = .ok a' rest) : bs = close :: rest ∧ a' = a := by
  cases bs with
  | nil => cases h
  | cons b bs =>
      simp only [scanEnd] at h
      split at h
      · next hb =>
          cases h
          exact ⟨by rw [hb], rfl⟩
      · cases h

@[simp] theorem scanEnd_cons {α : Type} (close : UInt8) (a : α) (rest : Bytes) :
    scanEnd close a (close :: rest) = .ok a rest := by
  simp [scanEnd]

/-! ## Strings -/

theorem scanString_ok {bs bytes rest : Bytes} (h : scanString bs = .ok bytes rest) :
    bs = encodeString bytes ++ rest ∧ bytes.length ≤ sizeMax := by
  unfold scanString at h
  split at h
  · cases h
  · next n mid hnat =>
      obtain ⟨rfl, -⟩ := scanNat_ok hnat
      have hle := scanNat_le (by decide) hnat
      split at h
      · cases h
      · next tail hend =>
          obtain ⟨rfl, -⟩ := scanEnd_ok hend
          split at h
          · cases h
          · next hlen =>
              cases h
              have htake : (tail.take n).length = n := by
                rw [List.length_take]
                omega
              rw [encodeString, htake, List.append_assoc, List.cons_append, List.take_append_drop]
              exact ⟨rfl, hle⟩

theorem scanString_payload {bs bytes rest : Bytes} (h : scanString bs = .ok bytes rest) :
    bytes ++ rest <:+ bs := by
  obtain ⟨rfl, -⟩ := scanString_ok h
  rw [encodeString, List.append_assoc, List.cons_append]
  exact (List.suffix_cons _ _).trans (List.suffix_append _ _)

theorem scanString_shorter {bs bytes rest : Bytes} (h : scanString bs = .ok bytes rest) :
    rest.length < bs.length := by
  obtain ⟨rfl, -⟩ := scanString_ok h
  simp only [encodeString, List.length_append, List.length_cons]
  omega

theorem scanString_encode {bytes : Bytes} (hlen : bytes.length ≤ sizeMax) (rest : Bytes) :
    scanString (encodeString bytes ++ rest) = .ok bytes rest := by
  rw [encodeString, List.append_assoc, List.cons_append, scanString,
    scanNat_format (startsWithDigit_colon _) hlen]
  simp

/-! ## Integers -/

def signed (negative : Bool) (n : Nat) : Int := if negative then -n else n

theorem signed_toInt {negative : Bool} {n : Nat} (h : n ≤ magnitudeCap negative) :
    (Int64.ofInt (signed negative n)).toInt = signed negative n := by
  cases negative with
  | false =>
      simp only [magnitudeCap, Bool.false_eq_true, if_false, signed] at h ⊢
      exact Int64.toInt_ofInt_of_le (by omega) (by omega)
  | true =>
      simp only [magnitudeCap, if_true, signed] at h ⊢
      exact Int64.toInt_ofInt_of_le (by omega) (by omega)

theorem natAbs_le_magnitudeCap (i : Int64) :
    i.toInt.natAbs ≤ magnitudeCap (decide (i.toInt < 0)) := by
  have hlo := i.le_toInt
  have hhi := i.toInt_lt
  unfold magnitudeCap
  by_cases h : i.toInt < 0
  · rw [decide_eq_true h, if_pos rfl]
    omega
  · rw [decide_eq_false h, if_neg (by decide)]
    omega

theorem signed_natAbs (i : Int64) :
    Int64.ofInt (signed (decide (i.toInt < 0)) i.toInt.natAbs) = i := by
  have hval : signed (decide (i.toInt < 0)) i.toInt.natAbs = i.toInt := by
    unfold signed
    by_cases h : i.toInt < 0
    · rw [decide_eq_true h, if_pos rfl]
      omega
    · rw [decide_eq_false h, if_neg (by decide)]
      omega
  rw [hval, Int64.ofInt_toInt]

theorem scanMagnitude_ok {negative : Bool} {i : Int64} {bs rest : Bytes}
    (h : scanMagnitude negative bs = .ok i rest) :
    ∃ n, bs = formatNat n ++ 'e'.toUInt8 :: rest ∧ i.toInt = signed negative n ∧
      (negative = true → n ≠ 0) := by
  unfold scanMagnitude at h
  split at h
  · cases h
  · next n mid hnat =>
      have hle := scanNat_le (nine_le_magnitudeCap negative) hnat
      obtain ⟨rfl, -⟩ := scanNat_ok hnat
      split at h
      · cases h
      · next hzero =>
          obtain ⟨rfl, rfl⟩ := scanEnd_ok h
          exact ⟨n, rfl, signed_toInt hle, fun hneg h0 => hzero ⟨hneg, h0⟩⟩

theorem scanMagnitude_format {negative : Bool} {n : Nat} (hcap : n ≤ magnitudeCap negative)
    (hzero : negative = true → n ≠ 0) (rest : Bytes) :
    scanMagnitude negative (formatNat n ++ 'e'.toUInt8 :: rest) =
      .ok (Int64.ofInt (signed negative n)) rest := by
  have hz : ¬ (negative = true ∧ n = 0) := fun h => hzero h.1 h.2
  rw [scanMagnitude, scanNat_format (startsWithDigit_e rest) hcap]
  simp only [if_neg hz, scanEnd_cons]
  rfl

theorem scanInt_ok {i : Int64} {bs rest : Bytes} (h : scanInt bs = .ok i rest) :
    bs = formatInt i ++ 'e'.toUInt8 :: rest := by
  cases bs with
  | nil =>
      simp only [scanInt] at h
      obtain ⟨n, hbs, -⟩ := scanMagnitude_ok h
      simp at hbs
  | cons b bs =>
      simp only [scanInt] at h
      split at h
      · next hb =>
          obtain ⟨n, rfl, hval, hzero⟩ := scanMagnitude_ok h
          have hpos := hzero rfl
          simp only [signed, if_true] at hval
          have hneg : i.toInt < 0 := by omega
          have habs : i.toInt.natAbs = n := by omega
          rw [formatInt, if_pos hneg, habs, hb, List.cons_append]
      · obtain ⟨n, hbs, hval, -⟩ := scanMagnitude_ok h
        simp only [signed, Bool.false_eq_true, if_false] at hval
        have hneg : ¬ i.toInt < 0 := by omega
        have habs : i.toInt.natAbs = n := by omega
        rw [formatInt, if_neg hneg, habs, hbs]

theorem scanInt_format (i : Int64) (rest : Bytes) :
    scanInt (formatInt i ++ 'e'.toUInt8 :: rest) = .ok i rest := by
  have hcap := natAbs_le_magnitudeCap i
  have hval := signed_natAbs i
  unfold formatInt
  by_cases hneg : i.toInt < 0
  · rw [decide_eq_true hneg] at hcap hval
    have hzero : i.toInt.natAbs ≠ 0 := by omega
    rw [if_pos hneg, List.cons_append, scanInt, if_pos rfl,
      scanMagnitude_format hcap (fun _ => hzero), hval]
  · rw [decide_eq_false hneg] at hcap hval
    obtain ⟨b, ds, hfmt⟩ := List.exists_cons_of_ne_nil (Decimal.format_ne_nil i.toInt.natAbs)
    have hb : b ≠ '-'.toUInt8 := by
      rintro rfl
      have hdig := Decimal.format_digits (hfmt ▸ List.mem_cons_self : _ ∈ _)
      revert hdig
      decide
    have hscan := scanMagnitude_format hcap (fun h => by cases h) rest
    rw [formatNat, hfmt, List.cons_append, hval] at hscan
    rw [if_neg hneg, formatNat, hfmt, List.cons_append, scanInt, if_neg hb, hscan]

end Bencode
