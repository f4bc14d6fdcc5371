import Bencode.Sax.Lexer
import Bencode.Spec.Grammar

/-!
# Numbers are read exactly

The magnitude loop is run once more in arithmetic that gives up where 64 bits would wrap
around, and it never gives up. What it answers depends on the run of digits at the
cursor only: on whether that is a numeral, and on which side of the cap its value lies.
-/

namespace Bencode

variable {σ : Type}

/-! ## Arithmetic that notices wrapping -/

def exactSub (a b : UInt64) : Option UInt64 := if b ≤ a then some (a - b) else none

def exactMul (a b : UInt64) : Option UInt64 :=
  if a.toNat * b.toNat < 2 ^ 64 then some (a * b) else none

def exactAdd (a b : UInt64) : Option UInt64 :=
  if a.toNat + b.toNat < 2 ^ 64 then some (a + b) else none

def exactStep (acc digit : UInt64) : Option UInt64 :=
  (exactMul acc 10).bind fun tens => exactAdd tens digit

theorem exactSub_of_le {a b : UInt64} (h : b.toNat ≤ a.toNat) : exactSub a b = some (a - b) :=
  if_pos (UInt64.le_iff_toNat_le.mpr h)

theorem exactStep_of_lt {acc digit : UInt64} (h : acc.toNat * 10 + digit.toNat < 2 ^ 64) :
    exactStep acc digit = some (acc * 10 + digit) := by
  have h10 : (10 : UInt64).toNat = 10 := rfl
  have hmul : (acc * 10).toNat = acc.toNat * 10 := by
    rw [UInt64.toNat_mul, h10]
    omega
  rw [exactStep, exactMul, h10, if_pos (by omega), Option.bind_some, exactAdd, hmul, if_pos h]

/-- The loop of `parse_unsigned`; `none` when an operation would wrap. -/
def checkedLoop (maxMag : UInt64) :
    Nat → UInt64 → SaxState σ → SaxM (Option (Status × UInt64 × SaxState σ))
  | fuel, acc, s => do
    if ← s.digitAhead then
      match fuel with
      | 0 => throw .outOfFuel
      | fuel + 1 =>
          let digit := digitOf (← s.peek)
          match exactSub maxMag digit with
          | none => return none
          | some gap =>
              if acc > gap / 10 then return some (.errIntegerOverflow, 0, s)
              match exactStep acc digit with
              | none => return none
              | some acc => checkedLoop maxMag fuel acc (s.advance 1)
    else return some (.ok, acc, s)

def checkedUnsigned (s : SaxState σ) (maxMag : UInt64) :
    SaxM (Option (Status × UInt64 × SaxState σ)) := do
  if s.atEnd then return some (.errTruncated, 0, s)
  let first ← s.peek
  if !isDigit first then return some (.errIntegerFormat, 0, s)
  let s := s.advance 1
  let acc := digitOf first
  let leadingZero ← if first = '0'.toUInt8 then s.digitAhead else pure false
  if leadingZero then return some (.errIntegerFormat, 0, s)
  checkedLoop maxMag s.input.length acc s

theorem exactStep_of_guard {maxMag acc digit : UInt64} (hd : digit.toNat < 10)
    (hmax : 9 ≤ maxMag.toNat) (pass : ¬ acc > (maxMag - digit) / 10) :
    exactStep acc digit = some (acc * 10 + digit) := by
  have hle := mt (overflowGuard_iff hd hmax).mpr pass
  have hlt := maxMag.toNat_lt
  exact exactStep_of_lt (by omega)

theorem checkedLoop_eq {maxMag : UInt64} (hmax : 9 ≤ maxMag.toNat) (fuel : Nat) (acc : UInt64)
    (s : SaxState σ) :
    checkedLoop maxMag fuel acc s = (unsignedLoop maxMag fuel acc s).map some := by
  induction fuel generalizing acc s with
  | zero =>
      rw [checkedLoop, unsignedLoop, SaxState.digitAhead_eq]
      cases startsWithDigit s.rest <;> rfl
  | succ fuel ih =>
      cases hr : s.rest with
      | nil =>
          have hahead : s.digitAhead = .ok false := by rw [SaxState.digitAhead_eq, hr]; rfl
          simp [checkedLoop, unsignedLoop, hahead, Except.map]
      | cons b bs =>
          by_cases hb : isDigit b = true
          · have hahead : s.digitAhead = .ok true := by
              rw [SaxState.digitAhead_eq, hr, startsWithDigit, hb]
            have hd := digitOf_lt hb
            have hgap := exactSub_of_le (a := maxMag) (b := digitOf b) (by omega)
            by_cases hover : acc > (maxMag - digitOf b) / 10
            · rw [unsignedLoop_overflow fuel hr hb hover]
              simp [checkedLoop, hahead, SaxState.peek_of_cons hr, hgap, hover, Except.map]
            · have hstep := exactStep_of_guard hd hmax hover
              rw [unsignedLoop_next fuel hr hb hover, ← ih, ← SaxState.advance_of_cons hr]
              simp [checkedLoop, hahead, SaxState.peek_of_cons hr, hgap, hover, hstep]
          · have hahead : s.digitAhead = .ok false := by
              rw [SaxState.digitAhead_eq, hr, startsWithDigit]
              simpa using hb
            simp [checkedLoop, unsignedLoop, hahead, Except.map]

theorem checkedUnsigned_eq (s : SaxState σ) {maxMag : UInt64} (hmax : 9 ≤ maxMag.toNat) :
    checkedUnsigned s maxMag = (parseUnsigned s maxMag).map some := by
  cases hr : s.rest with
  | nil => simp [checkedUnsigned, parseUnsigned, SaxState.atEnd_of_nil hr, Except.map]
  | cons b bs =>
      have hend := SaxState.not_atEnd_of_cons hr
      have hpeek := SaxState.peek_of_cons hr
      by_cases hb : isDigit b = true
      · by_cases hzero : b = '0'.toUInt8
        · subst hzero
          cases hahead : startsWithDigit (s.advance 1).rest with
          | true =>
              simp [checkedUnsigned, parseUnsigned, hend, hpeek, hb, SaxState.digitAhead_eq,
                hahead, Except.map]
          | false =>
              simp [checkedUnsigned, parseUnsigned, hend, hpeek, hb, SaxState.digitAhead_eq,
                hahead, checkedLoop_eq hmax]
        · simp [checkedUnsigned, parseUnsigned, hend, hpeek, hb, hzero, checkedLoop_eq hmax]
      · simp [checkedUnsigned, parseUnsigned, hend, hpeek, hb, Except.map]

/-! ## The run of digits at the cursor -/

def SaxState.digitRun (s : SaxState σ) : Bytes := s.rest.takeWhile isDigit

theorem takeWhile_digits {ds z : Bytes} (hds : ∀ b ∈ ds, isDigit b = true)
    (hstop : startsWithDigit z = false) : (ds ++ z).takeWhile isDigit = ds := by
  rw [List.takeWhile_append_of_pos hds]
  cases z with
  | nil => simp
  | cons b z =>
      have hb : ¬ isDigit b = true := by simpa [startsWithDigit] using hstop
      rw [List.takeWhile_cons_of_neg hb, List.append_nil]

theorem formatNat_digits (n : Nat) : ∀ b ∈ formatNat n, isDigit b = true :=
  fun _ hb => Decimal.format_digits hb

/-- The run is a numeral exactly when a canonical number stands at the cursor. -/
theorem numeral_run_iff {bs : Bytes} {n : Nat} :
    Grammar.Numeral (bs.takeWhile isDigit) n ↔
      ∃ z, bs = formatNat n ++ z ∧ startsWithDigit z = false := by
  constructor
  · intro h
    obtain ⟨ds, z, rfl, hstop, hds⟩ := exists_digitRun bs
    rw [takeWhile_digits hds hstop] at h
    exact ⟨z, by rw [h.eq_format], hstop⟩
  · rintro ⟨z, rfl, hstop⟩
    rw [takeWhile_digits (formatNat_digits n) hstop]
    exact Grammar.numeral_format n

theorem scanNat_run {cap n : Nat} {bs rest : Bytes} (hcap : 9 ≤ cap)
    (h : scanNat cap bs = .ok n rest) :
    Grammar.Numeral (bs.takeWhile isDigit) n ∧ n ≤ cap ∧
      bs = bs.takeWhile isDigit ++ rest := by
  obtain ⟨hbs, hstop⟩ := scanNat_ok h
  have hrun : bs.takeWhile isDigit = formatNat n := by
    rw [hbs]
    exact takeWhile_digits (formatNat_digits n) hstop
  exact ⟨numeral_run_iff.mpr ⟨rest, hbs, hstop⟩, scanNat_le hcap h, hrun ▸ hbs⟩

theorem scanNat_of_run {cap n : Nat} {bs : Bytes}
    (h : Grammar.Numeral (bs.takeWhile isDigit) n) (hn : n ≤ cap) :
    ∃ rest, scanNat cap bs = .ok n rest := by
  obtain ⟨z, rfl, hstop⟩ := numeral_run_iff.mp h
  exact ⟨z, scanNat_format hstop hn⟩

theorem SaxState.seek_of_append {s : SaxState σ} (hs : s.InBounds) {pre z : Bytes}
    (h : s.rest = pre ++ z) : s.seek z = s.advance pre.length := by
  have hlen := congrArg List.length h
  rw [length_rest, List.length_append] at hlen
  unfold InBounds at hs
  have hp : s.input.length - z.length = s.p + pre.length := by omega
  rw [seek, hp, advance]

/-! ## Magnitudes -/

/-- The answer of `parse_unsigned`, told from the run of digits at the cursor. -/
structure ReadsRun (s : SaxState σ) (maxMag : UInt64) (st : Status) (mag : UInt64)
    (t : SaxState σ) : Prop where
  ok_iff : st = .ok ↔ ∃ n, Grammar.Numeral s.digitRun n ∧ n ≤ maxMag.toNat
  overflow_iff : st = .errIntegerOverflow ↔ ∃ n, Grammar.Numeral s.digitRun n ∧ maxMag.toNat < n
  value : ∀ n, Grammar.Numeral s.digitRun n → n ≤ maxMag.toNat →
    mag.toNat = n ∧ t = s.advance s.digitRun.length

theorem parseUnsigned_reads (s : SaxState σ) (hs : s.InBounds) {maxMag : UInt64}
    (hmax : 9 ≤ maxMag.toNat) :
    ∃ st mag t, parseUnsigned s maxMag = .ok (st, mag, t) ∧ ReadsRun s maxMag st mag t := by
  rw [parseUnsigned_eq maxMag hmax s hs]
  cases hscan : scanNat maxMag.toNat s.rest with
  | ok n rest =>
      obtain ⟨hnum, hle, hrest⟩ := scanNat_run hmax hscan
      have hsame : ∀ k, Grammar.Numeral s.digitRun k → k = n := by
        intro k hk
        have hformat : formatNat k = formatNat n := hk.eq_format.symm.trans hnum.eq_format
        rw [← Decimal.value_format k, ← Decimal.value_format n]
        exact congrArg _ hformat
      refine ⟨.ok, UInt64.ofNat n, s.seek rest, rfl, ?_, ?_, ?_⟩
      · exact iff_of_true rfl ⟨n, hnum, hle⟩
      · apply iff_of_false (by decide)
        rintro ⟨k, hk, hover⟩
        rw [hsame k hk] at hover
        exact absurd hle (Nat.not_le_of_lt hover)
      · intro k hk _
        rw [hsame k hk, UInt64.toNat_ofNat_of_lt' (Nat.lt_of_le_of_lt hle maxMag.toNat_lt)]
        exact ⟨rfl, SaxState.seek_of_append hs hrest⟩
  | err st rest =>
      have hno : ¬ ∃ n, Grammar.Numeral s.digitRun n ∧ n ≤ maxMag.toNat := by
        rintro ⟨n, hn, hle⟩
        obtain ⟨z, hok⟩ := scanNat_of_run hn hle
        rw [hscan] at hok
        cases hok
      refine ⟨st, 0, s.seek rest, rfl, iff_of_false (scanNat_err hscan) hno, ?_,
        fun n hn hle => absurd ⟨n, hn, hle⟩ hno⟩
      constructor
      · rintro rfl
        obtain ⟨n, z, hbs, hstop, hover⟩ := (scanNat_overflow_iff hmax).mp ⟨rest, hscan⟩
        exact ⟨n, numeral_run_iff.mpr ⟨z, hbs, hstop⟩, hover⟩
      · rintro ⟨n, hn, hover⟩
        obtain ⟨z, hbs, hstop⟩ := numeral_run_iff.mp hn
        obtain ⟨rest', h⟩ := (scanNat_overflow_iff hmax).mpr ⟨n, z, hbs, hstop, hover⟩
        rw [hscan] at h
        cases h
        rfl

/-! ## Integers -/

def IsInt64 (bs lit : Bytes) (v : Int) (z : Bytes) : Prop :=
  bs = lit ++ 'e'.toUInt8 :: z ∧ Grammar.IntLiteral lit v ∧ -2 ^ 63 ≤ v ∧ v < 2 ^ 63

theorem parseInt_reads (s : SaxState σ) (hs : s.InBounds) {bs : Bytes}
    (hr : s.rest = 'i'.toUInt8 :: bs) {lit z : Bytes} {v : Int} (h : IsInt64 bs lit v z) :
    ∃ i : Int64, i.toInt = v ∧
      parseInt s = .ok ((s.advance (lit.length + 2)).notify (.int i)) := by
  obtain ⟨rfl, hlit, hlo, hhi⟩ := h
  have hv : (Int64.ofInt v).toInt = v := Int64.toInt_ofInt_of_le (by omega) (by omega)
  refine ⟨Int64.ofInt v, hv, ?_⟩
  rw [← hv] at hlit
  have hadvance : s.seek z = s.advance (lit.length + 2) := by
    have happend : s.rest = ('i'.toUInt8 :: (lit ++ ['e'.toUInt8])) ++ z := by rw [hr]; simp
    rw [SaxState.seek_of_append hs happend]
    simp
  rw [parseInt_eq s hr, hlit.eq_format, scanInt_format, ← hlit.eq_format, ← hadvance]
  rfl

theorem parseInt_rejects (s : SaxState σ) {bs : Bytes} (hr : s.rest = 'i'.toUInt8 :: bs)
    (h : ¬ ∃ lit v z, IsInt64 bs lit v z) :
    ∃ st t, parseInt s = .ok (st, t) ∧ st ≠ .ok ∧ t.user = s.user := by
  rw [parseInt_eq s hr]
  cases hscan : scanInt bs with
  | ok i rest =>
      have hbs := scanInt_ok hscan
      have hlo := i.le_toInt
      have hhi := i.toInt_lt
      exact absurd ⟨_, _, rest, hbs, Grammar.intLiteral_format i, by omega, by omega⟩ h
  | err st rest => exact ⟨st, s.seek rest, rfl, scanInt_err hscan, rfl⟩

/-- For every cap of at least nine, `parse_unsigned` computes without wrapping around and answers
as the run of digits at the cursor demands, and `parse_int` hands over the value of every literal
of an `int64_t`, rejects everything else and negates nothing that cannot be negated. -/
theorem numerals_exact (s : SaxState σ) (inBounds : s.InBounds) :
    (∀ maxMag : UInt64, 9 ≤ maxMag.toNat →
      ∃ st mag t, parseUnsigned s maxMag = .ok (st, mag, t) ∧
        checkedUnsigned s maxMag = .ok (some (st, mag, t)) ∧ ReadsRun s maxMag st mag t) ∧
    (∀ bs, s.rest = 'i'.toUInt8 :: bs →
      (∀ lit v z, IsInt64 bs lit v z → ∃ i : Int64, i.toInt = v ∧
        parseInt s = .ok ((s.advance (lit.length + 2)).notify (.int i))) ∧
      ((¬ ∃ lit v z, IsInt64 bs lit v z) →
        ∃ st t, parseInt s = .ok (st, t) ∧ st ≠ .ok ∧ t.user = s.user)) := by
  constructor
  · intro maxMag hmax
    obtain ⟨st, mag, t, hparse, hreads⟩ := parseUnsigned_reads s inBounds hmax
    refine ⟨st, mag, t, hparse, ?_, hreads⟩
    rw [checkedUnsigned_eq s hmax, hparse]
    rfl
  · intro bs hr
    exact ⟨fun lit v z h => parseInt_reads s inBounds hr h, parseInt_rejects s hr⟩

/-- The literal of `INT64_MIN`. -/
theorem numerals_exact_min :
    ∃ i : Int64, i.toInt = -2 ^ 63 ∧
      parseInt (saxStart [105, 45, 57, 50, 50, 51, 51, 55, 50, 48, 51, 54, 56, 53, 52, 55, 55, 53,
          56, 48, 56, 101] none () 0) =
        .ok (((saxStart [105, 45, 57, 50, 50, 51, 51, 55, 50, 48, 51, 54, 56, 53, 52, 55, 55, 53,
          56, 48, 56, 101] none () 0).advance 22).notify (.int i)) := by
  have hnum : Grammar.Numeral [57, 50, 50, 51, 51, 55, 50, 48, 51, 54, 56, 53, 52, 55, 55, 53, 56,
      48, 56] 9223372036854775808 := .digits (by decide) (by decide +kernel)
  have hlit : Grammar.IntLiteral [45, 57, 50, 50, 51, 51, 55, 50, 48, 51, 54, 56, 53, 52, 55, 55,
      53, 56, 48, 56] (-2 ^ 63) := .negative hnum (by decide)
  have hexact := numerals_exact (saxStart [105, 45, 57, 50, 50, 51, 51, 55, 50, 48, 51, 54, 56, 53,
    52, 55, 55, 53, 56, 48, 56, 101] none () 0) (Nat.zero_le _)
  exact (hexact.2 _ rfl).1 _ _ [] ⟨rfl, hlit, by decide, by decide⟩

end Bencode
