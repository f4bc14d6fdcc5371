import Bencode.Spec.Token

/-!
# The token readers of the parser are the scanner's

A cursor inside its input stands for the bytes that are left. In those terms the
readers of `parse_sax.c` compute the scanner's tokens: they never fault, never
wrap and move nothing but the cursor.
-/

namespace Bencode

open LabelledMachine

variable {σ : Type}

/-! ## Cursors and remaining bytes -/

namespace SaxState

def rest (s : SaxState σ) : Bytes := s.input.drop s.p

def seek (s : SaxState σ) (rest : Bytes) : SaxState σ :=
  { s with p := s.input.length - rest.length }

def InBounds (s : SaxState σ) : Prop := s.p ≤ s.input.length

variable {s : SaxState σ}

@[simp] theorem seek_input (r : Bytes) : (s.seek r).input = s.input := rfl
@[simp] theorem seek_user (r : Bytes) : (s.seek r).user = s.user := rfl
@[simp] theorem seek_cb (r : Bytes) : (s.seek r).cb = s.cb := rfl
@[simp] theorem seek_depth (r : Bytes) : (s.seek r).depth = s.depth := rfl
@[simp] theorem seek_maxDepth (r : Bytes) : (s.seek r).maxDepth = s.maxDepth := rfl
@[simp] theorem seek_scopes (r : Bytes) : (s.seek r).scopes = s.scopes := rfl
@[simp] theorem seek_seek (r r' : Bytes) : (s.seek r).seek r' = s.seek r' := rfl

theorem rest_suffix (s : SaxState σ) : s.rest <:+ s.input := List.drop_suffix _ _

theorem length_rest (s : SaxState σ) : s.rest.length = s.input.length - s.p := List.length_drop

theorem rest_seek {r : Bytes} (h : r <:+ s.input) : (s.seek r).rest = r := by
  obtain ⟨pre, hpre⟩ := h
  have hlen : s.input.length - r.length = pre.length := by
    rw [← hpre, List.length_append]
    omega
  rw [rest, seek, hlen]
  show s.input.drop pre.length = r
  rw [← hpre, List.drop_left]

theorem seek_inBounds (r : Bytes) : (s.seek r).InBounds := Nat.sub_le _ _

theorem seek_rest (h : s.InBounds) : s.seek s.rest = s := by
  have hp : s.input.length - s.rest.length = s.p := by
    rw [length_rest]
    unfold InBounds at h
    omega
  rw [seek, hp]

theorem atEnd_iff : s.atEnd = true ↔ s.rest = [] := by
  simp [atEnd, rest]

theorem atEnd_of_nil (h : s.rest = []) : s.atEnd = true := atEnd_iff.mpr h

theorem not_atEnd_of_cons {b : UInt8} {bs : Bytes} (h : s.rest = b :: bs) : s.atEnd = false := by
  rw [← Bool.not_eq_true, atEnd_iff, h]
  simp

theorem peek_of_cons {b : UInt8} {bs : Bytes} (h : s.rest = b :: bs) : s.peek = .ok b := by
  have hget : s.input[s.p]? = some b := by
    have := congrArg List.head? h
    simpa [rest, List.head?_drop] using this
  rw [peek, hget]

theorem tail_suffix {b : UInt8} {bs : Bytes} (h : s.rest = b :: bs) : bs <:+ s.input :=
  (List.suffix_cons b bs).trans (h ▸ s.rest_suffix)

theorem advance_of_cons {b : UInt8} {bs : Bytes} (h : s.rest = b :: bs) :
    s.advance 1 = s.seek bs := by
  have hlen := congrArg List.length h
  rw [length_rest, List.length_cons] at hlen
  have hp : s.p + 1 = s.input.length - bs.length := by omega
  rw [advance, hp, seek]

theorem digitAhead_eq : s.digitAhead = .ok (startsWithDigit s.rest) := by
  cases h : s.rest with
  | nil => simp [digitAhead, atEnd_of_nil h, startsWithDigit, pure, Except.pure]
  | cons b bs =>
      simp [digitAhead, not_atEnd_of_cons h, peek_of_cons h, startsWithDigit, pure, Except.pure,
        bind, Except.bind]

end SaxState

/-! ## Magnitudes -/

theorem digitOf_toNat {b : UInt8} (h : isDigit b = true) :
    (digitOf b).toNat = Decimal.digitVal b := by
  rw [isDigit_eq, Decimal.isDigit_iff] at h
  have h0 : ('0'.toUInt8).toNat = 48 := rfl
  rw [digitOf, UInt8.toNat_toUInt64, UInt8.toNat_sub, h0, Decimal.digitVal]
  have := b.toNat_lt
  omega

theorem digitOf_lt {b : UInt8} (h : isDigit b = true) : (digitOf b).toNat < 10 := by
  rw [digitOf_toNat h]
  exact Decimal.digitVal_lt h

/-- The guard of `parse_unsigned` compares exactly, without wrapping. -/
theorem overflowGuard_iff {maxMag acc digit : UInt64} (hd : digit.toNat < 10)
    (hmax : 9 ≤ maxMag.toNat) :
    acc > (maxMag - digit) / 10 ↔ acc.toNat * 10 + digit.toNat > maxMag.toNat := by
  have h10 : (10 : UInt64).toNat = 10 := rfl
  have hlt := maxMag.toNat_lt
  have hsub : (maxMag - digit).toNat = maxMag.toNat - digit.toNat := by
    rw [UInt64.toNat_sub]
    omega
  rw [gt_iff_lt, UInt64.lt_iff_toNat_lt, UInt64.toNat_div, hsub, h10]
  omega

theorem accumulate_toNat {acc digit : UInt64} (h : acc.toNat * 10 + digit.toNat < 2 ^ 64) :
    (acc * 10 + digit).toNat = acc.toNat * 10 + digit.toNat := by
  have h10 : (10 : UInt64).toNat = 10 := rfl
  rw [UInt64.toNat_add, UInt64.toNat_mul, h10]
  omega

section Loop

variable {maxMag acc : UInt64} {s : SaxState σ} {b : UInt8} {bs : Bytes}

theorem unsignedLoop_stop (fuel : Nat) (h : startsWithDigit s.rest = false) :
    unsignedLoop maxMag fuel acc s = .ok (.ok, acc, s) := by
  cases fuel <;> simp [unsignedLoop, SaxState.digitAhead_eq, h]

theorem unsignedLoop_overflow (fuel : Nat) (hr : s.rest = b :: bs) (hb : isDigit b = true)
    (hover : acc > (maxMag - digitOf b) / 10) :
    unsignedLoop maxMag (fuel + 1) acc s = .ok (.errIntegerOverflow, 0, s) := by
  have hahead : s.digitAhead = .ok true := by rw [SaxState.digitAhead_eq, hr, startsWithDigit, hb]
  simp [unsignedLoop, hahead, SaxState.peek_of_cons hr, hover]

theorem unsignedLoop_next (fuel : Nat) (hr : s.rest = b :: bs) (hb : isDigit b = true)
    (hover : ¬ acc > (maxMag - digitOf b) / 10) :
    unsignedLoop maxMag (fuel + 1) acc s =
      unsignedLoop maxMag fuel (acc * 10 + digitOf b) (s.seek bs) := by
  have hahead : s.digitAhead = .ok true := by rw [SaxState.digitAhead_eq, hr, startsWithDigit, hb]
  simp [unsignedLoop, hahead, SaxState.peek_of_cons hr, hover, SaxState.advance_of_cons hr]

end Loop

def Token.unsigned (s : SaxState σ) : Token Nat → Status × UInt64 × SaxState σ
  | .ok n rest => (.ok, UInt64.ofNat n, s.seek rest)
  | .err st rest => (st, 0, s.seek rest)

theorem unsignedLoop_eq {maxMag : UInt64} (hmax : 9 ≤ maxMag.toNat) (fuel : Nat) (acc : UInt64)
    (s : SaxState σ) (hs : s.InBounds) (hfuel : s.rest.length ≤ fuel) :
    unsignedLoop maxMag fuel acc s =
      .ok ((scanDigits maxMag.toNat acc.toNat s.rest).unsigned s) := by
  induction fuel generalizing acc s with
  | zero =>
      have hnil : s.rest = [] := List.eq_nil_of_length_eq_zero (Nat.le_zero.mp hfuel)
      have hseek : s.seek [] = s := by rw [← hnil, SaxState.seek_rest hs]
      rw [unsignedLoop_stop 0 (by rw [hnil]; rfl), hnil]
      simp [scanDigits, Token.unsigned, hseek]
  | succ fuel ih =>
      have hself : s.seek s.rest = s := SaxState.seek_rest hs
      cases hr : s.rest with
      | nil =>
          rw [hr] at hself
          rw [unsignedLoop_stop _ (by rw [hr]; rfl)]
          simp [scanDigits, Token.unsigned, hself]
      | cons b bs =>
          rw [hr] at hself
          by_cases hb : isDigit b = true
          · have hd := digitOf_toNat hb
            have hguard : acc > (maxMag - digitOf b) / 10 ↔ _ :=
              overflowGuard_iff (digitOf_lt hb) hmax
            rw [hd] at hguard
            by_cases hover : acc > (maxMag - digitOf b) / 10
            · rw [unsignedLoop_overflow fuel hr hb hover]
              simp [scanDigits, hb, hguard.mp hover, Token.unsigned, hself]
            · have hle : ¬ acc.toNat * 10 + Decimal.digitVal b > maxMag.toNat := fun h =>
                hover (hguard.mpr h)
              have hacc : (acc * 10 + digitOf b).toNat = acc.toNat * 10 + Decimal.digitVal b := by
                have := maxMag.toNat_lt
                rw [← hd]
                exact accumulate_toNat (by rw [hd]; omega)
              have hrest : (s.seek bs).rest = bs := SaxState.rest_seek (SaxState.tail_suffix hr)
              have hlen : (s.seek bs).rest.length ≤ fuel := by
                rw [hrest]
                rw [hr] at hfuel
                simpa using hfuel
              rw [unsignedLoop_next fuel hr hb hover, ih _ _ (SaxState.seek_inBounds bs) hlen, hacc,
                hrest]
              have hscan : scanDigits maxMag.toNat acc.toNat (b :: bs) =
                  scanDigits maxMag.toNat (acc.toNat * 10 + Decimal.digitVal b) bs := by
                rw [scanDigits, if_pos hb, if_neg hle]
              rw [hscan]
              cases scanDigits maxMag.toNat (acc.toNat * 10 + Decimal.digitVal b) bs <;> rfl
          · rw [unsignedLoop_stop _ (by rw [hr, startsWithDigit]; simpa using hb)]
            simp [scanDigits, hb, Token.unsigned, hself]

theorem parseUnsigned_digit {maxMag : UInt64} {s : SaxState σ} {b : UInt8} {bs : Bytes}
    (hr : s.rest = b :: bs) (hb : isDigit b = true) :
    parseUnsigned s maxMag =
      if b = '0'.toUInt8 ∧ startsWithDigit bs = true then .ok (.errIntegerFormat, 0, s.seek bs)
      else unsignedLoop maxMag s.input.length (digitOf b) (s.seek bs) := by
  have hahead : (s.seek bs).digitAhead = .ok (startsWithDigit bs) := by
    rw [SaxState.digitAhead_eq, SaxState.rest_seek (SaxState.tail_suffix hr)]
  by_cases hz : b = '0'.toUInt8
  · have hz0 : isDigit '0'.toUInt8 = true := rfl
    cases hlead : startsWithDigit bs <;>
      simp [parseUnsigned, SaxState.not_atEnd_of_cons hr, SaxState.peek_of_cons hr,
        SaxState.advance_of_cons hr, hz, hz0, hahead, hlead]
  · simp [parseUnsigned, SaxState.not_atEnd_of_cons hr, SaxState.peek_of_cons hr, hb,
      SaxState.advance_of_cons hr, hz]

theorem parseUnsigned_eq (maxMag : UInt64) (hmax : 9 ≤ maxMag.toNat) (s : SaxState σ)
    (hs : s.InBounds) :
    parseUnsigned s maxMag = .ok ((scanNat maxMag.toNat s.rest).unsigned s) := by
  have hself : s.seek s.rest = s := SaxState.seek_rest hs
  cases hr : s.rest with
  | nil =>
      rw [hr] at hself
      simp [parseUnsigned, SaxState.atEnd_of_nil hr, scanNat, Token.unsigned, hself]
  | cons b bs =>
      rw [hr] at hself
      by_cases hb : isDigit b = true
      · rw [parseUnsigned_digit hr hb, scanNat, if_pos hb]
        by_cases hlead : b = '0'.toUInt8 ∧ startsWithDigit bs = true
        · rw [if_pos hlead, if_pos hlead]
          rfl
        · have hrest : (s.seek bs).rest = bs := SaxState.rest_seek (SaxState.tail_suffix hr)
          rw [if_neg hlead, if_neg hlead, unsignedLoop_eq hmax _ _ _ (SaxState.seek_inBounds bs)
            (by rw [hrest]; exact (SaxState.tail_suffix hr).length_le), hrest, digitOf_toNat hb]
          cases scanDigits maxMag.toNat (Decimal.digitVal b) bs <;> rfl
      · simp [parseUnsigned, SaxState.not_atEnd_of_cons hr, SaxState.peek_of_cons hr, hb, scanNat,
          Token.unsigned, hself]

/-! ## Integers and strings -/

/-- The caps of `parse_int` are the two bounds of `int64_t`. -/
theorem signCap_toNat (negative : Bool) :
    (if negative then negMax else posMax).toNat = magnitudeCap negative := by
  cases negative <;> rfl

theorem signedValue_eq {negative : Bool} {n : Nat} (h : n ≤ magnitudeCap negative) :
    signedValue negative (UInt64.ofNat n) = .ok (Int64.ofInt (if negative then -n else n)) := by
  cases negative with
  | false => simp [signedValue, Int64.ofInt_eq_ofNat]
  | true =>
      simp only [magnitudeCap, if_true] at h
      by_cases hmin : n = 2 ^ 63
      · subst hmin
        rfl
      have hlt : n < 2 ^ 63 := by omega
      have hne : UInt64.ofNat n ≠ negMax := by
        intro heq
        have := congrArg UInt64.toNat heq
        have hneg : negMax.toNat = 2 ^ 63 := rfl
        rw [UInt64.toNat_ofNat', hneg] at this
        omega
      have hval : Int64.ofNat n ≠ Int64.minValue := by
        intro heq
        have := congrArg Int64.toInt heq
        rw [Int64.toInt_ofNat_of_lt hlt, Int64.toInt_minValue] at this
        omega
      simp [signedValue, hne, negate, hval, Int64.ofInt_eq_ofNat]

theorem ofNat_beq_zero {n : Nat} (h : n < 2 ^ 64) :
    (UInt64.ofNat n == 0) = decide (n = 0) := by
  have hiff : UInt64.ofNat n = 0 ↔ n = 0 := by
    rw [← UInt64.toNat_inj, UInt64.toNat_ofNat', UInt64.toNat_zero]
    omega
  by_cases hn : n = 0 <;> simp [hiff, hn]

def Token.answer {α : Type} (s : SaxState σ) (event : α → Bytes → Event) :
    Token α → Status × SaxState σ
  | .ok a rest => (s.seek rest).notify (event a rest)
  | .err st rest => (st, s.seek rest)

section Ends

variable {ρ : Type} (tell : SaxState σ → Event → ρ) (fail : Status → SaxState σ → ρ)

/-- `parse_int` once the magnitude has been read, with the callback and the errors left open. -/
def parseIntEndWith (negative : Bool) (mag : UInt64) (s : SaxState σ) : SaxM ρ := do
  if negative && mag == 0 then return fail .errIntegerFormat s
  if s.atEnd then return fail .errTruncated s
  if (← s.peek) ≠ 'e'.toUInt8 then return fail .errUnexpectedByte s
  let s := s.advance 1
  let value ← signedValue negative mag
  return tell s (.int value)

def parseIntBodyWith (negative : Bool) (s : SaxState σ) : SaxM ρ := do
  if s.atEnd then return fail .errTruncated s
  if !isDigit (← s.peek) then return fail .errIntegerFormat s
  let (st, mag, s) ← parseUnsigned s (if negative then negMax else posMax)
  if st ≠ .ok then return fail st s
  parseIntEndWith tell fail negative mag s

def parseIntWith (s : SaxState σ) : SaxM ρ := do
  let s := s.advance 1
  let negative ← if s.atEnd then pure false else pure ((← s.peek) == '-'.toUInt8)
  parseIntBodyWith tell fail negative (if negative then s.advance 1 else s)

def Token.outcome {α : Type} (s : SaxState σ) (event : α → Bytes → Event) : Token α → ρ
  | .ok a rest => tell (s.seek rest) (event a rest)
  | .err st rest => fail st (s.seek rest)

theorem parseIntEndWith_eq {negative : Bool} {n : Nat} (h : n ≤ magnitudeCap negative)
    (s : SaxState σ) (hs : s.InBounds) :
    parseIntEndWith tell fail negative (UInt64.ofNat n) s =
      .ok (Token.outcome tell fail s (fun i _ => .int i)
        (if negative ∧ n = 0 then .err .errIntegerFormat s.rest
          else scanEnd 'e'.toUInt8 (Int64.ofInt (if negative then -n else n)) s.rest)) := by
  have hself : s.seek s.rest = s := SaxState.seek_rest hs
  have hlt : n < 2 ^ 64 := by
    unfold magnitudeCap at h
    split at h <;> omega
  have hzero : (negative && (UInt64.ofNat n == 0)) = decide (negative = true ∧ n = 0) := by
    rw [ofNat_beq_zero hlt, Bool.decide_and, Bool.decide_eq_true]
  by_cases hneg : negative = true ∧ n = 0
  · rw [if_pos hneg, parseIntEndWith, hzero, decide_eq_true hneg]
    simp [Token.outcome, hself]
  rw [if_neg hneg, parseIntEndWith, hzero, decide_eq_false hneg]
  cases hr : s.rest with
  | nil =>
      rw [hr] at hself
      simp [SaxState.atEnd_of_nil hr, scanEnd, Token.outcome, hself]
  | cons c cs =>
      rw [hr] at hself
      by_cases hc : c = 'e'.toUInt8
      · simp [SaxState.not_atEnd_of_cons hr, SaxState.peek_of_cons hr, hc, scanEnd,
          signedValue_eq h, SaxState.advance_of_cons hr, Token.outcome]
      · simp [SaxState.not_atEnd_of_cons hr, SaxState.peek_of_cons hr, hc, scanEnd, Token.outcome,
          hself]

theorem parseIntBodyWith_eq (negative : Bool) (s : SaxState σ) (hs : s.InBounds) :
    parseIntBodyWith tell fail negative s =
      .ok ((scanMagnitude negative s.rest).outcome tell fail s fun i _ => .int i) := by
  have hself : s.seek s.rest = s := SaxState.seek_rest hs
  have hcap := signCap_toNat negative
  have hunsigned := parseUnsigned_eq _ (hcap ▸ nine_le_magnitudeCap negative) s hs
  rw [hcap] at hunsigned
  cases hr : s.rest with
  | nil =>
      rw [hr] at hself
      simp [parseIntBodyWith, SaxState.atEnd_of_nil hr, scanMagnitude, scanNat, Token.outcome,
        hself]
  | cons b bs =>
      rw [hr] at hself hunsigned
      by_cases hb : isDigit b = true
      swap
      · simp [parseIntBodyWith, SaxState.not_atEnd_of_cons hr, SaxState.peek_of_cons hr, hb,
          scanMagnitude, scanNat_not_digit hb, Token.outcome, hself]
      have hsuf := scanNat_suffix (magnitudeCap negative) (b :: bs)
      cases hscan : scanNat (magnitudeCap negative) (b :: bs) with
      | err st rest =>
          rw [hscan] at hunsigned
          simp [parseIntBodyWith, SaxState.not_atEnd_of_cons hr, SaxState.peek_of_cons hr, hb,
            hunsigned, Token.unsigned, scanNat_err hscan, scanMagnitude, hscan, Token.outcome]
      | ok n rest =>
          rw [hscan] at hunsigned hsuf
          have hle : n ≤ magnitudeCap negative := scanNat_le (nine_le_magnitudeCap negative) hscan
          have hrest : (s.seek rest).rest = rest :=
            SaxState.rest_seek (List.IsSuffix.trans hsuf (hr ▸ s.rest_suffix))
          have hend := parseIntEndWith_eq tell fail hle (s.seek rest) (SaxState.seek_inBounds rest)
          rw [hrest] at hend
          have hbody : parseIntBodyWith tell fail negative s =
              parseIntEndWith tell fail negative (UInt64.ofNat n) (s.seek rest) := by
            simp [parseIntBodyWith, SaxState.not_atEnd_of_cons hr, SaxState.peek_of_cons hr, hb,
              hunsigned, Token.unsigned]
          rw [hbody, hend, scanMagnitude, hscan]
          dsimp only
          split
          · rfl
          · cases scanEnd 'e'.toUInt8 (Int64.ofInt (if negative then -n else n)) rest <;> rfl

theorem parseIntWith_eq (s : SaxState σ) {b : UInt8} {bs : Bytes} (hr : s.rest = b :: bs) :
    parseIntWith tell fail s = .ok ((scanInt bs).outcome tell fail s fun i _ => .int i) := by
  have hrest : (s.seek bs).rest = bs := SaxState.rest_seek (SaxState.tail_suffix hr)
  have hsame : ∀ (r : Bytes) (t : Token Int64),
      t.outcome tell fail (s.seek r) (fun i _ => .int i) =
        t.outcome tell fail s fun i _ => .int i := by
    intro r t
    cases t <;> rfl
  cases hbs : bs with
  | nil =>
      have hnil : (s.seek []).rest = [] := by rw [← hbs, hrest, hbs]
      have hbody := parseIntBodyWith_eq tell fail false (s.seek []) (SaxState.seek_inBounds [])
      rw [hnil] at hbody
      rw [hbs] at hr
      simp [parseIntWith, SaxState.advance_of_cons hr, SaxState.atEnd_of_nil hnil, hbody, scanInt,
        hsame]
  | cons c cs =>
      rw [hbs] at hr hrest
      by_cases hc : c = '-'.toUInt8
      · have hcs : (s.seek cs).rest = cs := by
          rw [← SaxState.seek_seek (c :: cs) cs, SaxState.rest_seek (SaxState.tail_suffix hrest)]
        have hbody := parseIntBodyWith_eq tell fail true (s.seek cs) (SaxState.seek_inBounds cs)
        rw [hcs] at hbody
        have hadv : (s.seek (c :: cs)).advance 1 = s.seek cs := SaxState.advance_of_cons hrest
        subst hc
        simp [parseIntWith, SaxState.advance_of_cons hr, SaxState.not_atEnd_of_cons hrest,
          SaxState.peek_of_cons hrest, hadv, hbody, scanInt, hsame]
      · have hbody :=
          parseIntBodyWith_eq tell fail false (s.seek (c :: cs)) (SaxState.seek_inBounds _)
        rw [hrest] at hbody
        have hne : (c == '-'.toUInt8) = false := by simpa using hc
        simp [parseIntWith, SaxState.advance_of_cons hr, SaxState.not_atEnd_of_cons hrest,
          SaxState.peek_of_cons hrest, hne, hbody, scanInt, hc, hsame]

end Ends

theorem parseInt_with (s : SaxState σ) : parseInt s = parseIntWith SaxState.notify Prod.mk s := rfl

theorem parseInt_eq (s : SaxState σ) {b : UInt8} {bs : Bytes} (hr : s.rest = b :: bs) :
    parseInt s = .ok ((scanInt bs).answer s fun i _ => .int i) := by
  rw [parseInt_with, parseIntWith_eq SaxState.notify Prod.mk s hr]
  cases scanInt bs <;> rfl

def Token.payload (s : SaxState σ) : Token Bytes → Status × Nat × Nat × SaxState σ
  | .ok bytes rest => (.ok, s.input.length - rest.length - bytes.length, bytes.length, s.seek rest)
  | .err st rest => (st, 0, 0, s.seek rest)

theorem parseString_eq (s : SaxState σ) (hs : s.InBounds) :
    parseString s = .ok ((scanString s.rest).payload s) := by
  have hmax : (UInt64.ofNat sizeMax).toNat = sizeMax := by decide
  have hunsigned := parseUnsigned_eq (UInt64.ofNat sizeMax) (by decide) s hs
  rw [hmax] at hunsigned
  have hsuf := scanNat_suffix sizeMax s.rest
  cases hscan : scanNat sizeMax s.rest with
  | err st rest =>
      rw [hscan] at hunsigned
      simp [parseString, hunsigned, Token.unsigned, scanNat_err hscan, scanString, hscan,
        Token.payload]
  | ok n rest =>
      rw [hscan] at hunsigned hsuf
      have hin : rest <:+ s.input := List.IsSuffix.trans hsuf s.rest_suffix
      have hrest : (s.seek rest).rest = rest := SaxState.rest_seek hin
      cases rest with
      | nil =>
          simp [parseString, hunsigned, Token.unsigned, SaxState.atEnd_of_nil hrest, scanString,
            hscan, scanEnd, Token.payload]
      | cons c cs =>
          by_cases hc : c = ':'.toUInt8
          swap
          · simp [parseString, hunsigned, Token.unsigned, SaxState.not_atEnd_of_cons hrest,
              SaxState.peek_of_cons hrest, hc, scanString, hscan, scanEnd, Token.payload]
          subst hc
          have hadv : (s.seek (':'.toUInt8 :: cs)).advance 1 = s.seek cs :=
            SaxState.advance_of_cons hrest
          have hmag : (UInt64.ofNat n).toNat = n := by
            have := scanNat_le (by decide) hscan
            rw [UInt64.toNat_ofNat']
            unfold sizeMax sizeMod at this
            omega
          have hcs : cs.length ≤ s.input.length := ((List.suffix_cons _ cs).trans hin).length_le
          have hremaining : s.input.length - (s.seek cs).p = cs.length := by
            simp only [SaxState.seek]
            omega
          by_cases hlen : n > cs.length
          · simp [parseString, hunsigned, Token.unsigned, SaxState.not_atEnd_of_cons hrest,
              SaxState.peek_of_cons hrest, hadv, hmag, hremaining, hlen, scanString, hscan,
              scanEnd, Token.payload]
          · have htake : min n cs.length = n := by omega
            have hp : (s.seek cs).p = s.input.length - (cs.length - n) - n := by
              simp only [SaxState.seek]
              omega
            have hskip : (s.seek cs).advance n = s.seek (cs.drop n) := by
              simp only [SaxState.advance, SaxState.seek, List.length_drop]
              congr 1
              omega
            simp [parseString, hunsigned, Token.unsigned, SaxState.not_atEnd_of_cons hrest,
              SaxState.peek_of_cons hrest, hadv, hmag, hremaining, hlen, scanString, hscan,
              scanEnd, Token.payload, hskip, htake]
            exact hp

end Bencode
