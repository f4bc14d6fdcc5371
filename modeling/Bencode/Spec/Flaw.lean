import Bencode.Spec.Violation

/-!
# Where an input is flawed

A flaw splits what is left of an input into the bytes that could still be read and the
bytes at which reading them is given up. Flaws are stated on the bytes, from the parts
of a number upwards, and the scanner stops exactly at them.
-/

namespace Bencode

open LabelledMachine

/-! ## Flaws -/

/-- `NumeralFlaw cap tok rest st`: no number of at most `cap` begins `tok ++ rest`, as `rest`
shows. -/
inductive NumeralFlaw (cap : Nat) : Bytes → Bytes → Status → Prop
  | ended : NumeralFlaw cap [] [] .errTruncated
  | noDigit {b : UInt8} {z : Bytes} (h : ¬ Grammar.IsDigit b) :
      NumeralFlaw cap [] (b :: z) .errIntegerFormat
  | leadingZero {d : UInt8} {z : Bytes} (h : Grammar.IsDigit d) :
      NumeralFlaw cap ['0'.toUInt8] (d :: z) .errIntegerFormat
  | tooLarge {lit : Bytes} {d : UInt8} {z : Bytes} {m n : Nat} (small : Grammar.Numeral lit m)
      (fits : m ≤ cap) (large : Grammar.Numeral (lit ++ [d]) n) (exceeds : cap < n) :
      NumeralFlaw cap lit (d :: z) .errIntegerOverflow

/-- `CloseFlaw close rest st`: the byte `close` does not follow a complete number. -/
inductive CloseFlaw (close : UInt8) : Bytes → Status → Prop
  | ended : CloseFlaw close [] .errTruncated
  | other {b : UInt8} {z : Bytes} (noDigit : ¬ Grammar.IsDigit b) (differs : b ≠ close) :
      CloseFlaw close (b :: z) .errUnexpectedByte

inductive MagnitudeFlaw (negative : Bool) : Bytes → Bytes → Status → Prop
  | numeral {tok rest : Bytes} {st : Status} (h : NumeralFlaw (magnitudeCap negative) tok rest st) :
      MagnitudeFlaw negative tok rest st
  | negativeZero {rest : Bytes} (hneg : negative = true) :
      MagnitudeFlaw negative ['0'.toUInt8] rest .errIntegerFormat
  | close {lit rest : Bytes} {n : Nat} {st : Status} (numeral : Grammar.Numeral lit n)
      (fits : n ≤ magnitudeCap negative) (nonzero : negative = true → n ≠ 0)
      (h : CloseFlaw 'e'.toUInt8 rest st) : MagnitudeFlaw negative lit rest st

inductive IntFlaw : Bytes → Bytes → Status → Prop
  | unsigned {tok rest : Bytes} {st : Status} (noSign : (tok ++ rest).head? ≠ some '-'.toUInt8)
      (h : MagnitudeFlaw false tok rest st) : IntFlaw tok rest st
  | negative {tok rest : Bytes} {st : Status} (h : MagnitudeFlaw true tok rest st) :
      IntFlaw ('-'.toUInt8 :: tok) rest st

inductive StringFlaw : Bytes → Bytes → Status → Prop
  | numeral {tok rest : Bytes} {st : Status} (h : NumeralFlaw sizeMax tok rest st) :
      StringFlaw tok rest st
  | close {lit rest : Bytes} {n : Nat} {st : Status} (numeral : Grammar.Numeral lit n)
      (fits : n ≤ sizeMax) (h : CloseFlaw ':'.toUInt8 rest st) : StringFlaw lit rest st
  | short {lit rest : Bytes} {n : Nat} (numeral : Grammar.Numeral lit n) (fits : n ≤ sizeMax)
      (long : rest.length < n) : StringFlaw (lit ++ [':'.toUInt8]) rest .errStringLength

/-- `Flaw limit stack tok rest st`: no token begins `tok ++ rest` where the containers `stack` are
open, and `rest` is where that is seen. -/
inductive Flaw (limit : Nat) : List OpenScope → Bytes → Bytes → Status → Prop
  | ended {stack : List OpenScope} : Flaw limit stack [] [] .errTruncated
  | int {stack : List OpenScope} {tok rest : Bytes} {st : Status} (await : Awaits stack)
      (h : IntFlaw tok rest st) : Flaw limit stack ('i'.toUInt8 :: tok) rest st
  | string {stack : List OpenScope} {tok rest bs : Bytes} {b : UInt8} {st : Status}
      (first : tok ++ rest = b :: bs) (digit : Grammar.IsDigit b) (h : StringFlaw tok rest st) :
      Flaw limit stack tok rest st
  | tooDeep {stack : List OpenScope} {b : UInt8} {rest : Bytes} (await : Awaits stack)
      (opens : b = 'l'.toUInt8 ∨ b = 'd'.toUInt8) (full : limit ≤ stack.length) :
      Flaw limit stack [b] rest .errNestingTooDeep
  | noValue {stack : List OpenScope} {b : UInt8} {z : Bytes} (await : Awaits stack)
      (noInt : b ≠ 'i'.toUInt8) (noList : b ≠ 'l'.toUInt8) (noDict : b ≠ 'd'.toUInt8)
      (noDigit : ¬ Grammar.IsDigit b) (close : b = 'e'.toUInt8 → stack = []) :
      Flaw limit stack [] (b :: z) .errUnexpectedByte
  | keyRepeated {done : List (Bytes × Tree)} {below : List OpenScope} {tok k rest : Bytes}
      (key : Grammar.ByteString tok k) (fits : k.length ≤ sizeMax) (last : lastKey done = some k) :
      Flaw limit (.dict done none :: below) tok rest .errDictDuplicate
  | keyUnsorted {done : List (Bytes × Tree)} {below : List OpenScope} {tok k l rest : Bytes}
      (key : Grammar.ByteString tok k) (fits : k.length ≤ sizeMax) (last : lastKey done = some l)
      (smaller : k < l) : Flaw limit (.dict done none :: below) tok rest .errDictUnsorted
  | badKey {done : List (Bytes × Tree)} {below : List OpenScope} {b : UInt8} {z : Bytes}
      (noDigit : ¬ Grammar.IsDigit b) (close : b ≠ 'e'.toUInt8) :
      Flaw limit (.dict done none :: below) [] (b :: z) .errDictBadKey
  | missingValue {done : List (Bytes × Tree)} {k : Bytes} {below : List OpenScope} {z : Bytes} :
      Flaw limit (.dict done (some k) :: below) [] ('e'.toUInt8 :: z) .errDictMissingValue

/-! ## Numbers -/

theorem isDigit_of_grammar {b : UInt8} (h : Grammar.IsDigit b) : isDigit b = true :=
  Grammar.isDigit_iff.mp h

theorem not_isDigit_of_grammar {b : UInt8} (h : ¬ Grammar.IsDigit b) : ¬ isDigit b = true :=
  fun hb => h (Grammar.isDigit_iff.mpr hb)

theorem numeral_of_canonical {lit : Bytes} (h : Decimal.Canonical lit) :
    Grammar.Numeral lit (Decimal.value 0 lit) := by
  have hnum := Grammar.numeral_format (Decimal.value 0 lit)
  rwa [formatNat, Decimal.format_value h] at hnum

theorem numeral_canonical {lit : Bytes} {n : Nat} (h : Grammar.Numeral lit n) :
    Decimal.Canonical lit ∧ Decimal.value 0 lit = n := by
  rw [h.eq_format]
  exact ⟨Decimal.format_canonical n, Decimal.value_format n⟩

/-- The loop over digits stops before the digit that exceeds the cap. -/
theorem scanDigits_err_split {cap acc : Nat} {bs rest : Bytes} {st : Status} (hacc : acc ≤ cap)
    (h : scanDigits cap acc bs = .err st rest) :
    ∃ ds d z, bs = ds ++ d :: z ∧ rest = d :: z ∧ isDigit d = true ∧
      (∀ b ∈ ds, Decimal.isDigit b = true) ∧ Decimal.value acc ds ≤ cap ∧
      cap < Decimal.value acc (ds ++ [d]) := by
  induction bs generalizing acc with
  | nil => cases h
  | cons b bs ih =>
      simp only [scanDigits] at h
      split at h
      · next hb =>
          split at h
          · next hover =>
              cases h
              exact ⟨[], b, bs, rfl, rfl, hb, by simp, hacc, by simpa using hover⟩
          · next hle =>
              obtain ⟨ds, d, z, rfl, hrest, hd, hds, hfits, hover⟩ := ih (Nat.le_of_not_lt hle) h
              refine ⟨b :: ds, d, z, rfl, hrest, hd, List.forall_mem_cons.mpr ⟨hb, hds⟩, ?_, ?_⟩
              · rwa [Decimal.value_cons]
              · rwa [List.cons_append, Decimal.value_cons]
      · cases h

theorem scanDigits_stops {cap acc : Nat} {ds z : Bytes} {d : UInt8} (hd : isDigit d = true)
    (hds : ∀ b ∈ ds, Decimal.isDigit b = true) (hfits : Decimal.value acc ds ≤ cap)
    (hover : cap < Decimal.value acc (ds ++ [d])) :
    scanDigits cap acc (ds ++ d :: z) = .err .errIntegerOverflow (d :: z) := by
  induction ds generalizing acc with
  | nil =>
      rw [List.nil_append, Decimal.value_cons, Decimal.value_nil] at hover
      rw [List.nil_append, scanDigits, if_pos hd, if_pos hover]
  | cons b ds ih =>
      have hb : isDigit b = true := hds b List.mem_cons_self
      rw [Decimal.value_cons] at hfits
      rw [List.cons_append, Decimal.value_cons] at hover
      have hle : ¬ acc * 10 + Decimal.digitVal b > cap :=
        Nat.not_lt_of_le ((Decimal.le_value _ ds).trans hfits)
      rw [List.cons_append, scanDigits, if_pos hb, if_neg hle]
      exact ih (fun c hc => hds c (List.mem_cons_of_mem b hc)) hfits hover

theorem scanNat_flaw {cap : Nat} (hcap : 9 ≤ cap) {bs rest : Bytes} {st : Status}
    (h : scanNat cap bs = .err st rest) : ∃ tok, bs = tok ++ rest ∧ NumeralFlaw cap tok rest st := by
  cases bs with
  | nil =>
      cases h
      exact ⟨[], rfl, .ended⟩
  | cons b bs =>
      simp only [scanNat] at h
      split at h
      · next hb =>
          split at h
          · next hlead =>
              cases h
              obtain ⟨rfl, hnext⟩ := hlead
              cases rest with
              | nil => cases hnext
              | cons d z => exact ⟨['0'.toUInt8], rfl, .leadingZero (Grammar.isDigit_iff.mpr hnext)⟩
          · next hlead =>
              have hlt := Decimal.digitVal_lt hb
              have hst := scanDigits_err h
              obtain ⟨ds, d, z, rfl, rfl, hd, hds, hfits, hover⟩ :=
                scanDigits_err_split (by omega) h
              have hdigits : ∀ c ∈ ds ++ [d], Decimal.isDigit c = true := by
                intro c hc
                rcases List.mem_append.mp hc with hc | hc
                · exact hds c hc
                · rw [List.mem_singleton.mp hc]
                  exact hd
              have hsplit : ds ++ d :: z = ds ++ [d] ++ z := by simp
              have hsmall := numeral_of_canonical (canonical_cons hb hds hlead)
              rw [hsplit] at hlead
              have hlarge := numeral_of_canonical (canonical_cons hb hdigits hlead)
              rw [← value_digitVal] at hsmall hlarge
              rw [hst]
              exact ⟨b :: ds, rfl, .tooLarge hsmall hfits hlarge hover⟩
      · next hb =>
          cases h
          exact ⟨[], rfl, .noDigit fun hd => hb (Grammar.isDigit_iff.mp hd)⟩

theorem NumeralFlaw.scan {cap : Nat} {tok rest : Bytes} {st : Status}
    (h : NumeralFlaw cap tok rest st) : scanNat cap (tok ++ rest) = .err st rest := by
  cases h with
  | ended => rfl
  | noDigit h => exact scanNat_not_digit (not_isDigit_of_grammar h)
  | @leadingZero d z h =>
      have hlead : '0'.toUInt8 = '0'.toUInt8 ∧ startsWithDigit (d :: z) = true :=
        ⟨rfl, isDigit_of_grammar h⟩
      rw [List.cons_append, List.nil_append, scanNat, if_pos (by decide), if_pos hlead]
  | @tooLarge lit d z m n small fits large exceeds =>
      obtain ⟨⟨hne, hdigits, -⟩, hm⟩ := numeral_canonical small
      obtain ⟨⟨-, hdigits', hzero⟩, hn⟩ := numeral_canonical large
      obtain ⟨b, ds, rfl⟩ := List.exists_cons_of_ne_nil hne
      have hb : isDigit b = true := hdigits b List.mem_cons_self
      have hd : isDigit d = true := hdigits' d (List.mem_append_right _ List.mem_cons_self)
      have hlead : ¬ (b = '0'.toUInt8 ∧ startsWithDigit (ds ++ d :: z) = true) := by
        rintro ⟨rfl, -⟩
        have hone := hzero rfl
        simp at hone
      rw [List.cons_append, scanNat, if_pos hb, if_neg hlead]
      rw [← value_digitVal] at hm
      rw [List.cons_append, ← value_digitVal] at hn
      exact scanDigits_stops hd (fun c hc => hdigits c (List.mem_cons_of_mem b hc))
        (hm.trans_le fits) (hn.symm ▸ exceeds)

/-! ## Tokens -/

theorem scanEnd_flaw {α : Type} {close : UInt8} {a : α} {bs rest : Bytes} {st : Status}
    (stop : startsWithDigit bs = false) (h : scanEnd close a bs = .err st rest) :
    bs = rest ∧ CloseFlaw close rest st := by
  cases bs with
  | nil =>
      cases h
      exact ⟨rfl, .ended⟩
  | cons b bs =>
      simp only [scanEnd] at h
      split at h
      · cases h
      · next hb =>
          cases h
          refine ⟨rfl, .other ?_ hb⟩
          rw [Grammar.isDigit_iff]
          exact Bool.eq_false_iff.mp stop

theorem CloseFlaw.scan {α : Type} {close : UInt8} (a : α) {rest : Bytes} {st : Status}
    (h : CloseFlaw close rest st) :
    startsWithDigit rest = false ∧ scanEnd close a rest = .err st rest := by
  cases h with
  | ended => exact ⟨rfl, rfl⟩
  | other noDigit differs =>
      exact ⟨Bool.eq_false_iff.mpr (not_isDigit_of_grammar noDigit), by rw [scanEnd, if_neg differs]⟩

theorem scanMagnitude_flaw {negative : Bool} {bs rest : Bytes} {st : Status}
    (h : scanMagnitude negative bs = .err st rest) :
    ∃ tok, bs = tok ++ rest ∧ MagnitudeFlaw negative tok rest st := by
  have hcap := nine_le_magnitudeCap negative
  unfold scanMagnitude at h
  split at h
  · next hnat =>
      cases h
      obtain ⟨tok, hbs, hflaw⟩ := scanNat_flaw hcap hnat
      exact ⟨tok, hbs, .numeral hflaw⟩
  · next n mid hnat =>
      have hle := scanNat_le hcap hnat
      obtain ⟨hbs, hstop⟩ := scanNat_ok hnat
      split at h
      · next hzero =>
          cases h
          obtain ⟨hneg, rfl⟩ := hzero
          exact ⟨_, hbs, .negativeZero hneg⟩
      · next hzero =>
          obtain ⟨rfl, hclose⟩ := scanEnd_flaw hstop h
          exact ⟨_, hbs, .close (Grammar.numeral_format n) hle (fun hneg h0 => hzero ⟨hneg, h0⟩)
            hclose⟩

theorem MagnitudeFlaw.scan {negative : Bool} {tok rest : Bytes} {st : Status}
    (h : MagnitudeFlaw negative tok rest st) :
    scanMagnitude negative (tok ++ rest) = .err st rest := by
  cases h with
  | numeral h => rw [scanMagnitude, h.scan]
  | negativeZero hneg =>
      cases hstart : startsWithDigit rest with
      | false =>
          have hnat : scanNat (magnitudeCap negative) (['0'.toUInt8] ++ rest) = .ok 0 rest :=
            scanNat_format (n := 0) hstart (Nat.zero_le _)
          rw [scanMagnitude, hnat]
          exact if_pos ⟨hneg, rfl⟩
      | true =>
          obtain ⟨d, z, rfl⟩ : ∃ d z, rest = d :: z := by
            cases rest with
            | nil => cases hstart
            | cons d z => exact ⟨d, z, rfl⟩
          have hflaw : NumeralFlaw (magnitudeCap negative) ['0'.toUInt8] (d :: z)
              .errIntegerFormat := .leadingZero (Grammar.isDigit_iff.mpr hstart)
          rw [scanMagnitude, hflaw.scan]
  | @close _ _ n _ numeral fits nonzero h =>
      have hend := h.scan (Int64.ofInt (if negative then -n else n))
      have hzero : ¬ (negative = true ∧ n = 0) := fun hz => nonzero hz.1 hz.2
      rw [numeral.eq_format, scanMagnitude, scanNat_format hend.1 fits]
      dsimp only
      rw [if_neg hzero, hend.2]

theorem scanInt_flaw {bs rest : Bytes} {st : Status} (h : scanInt bs = .err st rest) :
    ∃ tok, bs = tok ++ rest ∧ IntFlaw tok rest st := by
  cases bs with
  | nil =>
      simp only [scanInt] at h
      obtain ⟨tok, hbs, hflaw⟩ := scanMagnitude_flaw h
      exact ⟨tok, hbs, .unsigned (by rw [← hbs]; simp) hflaw⟩
  | cons b bs =>
      simp only [scanInt] at h
      split at h
      · next hb =>
          obtain ⟨tok, rfl, hflaw⟩ := scanMagnitude_flaw h
          exact ⟨'-'.toUInt8 :: tok, by rw [hb, List.cons_append], .negative hflaw⟩
      · next hb =>
          obtain ⟨tok, hbs, hflaw⟩ := scanMagnitude_flaw h
          exact ⟨tok, hbs, .unsigned (by rw [← hbs]; simpa using hb) hflaw⟩

theorem IntFlaw.scan {tok rest : Bytes} {st : Status} (h : IntFlaw tok rest st) :
    scanInt (tok ++ rest) = .err st rest := by
  cases h with
  | unsigned noSign h =>
      have hscan := h.scan
      generalize tok ++ rest = bs at noSign hscan
      cases bs with
      | nil => exact hscan
      | cons b bs =>
          have hb : ¬ b = '-'.toUInt8 := by simpa using noSign
          rw [scanInt, if_neg hb, hscan]
  | negative h => rw [List.cons_append, scanInt, if_pos rfl, h.scan]

theorem scanString_flaw {bs rest : Bytes} {st : Status} (h : scanString bs = .err st rest) :
    ∃ tok, bs = tok ++ rest ∧ StringFlaw tok rest st := by
  unfold scanString at h
  split at h
  · next hnat =>
      cases h
      obtain ⟨tok, hbs, hflaw⟩ := scanNat_flaw (by decide) hnat
      exact ⟨tok, hbs, .numeral hflaw⟩
  · next n mid hnat =>
      have hle := scanNat_le (by decide) hnat
      obtain ⟨hbs, hstop⟩ := scanNat_ok hnat
      split at h
      · next hend =>
          cases h
          obtain ⟨rfl, hclose⟩ := scanEnd_flaw hstop hend
          exact ⟨_, hbs, .close (Grammar.numeral_format n) hle hclose⟩
      · next tail hend =>
          obtain ⟨rfl, -⟩ := scanEnd_ok hend
          split at h
          · next hlong =>
              cases h
              exact ⟨_, by rw [hbs, List.append_assoc]; rfl,
                .short (Grammar.numeral_format n) hle hlong⟩
          · cases h

theorem StringFlaw.scan {tok rest : Bytes} {st : Status} (h : StringFlaw tok rest st) :
    scanString (tok ++ rest) = .err st rest := by
  cases h with
  | numeral h => rw [scanString, h.scan]
  | close numeral fits h =>
      have hend := h.scan ()
      rw [numeral.eq_format, scanString, scanNat_format hend.1 fits]
      dsimp only
      rw [hend.2]
  | short numeral fits long =>
      rw [numeral.eq_format, List.append_assoc, List.cons_append, List.nil_append, scanString,
        scanNat_format (startsWithDigit_colon rest) fits]
      simp only [scanEnd_cons, if_pos long]

/-! ## Stops -/

section Stops

variable {limit : Nat} {stack : List OpenScope} {bs tok rest : Bytes} {st : Status}

theorem Blocked.flaw (h : Blocked limit stack bs st) :
    ∃ tok rest, bs = tok ++ rest ∧ Flaw limit stack tok rest st := by
  cases h with
  | truncated => exact ⟨[], [], rfl, .ended⟩
  | int await scan =>
      obtain ⟨tok, rfl, hflaw⟩ := scanInt_flaw scan
      exact ⟨_, _, rfl, .int await hflaw⟩
  | string digit scan =>
      obtain ⟨tok, hbs, hflaw⟩ := scanString_flaw scan
      exact ⟨_, _, hbs, .string hbs.symm (Grammar.isDigit_iff.mpr digit) hflaw⟩
  | @full stack b bs await opens full => exact ⟨[b], bs, rfl, .tooDeep await opens full⟩
  | unexpected await noInt noList noDict noDigit close =>
      refine ⟨[], _, rfl, .noValue await noInt noList noDict ?_ close⟩
      rw [Grammar.isDigit_iff]
      exact Bool.eq_false_iff.mp noDigit
  | @key done below k rest fits bad =>
      have hkey := Grammar.byteString_encode k
      rcases keyOrder_eq bad with ⟨hlast, hst⟩ | ⟨l, hlast, hlt, hst⟩
      · rw [hst]
        exact ⟨_, rest, rfl, .keyRepeated hkey fits hlast⟩
      · rw [hst]
        exact ⟨_, rest, rfl, .keyUnsorted hkey fits hlast hlt⟩
  | badKey noDigit close =>
      refine ⟨[], _, rfl, .badKey ?_ close⟩
      rw [Grammar.isDigit_iff]
      exact Bool.eq_false_iff.mp noDigit
  | missingValue => exact ⟨[], _, rfl, .missingValue⟩

theorem scanStep_string {c : Config} {b : UInt8} {more : Bytes} (hopen : c.result = none)
    (hr : c.rest = b :: more) (digit : isDigit b = true)
    (scan : scanString (b :: more) = .err st rest) :
    scanStep limit c = .stop (st, c.offset rest) := by
  have hbe : b ≠ 'e'.toUInt8 := ne_of_isDigit digit (by decide)
  by_cases await : Awaits c.stack
  · rw [scanStep_value hopen await hr hbe, scanValue, if_neg (ne_of_isDigit digit (by decide)),
      if_neg (ne_of_isDigit digit (by decide)), if_neg (ne_of_isDigit digit (by decide)),
      if_pos digit, scan]
  · obtain ⟨done, below, hs⟩ : ∃ done below, c.stack = .dict done none :: below := by
      revert await
      cases c.stack with
      | nil => exact fun await => absurd trivial await
      | cons o below =>
          cases o with
          | list done => exact fun await => absurd trivial await
          | dict done key =>
              cases key with
              | none => exact fun _ => ⟨done, below, rfl⟩
              | some k => exact fun await => absurd trivial await
    simp only [scanStep, hopen, hr, scanByte, hs, if_neg hbe, scanKey, if_pos digit, scan]

theorem scanStep_keyRefused {c : Config} {done : List (Bytes × Tree)} {below : List OpenScope}
    {k : Bytes}
    (hopen : c.result = none) (hs : c.stack = .dict done none :: below)
    (key : Grammar.ByteString tok k) (fits : k.length ≤ sizeMax) (hr : c.rest = tok ++ rest)
    (bad : keyOrder (lastKey done) k = st) (hst : st ≠ .ok) :
    scanStep limit c = .stop (st, c.offset rest) := by
  obtain rfl := key.eq_encode
  obtain ⟨b, bs, henc, hb⟩ := encodeString_cons k
  have hr' : c.rest = b :: (bs ++ rest) := by rw [hr, henc, List.cons_append]
  have hscan := scanString_encode fits rest
  rw [henc, List.cons_append] at hscan
  have hbe : b ≠ 'e'.toUInt8 := ne_of_isDigit hb (by decide)
  simp only [scanStep, hopen, hr', scanByte, hs, if_neg hbe, scanKey, if_pos hb, hscan, bad]

/-- At a flaw the scanner stops, behind the bytes that could still be read. -/
theorem Flaw.stops {c : Config} (h : Flaw limit c.stack tok rest st) (hopen : c.result = none)
    (hr : c.rest = tok ++ rest) : scanStep limit c = .stop (st, c.pos + tok.length) := by
  rw [← Config.offset_append hr]
  generalize hs : c.stack = stack at h
  cases h with
  | ended =>
      rw [Config.offset_append hr]
      simp only [scanStep, hopen, hr, List.nil_append]
      rfl
  | int await h =>
      rw [List.cons_append] at hr
      rw [scanStep_value hopen (hs ▸ await) hr (by decide), scanValue, if_pos rfl, h.scan]
  | string first digit h =>
      have hscan := h.scan
      rw [first] at hr hscan
      exact scanStep_string hopen hr (isDigit_of_grammar digit) hscan
  | @tooDeep stack b rest await opens full =>
      rw [List.cons_append, List.nil_append] at hr
      rcases opens with rfl | rfl
      · rw [scanStep_value hopen (hs ▸ await) hr (by decide), scanValue, if_neg (by decide),
          if_pos rfl, if_pos (hs ▸ full)]
      · rw [scanStep_value hopen (hs ▸ await) hr (by decide), scanValue, if_neg (by decide),
          if_neg (by decide), if_pos rfl, if_pos (hs ▸ full)]
  | @noValue stack b z await noInt noList noDict noDigit close =>
      rw [Config.offset_append hr]
      have hvalue : scanValue limit c b z = .stop (.errUnexpectedByte, c.pos) := by
        rw [scanValue, if_neg noInt, if_neg noList, if_neg noDict,
          if_neg (not_isDigit_of_grammar noDigit)]
      by_cases hb : b = 'e'.toUInt8
      · have hnil : c.stack = [] := hs.trans (close hb)
        simp only [scanStep, hopen, hr, List.nil_append, scanByte, hnil, hvalue]
        rfl
      · rw [scanStep_value hopen (hs ▸ await) hr hb, hvalue]
        rfl
  | keyRepeated key fits last =>
      exact scanStep_keyRefused hopen hs key fits hr (by rw [last]; exact if_pos rfl) (by decide)
  | @keyUnsorted done below tok k l rest key fits last smaller =>
      have hbad : keyOrder (lastKey done) k = .errDictUnsorted := by
        rw [last, keyOrder, if_neg smaller.ne', if_pos smaller]
      exact scanStep_keyRefused hopen hs key fits hr hbad (by decide)
  | badKey noDigit close =>
      rw [Config.offset_append hr]
      simp only [scanStep, hopen, hr, List.nil_append, scanByte, hs, if_neg close, scanKey,
        if_neg (not_isDigit_of_grammar noDigit)]
      rfl
  | missingValue =>
      rw [Config.offset_append hr]
      simp only [scanStep, hopen, hr, List.nil_append, scanByte, hs, if_pos]
      rfl

end Stops

/-! ## The first flaw -/

/-- `FirstFlaw limit w st off`: the rules read `w` up to a token that is flawed `off` bytes into
`w`. -/
def FirstFlaw (limit : Nat) (w : Bytes) (st : Status) (off : Nat) : Prop :=
  ∃ c tok rest, Legal limit w c ∧ c.result = none ∧ c.rest = tok ++ rest ∧
    Flaw limit c.stack tok rest st ∧ off + rest.length = w.length

theorem Legal.pos_eq {limit : Nat} {w : Bytes} {c : Config} (h : Legal limit w c) :
    c.pos + c.rest.length = w.length := by
  induction h with
  | start => exact Nat.zero_add _
  | @read c tok rest e next before hopen split read ih =>
      rw [split, List.length_append] at ih
      show c.pos + tok.length + rest.length = w.length
      omega

/-- A run ends with an error exactly at the first flaw. -/
theorem scans_flaw_iff {limit : Nat} {w : Bytes} {es : List Event} {st s : Status} {off k : Nat}
    (scan : Scans limit w es st off) (bad : s ≠ .ok) :
    (st = s ∧ off = k) ↔ FirstFlaw limit w s k := by
  constructor
  · rintro ⟨rfl, rfl⟩
    obtain ⟨c, legal, hopen, blocked⟩ := (scans_status_iff scan bad).mp rfl
    obtain ⟨tok, rest, hr, flaw⟩ := blocked.flaw
    obtain ⟨es', run⟩ := legal.reaches
    obtain ⟨-, heq⟩ := scan.unique ⟨c, run, flaw.stops hopen hr⟩
    obtain ⟨-, rfl⟩ := Prod.mk.inj heq
    refine ⟨c, tok, rest, legal, hopen, hr, flaw, ?_⟩
    have hpos := legal.pos_eq
    rw [hr, List.length_append] at hpos
    omega
  · rintro ⟨c, tok, rest, legal, hopen, hr, flaw, hoff⟩
    obtain ⟨es', run⟩ := legal.reaches
    obtain ⟨-, heq⟩ := scan.unique ⟨c, run, flaw.stops hopen hr⟩
    obtain ⟨rfl, rfl⟩ := Prod.mk.inj heq
    have hpos := legal.pos_eq
    rw [hr, List.length_append] at hpos
    exact ⟨rfl, by omega⟩

end Bencode
