import Bencode.Spec.Grammar
import Bencode.Spec.Steps

/-!
# The stops of the scanner, one rule per error

`Reads` lists what the scanner can read, and `Blocked` lists what it cannot: which
bytes in which stack end a run, and with which status. A number that is out of range
is out of range as a whole, although the scanner stops inside it.
-/

namespace Bencode

open LabelledMachine

/-! ## Tokens out of range -/

theorem scanMagnitude_overflow_iff {negative : Bool} {bs : Bytes} :
    (∃ rest, scanMagnitude negative bs = .err .errIntegerOverflow rest) ↔
      ∃ n z, bs = formatNat n ++ z ∧ startsWithDigit z = false ∧ magnitudeCap negative < n := by
  rw [← scanNat_overflow_iff (nine_le_magnitudeCap negative)]
  constructor
  · rintro ⟨rest, h⟩
    unfold scanMagnitude at h
    split at h
    · next hnat =>
        cases h
        exact ⟨_, hnat⟩
    · split at h
      · cases h
      · rcases scanEnd_err h with h | h <;> cases h
  · rintro ⟨rest, h⟩
    exact ⟨rest, by rw [scanMagnitude, h]⟩

theorem scanInt_overflow_iff {bs : Bytes} :
    (∃ rest, scanInt bs = .err .errIntegerOverflow rest) ↔
      ∃ lit v z, bs = lit ++ z ∧ Grammar.IntLiteral lit v ∧ startsWithDigit z = false ∧
        (v < -2 ^ 63 ∨ 2 ^ 63 ≤ v) := by
  constructor
  · rintro ⟨rest, h⟩
    cases bs with
    | nil => cases h
    | cons b bs =>
        simp only [scanInt] at h
        split at h
        · next hb =>
            obtain ⟨n, z, rfl, hstop, hover⟩ := scanMagnitude_overflow_iff.mp ⟨rest, h⟩
            simp only [magnitudeCap, if_true] at hover
            refine ⟨b :: formatNat n, -n, z, rfl, ?_, hstop, .inl (by omega)⟩
            rw [hb]
            exact .negative (Grammar.numeral_format n) (by omega)
        · obtain ⟨n, z, hbs, hstop, hover⟩ := scanMagnitude_overflow_iff.mp ⟨rest, h⟩
          simp only [magnitudeCap, Bool.false_eq_true, if_false] at hover
          exact ⟨formatNat n, n, z, hbs, .unsigned (Grammar.numeral_format n), hstop,
            .inr (by omega)⟩
  · rintro ⟨lit, v, z, rfl, hlit, hstop, hrange⟩
    cases hlit with
    | @unsigned lit n h =>
        obtain rfl := h.eq_format
        have hover : magnitudeCap false < n := by
          simp only [magnitudeCap, Bool.false_eq_true, if_false]
          omega
        obtain ⟨rest, hscan⟩ := scanMagnitude_overflow_iff.mpr ⟨n, z, rfl, hstop, hover⟩
        obtain ⟨b, ds, hfmt⟩ := List.exists_cons_of_ne_nil (Decimal.format_ne_nil n)
        have hb : isDigit b = true := Decimal.format_digits (hfmt ▸ List.mem_cons_self)
        rw [formatNat, hfmt, List.cons_append] at hscan ⊢
        exact ⟨rest, by rw [scanInt, if_neg (ne_of_isDigit hb (by decide)), hscan]⟩
    | @negative lit n h nonzero =>
        obtain rfl := h.eq_format
        have hover : magnitudeCap true < n := by
          simp only [magnitudeCap, if_true]
          omega
        obtain ⟨rest, hscan⟩ := scanMagnitude_overflow_iff.mpr ⟨n, z, rfl, hstop, hover⟩
        exact ⟨rest, by rw [List.cons_append, scanInt, if_pos rfl, hscan]⟩

theorem scanString_overflow_iff {bs : Bytes} :
    (∃ rest, scanString bs = .err .errIntegerOverflow rest) ↔
      ∃ n z, bs = formatNat n ++ z ∧ startsWithDigit z = false ∧ sizeMax < n := by
  rw [← scanNat_overflow_iff (by decide)]
  constructor
  · rintro ⟨rest, h⟩
    unfold scanString at h
    split at h
    · next hnat =>
        cases h
        exact ⟨_, hnat⟩
    · split at h
      · next hend =>
          cases h
          rcases scanEnd_err hend with h | h <;> cases h
      · split at h <;> cases h
  · rintro ⟨rest, h⟩
    exact ⟨rest, by rw [scanString, h]⟩

theorem scanString_length_iff {bs : Bytes} :
    (∃ rest, scanString bs = .err .errStringLength rest) ↔
      ∃ n z, bs = formatNat n ++ ':'.toUInt8 :: z ∧ n ≤ sizeMax ∧ z.length < n := by
  constructor
  · rintro ⟨rest, h⟩
    unfold scanString at h
    split at h
    · next hnat =>
        cases h
        exact absurd (scanNat_err_mem hnat) (by decide)
    · next n mid hnat =>
        have hle := scanNat_le (by decide) hnat
        obtain ⟨rfl, -⟩ := scanNat_ok hnat
        split at h
        · next hend =>
            cases h
            rcases scanEnd_err hend with h | h <;> cases h
        · next z hend =>
            obtain ⟨rfl, -⟩ := scanEnd_ok hend
            split at h
            · next hlong => exact ⟨n, z, rfl, hle, hlong⟩
            · cases h
  · rintro ⟨n, z, rfl, hle, hlong⟩
    refine ⟨z, ?_⟩
    rw [scanString, scanNat_format (startsWithDigit_colon z) hle]
    simp only [scanEnd_cons, if_pos hlong]

/-! ## The rules -/

/-- `Blocked limit stack rest st`: nothing can be read from `rest`, and `st` says why. -/
inductive Blocked (limit : Nat) : List OpenScope → Bytes → Status → Prop
  | truncated {stack : List OpenScope} : Blocked limit stack [] .errTruncated
  | int {stack : List OpenScope} {bs rest : Bytes} {st : Status} (await : Awaits stack)
      (scan : scanInt bs = .err st rest) : Blocked limit stack ('i'.toUInt8 :: bs) st
  | string {stack : List OpenScope} {b : UInt8} {bs rest : Bytes} {st : Status}
      (digit : isDigit b = true) (scan : scanString (b :: bs) = .err st rest) :
      Blocked limit stack (b :: bs) st
  | full {stack : List OpenScope} {b : UInt8} {bs : Bytes} (await : Awaits stack)
      (opens : b = 'l'.toUInt8 ∨ b = 'd'.toUInt8) (full : limit ≤ stack.length) :
      Blocked limit stack (b :: bs) .errNestingTooDeep
  | unexpected {stack : List OpenScope} {b : UInt8} {bs : Bytes} (await : Awaits stack)
      (noInt : b ≠ 'i'.toUInt8) (noList : b ≠ 'l'.toUInt8) (noDict : b ≠ 'd'.toUInt8)
      (noDigit : isDigit b = false) (close : b = 'e'.toUInt8 → stack = []) :
      Blocked limit stack (b :: bs) .errUnexpectedByte
  | key {done : List (Bytes × Tree)} {below : List OpenScope} {k rest : Bytes}
      (fits : k.length ≤ sizeMax) (bad : keyOrder (lastKey done) k ≠ .ok) :
      Blocked limit (.dict done none :: below) (encodeString k ++ rest) (keyOrder (lastKey done) k)
  | badKey {done : List (Bytes × Tree)} {below : List OpenScope} {b : UInt8} {bs : Bytes}
      (noDigit : isDigit b = false) (close : b ≠ 'e'.toUInt8) :
      Blocked limit (.dict done none :: below) (b :: bs) .errDictBadKey
  | missingValue {done : List (Bytes × Tree)} {k : Bytes} {below : List OpenScope} {bs : Bytes} :
      Blocked limit (.dict done (some k) :: below) ('e'.toUInt8 :: bs) .errDictMissingValue

section Stops

variable {limit : Nat} {c : Config} {b : UInt8} {bs : Bytes} {st : Status} {off : Nat}

theorem scanValue_blocked (await : Awaits c.stack) (close : b = 'e'.toUInt8 → c.stack = [])
    (h : scanValue limit c b bs = .stop (st, off)) : Blocked limit c.stack (b :: bs) st := by
  unfold scanValue at h
  split at h
  · next hi =>
      split at h
      · cases h
      · next hscan =>
          cases h
          rw [hi]
          exact .int await hscan
  · next hi =>
      split at h
      · next hl =>
          split at h
          · next hfull =>
              cases h
              exact .full await (.inl hl) hfull
          · cases h
      · next hl =>
          split at h
          · next hd =>
              split at h
              · next hfull =>
                  cases h
                  exact .full await (.inr hd) hfull
              · cases h
          · next hd =>
              split at h
              · next hdigit =>
                  split at h
                  · cases h
                  · next hscan =>
                      cases h
                      exact .string hdigit hscan
              · next hdigit =>
                  cases h
                  exact .unexpected await hi hl hd (by simpa using hdigit) close

theorem scanKey_blocked {done : List (Bytes × Tree)} {below : List OpenScope}
    (hb : b ≠ 'e'.toUInt8) (h : scanKey c done below b bs = .stop (st, off)) :
    Blocked limit (.dict done none :: below) (b :: bs) st := by
  unfold scanKey at h
  split at h
  · next hdigit =>
      split at h
      · next hscan =>
          cases h
          exact .string hdigit hscan
      · next k rest hscan =>
          obtain ⟨hcut, fits⟩ := scanString_ok hscan
          rw [hcut]
          split at h
          · cases h
          · next bad =>
              cases h
              exact .key fits bad
  · next hdigit =>
      cases h
      exact .badKey (by simpa using hdigit) hb

/-- A run that stops before the value is complete is blocked. -/
theorem scanStep_blocked (hopen : c.result = none) (h : scanStep limit c = .stop (st, off)) :
    Blocked limit c.stack c.rest st := by
  cases hr : c.rest with
  | nil =>
      simp only [scanStep, hopen, hr] at h
      cases h
      exact .truncated
  | cons b bs =>
      simp only [scanStep, hopen, hr, scanByte] at h
      cases hstack : c.stack with
      | nil =>
          simp only [hstack] at h
          rw [← hstack]
          exact scanValue_blocked (by rw [hstack]; trivial) (fun _ => hstack) h
      | cons o below =>
          by_cases hb : b = 'e'.toUInt8
          · subst hb
            cases o with
            | list done =>
                simp only [hstack, if_pos] at h
                cases h
            | dict done key =>
                cases key with
                | none =>
                    simp only [hstack, if_pos] at h
                    cases h
                | some k =>
                    simp only [hstack, if_pos] at h
                    cases h
                    exact .missingValue
          · have close : b = 'e'.toUInt8 → c.stack = [] := fun h => absurd h hb
            cases o with
            | list done =>
                simp only [hstack, if_neg hb] at h
                rw [← hstack]
                exact scanValue_blocked (by rw [hstack]; trivial) close h
            | dict done key =>
                cases key with
                | none =>
                    simp only [hstack, if_neg hb] at h
                    exact scanKey_blocked hb h
                | some k =>
                    simp only [hstack, if_neg hb] at h
                    rw [← hstack]
                    exact scanValue_blocked (by rw [hstack]; trivial) close h

/-- Where nothing can be read the scanner stops with the status of the rule. -/
theorem Blocked.stops (hopen : c.result = none) (h : Blocked limit c.stack c.rest st) :
    ∃ off, scanStep limit c = .stop (st, off) := by
  generalize hstack : c.stack = stack at h
  generalize hr : c.rest = rest at h
  cases h with
  | truncated => exact ⟨c.pos, by simp only [scanStep, hopen, hr]⟩
  | @int _ bs rest _ await scan =>
      refine ⟨c.offset rest, ?_⟩
      rw [scanStep_value hopen (hstack ▸ await) hr (by decide), scanValue, if_pos rfl, scan]
  | @string _ b bs rest _ digit scan =>
      have hbe : b ≠ 'e'.toUInt8 := ne_of_isDigit digit (by decide)
      refine ⟨c.offset rest, ?_⟩
      by_cases await : Awaits c.stack
      · rw [scanStep_value hopen await hr hbe, scanValue, if_neg (ne_of_isDigit digit (by decide)),
          if_neg (ne_of_isDigit digit (by decide)), if_neg (ne_of_isDigit digit (by decide)),
          if_pos digit, scan]
      · cases hs : c.stack with
        | nil =>
            rw [hs] at await
            exact absurd trivial await
        | cons o below =>
            rw [hs] at await
            cases o with
            | list done => exact absurd trivial await
            | dict done key =>
                cases key with
                | none =>
                    simp only [scanStep, hopen, hr, scanByte, hs, if_neg hbe, scanKey, if_pos digit,
                      scan]
                | some k => exact absurd trivial await
  | @full _ b bs await opens full =>
      rcases opens with rfl | rfl
      · refine ⟨c.offset bs, ?_⟩
        rw [scanStep_value hopen (hstack ▸ await) hr (by decide), scanValue, if_neg (by decide),
          if_pos rfl, if_pos (hstack ▸ full)]
      · refine ⟨c.offset bs, ?_⟩
        rw [scanStep_value hopen (hstack ▸ await) hr (by decide), scanValue, if_neg (by decide),
          if_neg (by decide), if_pos rfl, if_pos (hstack ▸ full)]
  | @unexpected _ b bs await noInt noList noDict noDigit close =>
      refine ⟨c.pos, ?_⟩
      have hvalue : scanValue limit c b bs = .stop (.errUnexpectedByte, c.pos) := by
        rw [scanValue, if_neg noInt, if_neg noList, if_neg noDict, if_neg (by simp [noDigit])]
      by_cases hb : b = 'e'.toUInt8
      · have hnil : c.stack = [] := hstack.trans (close hb)
        simp only [scanStep, hopen, hr, scanByte, hnil, hvalue]
      · rw [scanStep_value hopen (hstack ▸ await) hr hb, hvalue]
  | @key done below k rest fits bad =>
      obtain ⟨b, bs, henc, hb⟩ := encodeString_cons k
      have hr' : c.rest = b :: (bs ++ rest) := by rw [hr, henc, List.cons_append]
      have hscan := scanString_encode fits rest
      rw [henc, List.cons_append] at hscan
      have hbe : b ≠ 'e'.toUInt8 := ne_of_isDigit hb (by decide)
      refine ⟨c.offset rest, ?_⟩
      simp only [scanStep, hopen, hr', scanByte, hstack, if_neg hbe, scanKey, if_pos hb, hscan]
  | @badKey done below b bs noDigit close =>
      refine ⟨c.pos, ?_⟩
      simp only [scanStep, hopen, hr, scanByte, hstack, if_neg close, scanKey, noDigit,
        Bool.false_eq_true, if_false]
  | missingValue =>
      refine ⟨c.pos, ?_⟩
      simp only [scanStep, hopen, hr, scanByte, hstack, if_pos]

theorem keyOrder_ne_errIo (last : Option Bytes) (k : Bytes) : keyOrder last k ≠ .errIo := by
  cases last with
  | none => simp [keyOrder]
  | some l =>
      simp only [keyOrder]
      split
      · simp
      · split <;> simp

theorem Blocked.ne_errIo {stack : List OpenScope} {rest : Bytes} (h : Blocked limit stack rest st) :
    st ≠ .errIo := by
  cases h with
  | truncated => simp
  | int await scan =>
      rintro rfl
      exact absurd (scanInt_err_mem scan) (by decide)
  | string digit scan =>
      rintro rfl
      rcases scanString_err_mem scan with h | h
      · cases h
      · exact absurd h (by decide)
  | full await opens full => simp
  | unexpected await noInt noList noDict noDigit close => simp
  | key fits bad => exact keyOrder_ne_errIo _ _
  | badKey noDigit close => simp
  | missingValue => simp

theorem Scans.ne_errIo {w : Bytes} {es : List Event} (h : Scans limit w es st off) :
    st ≠ .errIo := by
  obtain ⟨d, run, stop⟩ := h
  by_cases hopen : d.result = none
  · exact (scanStep_blocked hopen stop).ne_errIo
  · obtain ⟨t, ht⟩ := Option.ne_none_iff_exists'.mp hopen
    simp only [scanStep, ht] at stop
    cases stop
    simp

end Stops

end Bencode
