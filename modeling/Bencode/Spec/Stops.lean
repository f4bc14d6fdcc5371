import Bencode.Spec.Steps

/-!
# The scanner's errors are decided by the bytes up to the offending one

A token reader that fails, other than for lack of input, would fail in the same
way whatever came after the first byte it leaves.
-/

namespace Bencode

open LabelledMachine

variable {limit : Nat}

/-! ## Tokens -/

/-- `scan` fails at `rest` of `bs`, and on every input that agrees with `bs` so far. -/
def FailsAt {α : Type} (scan : Bytes → Token α) (bs : Bytes) (st : Status) (rest : Bytes) : Prop :=
  ∃ pre, bs = pre ++ rest ∧ (st = .errTruncated → rest = []) ∧
    (st ≠ .errTruncated → st ≠ .errStringLength →
      ∀ ext, rest.take 1 <+: ext → scan (pre ++ ext) = .err st ext)

theorem FailsAt.truncated {α : Type} (scan : Bytes → Token α) (bs : Bytes) :
    FailsAt scan bs .errTruncated [] :=
  ⟨bs, by simp, fun _ => rfl, fun h => absurd rfl h⟩

theorem startsWithDigit_of_take {bs ext : Bytes} (hne : bs ≠ []) (h : bs.take 1 <+: ext) :
    startsWithDigit ext = startsWithDigit bs := by
  obtain ⟨b, bs, rfl⟩ := List.exists_cons_of_ne_nil hne
  obtain ⟨us, rfl⟩ := h
  rfl

theorem head_agrees {b : UInt8} {bs pre rest ext : Bytes} (h : b :: bs = pre ++ rest)
    (hext : rest.take 1 <+: ext) : ∃ us, pre ++ ext = b :: us := by
  cases pre with
  | nil =>
      rw [List.nil_append] at h
      rw [← h] at hext
      obtain ⟨us, rfl⟩ := hext
      exact ⟨us, rfl⟩
  | cons p pre =>
      rw [List.cons_append] at h
      cases h
      exact ⟨pre ++ ext, rfl⟩

theorem scanDigits_failsAt {cap acc : Nat} {bs rest : Bytes} {st : Status}
    (h : scanDigits cap acc bs = .err st rest) :
    st = .errIntegerOverflow ∧ rest ≠ [] ∧ ∃ pre, bs = pre ++ rest ∧
      ∀ ext, rest.take 1 <+: ext → scanDigits cap acc (pre ++ ext) = .err st ext := by
  induction bs generalizing acc with
  | nil => cases h
  | cons b bs ih =>
      simp only [scanDigits] at h
      split at h
      · next hb =>
          split at h
          · next hcap =>
              cases h
              refine ⟨rfl, by simp, [], rfl, ?_⟩
              rintro ext ⟨us, rfl⟩
              simp [scanDigits, hb, hcap]
          · next hcap =>
              obtain ⟨hst, hne, pre, rfl, hext⟩ := ih h
              refine ⟨hst, hne, b :: pre, rfl, ?_⟩
              intro ext hrest
              rw [List.cons_append, scanDigits, if_pos hb, if_neg hcap, hext ext hrest]
      · cases h

theorem scanNat_failsAt {cap : Nat} {bs rest : Bytes} {st : Status}
    (h : scanNat cap bs = .err st rest) : FailsAt (scanNat cap) bs st rest := by
  cases bs with
  | nil =>
      cases h
      exact .truncated _ _
  | cons b bs =>
      simp only [scanNat] at h
      split at h
      · next hb =>
          split at h
          · next hzero =>
              cases h
              have hne : rest ≠ [] := by
                rintro rfl
                exact absurd hzero.2 (by decide)
              refine ⟨[b], rfl, fun h => (by cases h), ?_⟩
              intro _ _ ext hext
              rw [List.singleton_append, scanNat, if_pos hb,
                if_pos ⟨hzero.1, (startsWithDigit_of_take hne hext).trans hzero.2⟩]
          · next hzero =>
              obtain ⟨rfl, hne, pre, rfl, hext⟩ := scanDigits_failsAt h
              refine ⟨b :: pre, rfl, fun h => (by cases h), ?_⟩
              intro _ _ ext hrest
              have hsame : startsWithDigit (pre ++ ext) = startsWithDigit (pre ++ rest) := by
                cases pre with
                | nil => exact startsWithDigit_of_take hne hrest
                | cons => rfl
              rw [List.cons_append, scanNat, if_pos hb, hsame, if_neg hzero, hext ext hrest]
      · next hb =>
          cases h
          refine ⟨[], rfl, fun h => (by cases h), ?_⟩
          rintro - - ext ⟨us, rfl⟩
          exact scanNat_not_digit hb

theorem scanEnd_failsAt {α : Type} {close : UInt8} {a : α} {bs rest : Bytes} {st : Status}
    (h : scanEnd close a bs = .err st rest) :
    bs = rest ∧ (st = .errTruncated → rest = []) ∧
      (st ≠ .errTruncated → rest ≠ [] ∧
        ∀ ext, rest.take 1 <+: ext → scanEnd close a ext = .err st ext) := by
  cases bs with
  | nil =>
      cases h
      exact ⟨rfl, fun _ => rfl, fun h => absurd rfl h⟩
  | cons b bs =>
      simp only [scanEnd] at h
      split at h
      · cases h
      · next hb =>
          cases h
          refine ⟨rfl, fun h => (by cases h), fun _ => ⟨by simp, ?_⟩⟩
          rintro ext ⟨us, rfl⟩
          simp [scanEnd, hb]

theorem scanMagnitude_failsAt {negative : Bool} {bs rest : Bytes} {st : Status}
    (h : scanMagnitude negative bs = .err st rest) :
    FailsAt (scanMagnitude negative) bs st rest := by
  unfold scanMagnitude at h
  split at h
  · next hnat =>
      cases h
      obtain ⟨pre, rfl, htrunc, hext⟩ := scanNat_failsAt hnat
      refine ⟨pre, rfl, htrunc, ?_⟩
      intro h1 h2 ext hrest
      rw [scanMagnitude, hext h1 h2 ext hrest]
  · next n mid hnat =>
      have hcap := scanNat_le (nine_le_magnitudeCap negative) hnat
      obtain ⟨rfl, hstop⟩ := scanNat_ok hnat
      split at h
      · next hzero =>
          cases h
          refine ⟨formatNat n, rfl, fun h => (by cases h), ?_⟩
          intro _ _ ext _
          by_cases hdig : startsWithDigit ext = true
          · have hbad : scanNat (magnitudeCap negative) (formatNat n ++ ext) =
                .err .errIntegerFormat ext := by
              rw [hzero.2]
              show scanNat _ ('0'.toUInt8 :: ext) = _
              rw [scanNat, if_pos (by decide), if_pos ⟨rfl, hdig⟩]
            rw [scanMagnitude, hbad]
          · rw [scanMagnitude, scanNat_format (by simpa using hdig) hcap]
            simp only [if_pos hzero]
      · next hzero =>
          obtain ⟨rfl, htrunc, hext⟩ := scanEnd_failsAt h
          refine ⟨formatNat n, rfl, htrunc, ?_⟩
          intro h1 _ ext hrest
          obtain ⟨hne, hend⟩ := hext h1
          have hstop' := (startsWithDigit_of_take hne hrest).trans hstop
          rw [scanMagnitude, scanNat_format hstop' hcap]
          simp only [if_neg hzero, hend ext hrest]

theorem scanInt_failsAt {bs rest : Bytes} {st : Status} (h : scanInt bs = .err st rest) :
    FailsAt scanInt bs st rest := by
  cases bs with
  | nil =>
      cases h
      exact .truncated _ _
  | cons b bs =>
      simp only [scanInt] at h
      split at h
      · next hb =>
          obtain ⟨pre, rfl, htrunc, hext⟩ := scanMagnitude_failsAt h
          refine ⟨b :: pre, rfl, htrunc, ?_⟩
          intro h1 h2 ext hrest
          rw [List.cons_append, scanInt, if_pos hb, hext h1 h2 ext hrest]
      · next hb =>
          obtain ⟨pre, hbs, htrunc, hext⟩ := scanMagnitude_failsAt h
          refine ⟨pre, hbs, htrunc, ?_⟩
          intro h1 h2 ext hrest
          obtain ⟨us, hcons⟩ := head_agrees hbs hrest
          have hscan := hext h1 h2 ext hrest
          rw [hcons] at hscan ⊢
          rw [scanInt, if_neg hb, hscan]

theorem scanString_failsAt {bs rest : Bytes} {st : Status} (h : scanString bs = .err st rest) :
    FailsAt scanString bs st rest := by
  unfold scanString at h
  split at h
  · next hnat =>
      cases h
      obtain ⟨pre, rfl, htrunc, hext⟩ := scanNat_failsAt hnat
      refine ⟨pre, rfl, htrunc, ?_⟩
      intro h1 h2 ext hrest
      rw [scanString, hext h1 h2 ext hrest]
  · next n mid hnat =>
      have hcap := scanNat_le (by decide) hnat
      obtain ⟨rfl, hstop⟩ := scanNat_ok hnat
      split at h
      · next hend =>
          cases h
          obtain ⟨rfl, htrunc, hext⟩ := scanEnd_failsAt hend
          refine ⟨formatNat n, rfl, htrunc, ?_⟩
          intro h1 _ ext hrest
          obtain ⟨hne, hclose⟩ := hext h1
          have hstop' := (startsWithDigit_of_take hne hrest).trans hstop
          rw [scanString, scanNat_format hstop' hcap]
          simp only [hclose ext hrest]
      · next hend =>
          obtain ⟨rfl, -⟩ := scanEnd_ok hend
          split at h
          · cases h
            exact ⟨_, (List.append_cons _ _ _), fun h => (by cases h), fun _ h => absurd rfl h⟩
          · cases h

/-! ## Steps -/

/-- The step from `c` stops with an error at `off`, and would do so on every input
that agrees with this one up to there. -/
def StopsAt (limit : Nat) (c : Config) (st : Status) (off : Nat) : Prop :=
  st ≠ .ok ∧ ∃ pre rest, c.rest = pre ++ rest ∧ off = c.pos + pre.length ∧
    (st = .errTruncated → rest = []) ∧
    (st ≠ .errTruncated → st ≠ .errStringLength → ∀ ext, rest.take 1 <+: ext →
      scanStep limit { c with rest := pre ++ ext } = .stop (st, off))

section Steps

variable {c : Config} {b : UInt8} {bs rest : Bytes} {st : Status} {off : Nat}

theorem StopsAt.here (hr : c.rest = b :: bs) (bad : st ≠ .ok) (more : st ≠ .errTruncated)
    (hstep : ∀ us, scanStep limit { c with rest := b :: us } = .stop (st, c.pos)) :
    StopsAt limit c st c.pos := by
  refine ⟨bad, [], b :: bs, hr, rfl, fun h => absurd h more, ?_⟩
  rintro - - ext ⟨us, rfl⟩
  exact hstep us

theorem StopsAt.inside (tok : Bytes) (hr : c.rest = tok ++ rest) (bad : st ≠ .ok)
    (htrunc : st = .errTruncated → rest = [])
    (hstep : st ≠ .errTruncated → st ≠ .errStringLength → ∀ ext, rest.take 1 <+: ext →
      scanStep limit { c with rest := tok ++ ext } =
        .stop (st, Config.offset { c with rest := tok ++ ext } ext)) :
    StopsAt limit c st (c.offset rest) := by
  refine ⟨bad, tok, rest, hr, Config.offset_append hr, htrunc, ?_⟩
  intro h1 h2 ext hext
  have hoff : Config.offset { c with rest := tok ++ ext } ext = c.pos + tok.length :=
    Config.offset_append rfl
  rw [hstep h1 h2 ext hext, hoff, Config.offset_append hr]

theorem StopsAt.inString (hr : c.rest = b :: bs) (hscan : scanString c.rest = .err st rest)
    (hstep : ∀ us ext, scanString (b :: us) = .err st ext →
      scanStep limit { c with rest := b :: us } =
        .stop (st, Config.offset { c with rest := b :: us } ext)) :
    StopsAt limit c st (c.offset rest) := by
  obtain ⟨pre, hcut, htrunc, hext⟩ := scanString_failsAt hscan
  refine .inside _ hcut (scanString_err hscan) htrunc ?_
  intro h1 h2 ext hrest
  obtain ⟨us, hus⟩ := head_agrees (hr.symm.trans hcut) hrest
  have htok := hext h1 h2 ext hrest
  rw [hus] at htok ⊢
  exact hstep us ext htok

theorem scanValue_stop (hopen : c.result = none) (await : Awaits c.stack) (hr : c.rest = b :: bs)
    (hb : b ≠ 'e'.toUInt8) (h : scanValue limit c b bs = .stop (st, off)) :
    StopsAt limit c st off := by
  have hvalue : ∀ us, scanStep limit { c with rest := b :: us } =
      scanValue limit { c with rest := b :: us } b us := fun us =>
    scanStep_value (c := { c with rest := b :: us }) hopen await rfl hb
  unfold scanValue at h
  split at h
  · next hi =>
      split at h
      · cases h
      · next hscan =>
          cases h
          obtain ⟨pre, rfl, htrunc, hext⟩ := scanInt_failsAt hscan
          refine .inside (b :: pre) hr (scanInt_err hscan) htrunc ?_
          intro h1 h2 ext hrest
          rw [List.cons_append, hvalue, scanValue, if_pos hi, hext h1 h2 ext hrest]
  · next hi =>
      split at h
      · next hl =>
          split at h
          · next hfull =>
              cases h
              refine .inside [b] hr (by decide) (fun h => by cases h) fun _ _ ext _ => ?_
              rw [List.singleton_append, hvalue, scanValue, if_neg hi, if_pos hl, if_pos hfull]
          · cases h
      · next hl =>
          split at h
          · next hd =>
              split at h
              · next hfull =>
                  cases h
                  refine .inside [b] hr (by decide) (fun h => by cases h)
                    fun _ _ ext _ => ?_
                  rw [List.singleton_append, hvalue, scanValue, if_neg hi, if_neg hl, if_pos hd,
                    if_pos hfull]
              · cases h
          · next hd =>
              split at h
              · next hdig =>
                  split at h
                  · cases h
                  · next hscan =>
                      cases h
                      rw [← hr] at hscan
                      refine .inString hr hscan ?_
                      intro us ext htok
                      rw [hvalue, scanValue, if_neg hi, if_neg hl, if_neg hd, if_pos hdig, htok]
              · next hdig =>
                  cases h
                  refine .here hr (by decide) (by decide) ?_
                  intro us
                  rw [hvalue, scanValue, if_neg hi, if_neg hl, if_neg hd, if_neg hdig]

theorem keyOrder_ne_truncated (last : Option Bytes) (k : Bytes) :
    keyOrder last k ≠ .errTruncated := by
  cases last with
  | none => exact (by decide : Status.ok ≠ .errTruncated)
  | some l =>
      simp only [keyOrder]
      split
      · decide
      · split <;> decide

theorem scanKey_stop {done : List (Bytes × Tree)} {below : List OpenScope}
    (hopen : c.result = none) (hstack : c.stack = .dict done none :: below) (hr : c.rest = b :: bs)
    (hb : b ≠ 'e'.toUInt8) (h : scanKey c done below b bs = .stop (st, off)) :
    StopsAt limit c st off := by
  have hkey : ∀ us, scanStep limit { c with rest := b :: us } =
      scanKey { c with rest := b :: us } done below b us := by
    intro us
    simp only [scanStep, hopen, scanByte, hstack, if_neg hb]
  unfold scanKey at h
  split at h
  · next hdig =>
      split at h
      · next hscan =>
          cases h
          rw [← hr] at hscan
          refine .inString hr hscan ?_
          intro us ext htok
          rw [hkey, scanKey, if_pos hdig, htok]
      · next k rest hscan =>
          obtain ⟨hcut, fits⟩ := scanString_ok hscan
          rw [← hr] at hcut
          obtain ⟨b', us, henc, hdig'⟩ := encodeString_cons k
          have hsame : b' = b := by
            rw [hr, henc, List.cons_append] at hcut
            exact (List.cons.inj hcut).1.symm
          subst hsame
          split at h
          · cases h
          · next st' bad =>
              cases h
              refine .inside _ hcut (fun h => bad h)
                (fun h => absurd h (keyOrder_ne_truncated _ _)) fun _ _ ext _ => ?_
              have hscan' := scanString_encode fits ext
              rw [henc, List.cons_append] at hscan' ⊢
              rw [hkey, scanKey, if_pos hdig, hscan']
              dsimp only
              split
              · next order => exact absurd order bad
              · rfl
  · next hdig =>
      cases h
      refine .here hr (by decide) (by decide) ?_
      intro us
      rw [hkey, scanKey, if_neg hdig]

/-- Why a step stops: the value is complete, or an error is found. -/
theorem scanStep_stop (h : scanStep limit c = .stop (st, off)) :
    (∃ t, c.result = some t ∧ st = .ok ∧ off = c.pos) ∨
      (c.result = none ∧ StopsAt limit c st off) := by
  cases hopen : c.result with
  | some t =>
      simp only [scanStep, hopen] at h
      cases h
      exact .inl ⟨t, rfl, rfl, rfl⟩
  | none =>
      refine .inr ⟨rfl, ?_⟩
      cases hr : c.rest with
      | nil =>
          simp only [scanStep, hopen, hr] at h
          cases h
          exact ⟨by decide, [], [], hr, rfl, fun _ => rfl, fun h => absurd rfl h⟩
      | cons b bs =>
          simp only [scanStep, hopen, hr, scanByte] at h
          by_cases hb : b = 'e'.toUInt8
          · subst hb
            cases hstack : c.stack with
            | nil =>
                simp only [hstack, scanValue] at h
                rw [if_neg (by decide), if_neg (by decide), if_neg (by decide),
                  if_neg (by decide)] at h
                cases h
                refine .here hr (by decide) (by decide) ?_
                intro us
                simp only [scanStep, hopen, scanByte, hstack, scanValue]
                rfl
            | cons o below =>
                cases o with
                | list done =>
                    simp only [hstack, if_pos] at h
                    cases h
                | dict done key =>
                    cases key with
                    | none =>
                        simp only [hstack, if_pos] at h
                        cases h
                    | some k =>
                        simp only [hstack, if_pos] at h
                        cases h
                        refine .here hr (by decide) (by decide) ?_
                        intro us
                        simp only [scanStep, hopen, scanByte, hstack, if_pos]
          · cases hstack : c.stack with
            | nil =>
                simp only [hstack] at h
                exact scanValue_stop hopen (by rw [hstack]; trivial) hr hb h
            | cons o below =>
                cases o with
                | list done =>
                    simp only [hstack, if_neg hb] at h
                    exact scanValue_stop hopen (by rw [hstack]; trivial) hr hb h
                | dict done key =>
                    cases key with
                    | none =>
                        simp only [hstack, if_neg hb] at h
                        exact scanKey_stop hopen hstack hr hb h
                    | some k =>
                        simp only [hstack, if_neg hb] at h
                        exact scanValue_stop hopen (by rw [hstack]; trivial) hr hb h

theorem scanStep_stop_ok (h : scanStep limit c = .stop (.ok, off)) :
    ∃ t, c.result = some t ∧ off = c.pos := by
  rcases scanStep_stop h with ⟨t, ht, -, hoff⟩ | ⟨-, bad, -⟩
  · exact ⟨t, ht, hoff⟩
  · exact absurd rfl bad

end Steps

/-! ## Runs -/

theorem scanStep_emit_local {c d : Config} {e : Event} (h : scanStep limit c = .emit e d) :
    ∃ tok, c.rest = tok ++ d.rest ∧ d.pos = c.pos + tok.length ∧
      ∀ ext, scanStep limit { c with rest := tok ++ ext } = .emit e { d with rest := ext } := by
  obtain ⟨hopen, tok, rest, next, hr, hreads, rfl⟩ := scanStep_emit h
  exact ⟨tok, hr, rfl, fun ext =>
    Reads.step (c := { c with rest := tok ++ ext }) hreads hopen rfl⟩

/-- A run reads a beginning of the input and does not depend on what follows it. -/
theorem reaches_local {c d : Config} {es : List Event} (run : Reaches (scanStep limit) c es d) :
    ∃ pre, c.rest = pre ++ d.rest ∧ d.pos = c.pos + pre.length ∧
      ∀ ext, Reaches (scanStep limit) { c with rest := pre ++ ext } es { d with rest := ext } := by
  induction run with
  | refl c => exact ⟨[], rfl, rfl, fun ext => .refl _⟩
  | next head tail ih =>
      obtain ⟨tok, hr, hpos, hstep⟩ := scanStep_emit_local head
      obtain ⟨pre, hr', hpos', hrun⟩ := ih
      refine ⟨tok ++ pre, ?_, ?_, fun ext => ?_⟩
      · rw [hr, hr', List.append_assoc]
      · rw [hpos', hpos, List.length_append, Nat.add_assoc]
      · rw [List.append_assoc]
        exact .next (hstep (pre ++ ext)) (hrun ext)

/-- What a finished run says about its input and about other inputs. -/
theorem scans_local {w : Bytes} {es : List Event} {st : Status} {off : Nat}
    (h : Scans limit w es st off) :
    ∃ pre rest, w = pre ++ rest ∧ off = pre.length ∧ (st = .errTruncated → rest = []) ∧
      (st = .ok → ∀ ext, Scans limit (pre ++ ext) es st off) ∧
      (st ≠ .ok → st ≠ .errTruncated → st ≠ .errStringLength → ∀ ext, rest.take 1 <+: ext →
        Scans limit (pre ++ ext) es st off) := by
  obtain ⟨d, hrun, hstop⟩ := h
  obtain ⟨pre, hr, hpos, hext⟩ := reaches_local hrun
  simp only [Config.start, Nat.zero_add] at hr hpos
  rcases scanStep_stop hstop with ⟨t, ht, rfl, rfl⟩ | ⟨-, bad, tok, rest, hcut, rfl, htrunc, hsame⟩
  · refine ⟨pre, d.rest, hr, hpos, fun h => (by cases h), fun _ ext => ⟨_, hext ext, ?_⟩,
      fun h => absurd rfl h⟩
    simp only [scanStep, ht]
  · refine ⟨pre ++ tok, rest, by rw [hr, hcut, List.append_assoc],
      by rw [hpos, List.length_append], htrunc, fun h => absurd h bad, ?_⟩
    intro _ h1 h2 ext hrest
    rw [List.append_assoc]
    exact ⟨_, hext (tok ++ ext), hsame h1 h2 ext hrest⟩

theorem scans_extend {w ext : Bytes} {es fs : List Event} {st st' : Status} {off off' : Nat}
    (h : Scans limit w es st off) (h' : Scans limit (w ++ ext) fs st' off') : es <+: fs := by
  obtain ⟨d, hrun, -⟩ := h
  obtain ⟨pre, hr, -, hext⟩ := reaches_local hrun
  have hlonger := hext (d.rest ++ ext)
  rw [← List.append_assoc, ← hr] at hlonger
  obtain ⟨rest, hfs, -⟩ := Reaches.of_finishes hlonger h'
  exact ⟨rest, hfs.symm⟩

end Bencode
