import Bencode.Spec.Blocked

/-!
# The first violation of an input

An input is legal up to a place when the rules read it up to there. What makes it
illegal at that place is stated on the open containers and the bytes that are left,
without the scanner; the scanner's status says which violation it was.
-/

namespace Bencode

open LabelledMachine

/-! ## Legal beginnings -/

inductive Legal (limit : Nat) (w : Bytes) : Config → Prop
  | start : Legal limit w (.start w)
  | read {c : Config} {tok rest : Bytes} {e : Event} {next : List OpenScope × Option Tree}
      (before : Legal limit w c) (hopen : c.result = none) (split : c.rest = tok ++ rest)
      (read : Reads limit c.stack c.pos tok e next) : Legal limit w (c.after tok rest next)

variable {limit : Nat} {w : Bytes}

theorem Legal.reaches {c : Config} (h : Legal limit w c) :
    ∃ es, Reaches (scanStep limit) (.start w) es c := by
  induction h with
  | start => exact ⟨[], .refl _⟩
  | read before hopen split read ih =>
      obtain ⟨es, hes⟩ := ih
      exact ⟨_, hes.trans (.single (read.step hopen split))⟩

theorem legal_of_reaches {c : Config} {es : List Event}
    (run : Reaches (scanStep limit) (.start w) es c) : Legal limit w c := by
  refine run.invariant (P := fun _ c => Legal limit w c) .start fun before head => ?_
  obtain ⟨hopen, tok, rest, next, split, read, rfl⟩ := scanStep_emit head
  exact .read before hopen split read

theorem Legal.suffix {c : Config} (h : Legal limit w c) : c.rest <:+ w := by
  induction h with
  | start => exact List.suffix_refl w
  | @read c tok rest e next before hopen split read ih =>
      have hrest : rest <:+ c.rest := ⟨tok, split.symm⟩
      exact hrest.trans ih

/-- The input is legal up to a place where something is still to be read, and `P` holds there of
the open containers and the bytes that are left. -/
def First (limit : Nat) (w : Bytes) (P : List OpenScope → Bytes → Prop) : Prop :=
  ∃ c, Legal limit w c ∧ c.result = none ∧ P c.stack c.rest

/-- A run ends with an error exactly when its rule blocks the input somewhere. -/
theorem scans_status_iff {es : List Event} {st s : Status} {off : Nat}
    (scan : Scans limit w es st off) (bad : s ≠ .ok) :
    st = s ↔ First limit w fun stack rest => Blocked limit stack rest s := by
  constructor
  · rintro rfl
    obtain ⟨d, run, stop⟩ := scan
    rcases hopen : d.result with _ | t
    · exact ⟨d, legal_of_reaches run, hopen, scanStep_blocked hopen stop⟩
    · simp only [scanStep, hopen] at stop
      cases stop
      exact absurd rfl bad
  · rintro ⟨c, legal, hopen, blocked⟩
    obtain ⟨es', run⟩ := legal.reaches
    obtain ⟨off', stop⟩ := blocked.stops hopen
    obtain ⟨-, heq⟩ := scan.unique ⟨c, run, stop⟩
    exact congrArg Prod.fst heq

theorem blocked_unique {c d : Config} {s s' : Status} (hc : Legal limit w c)
    (hopen : c.result = none) (blocked : Blocked limit c.stack c.rest s) (hd : Legal limit w d)
    (hopen' : d.result = none) (blocked' : Blocked limit d.stack d.rest s') : c = d := by
  obtain ⟨es, run⟩ := hc.reaches
  obtain ⟨es', run'⟩ := hd.reaches
  obtain ⟨off, stop⟩ := blocked.stops hopen
  obtain ⟨off', stop'⟩ := blocked'.stops hopen'
  exact (run.unique run' stop stop').2

/-! ## Violations of the structure -/

inductive Violation
  | keyRepeated
  | keyUnsorted
  | keyMalformed
  | valueMissing
  | tooDeep

def Violation.status : Violation → Status
  | keyRepeated => .errDictDuplicate
  | keyUnsorted => .errDictUnsorted
  | keyMalformed => .errDictBadKey
  | valueMissing => .errDictMissingValue
  | tooDeep => .errNestingTooDeep

/-- `Violates limit v stack rest`: the bytes `rest` begin with the violation `v`, where the
containers `stack` are open. -/
def Violates (limit : Nat) : Violation → List OpenScope → Bytes → Prop
  | .keyRepeated, stack, rest => ∃ done below k tok z, stack = .dict done none :: below ∧
      rest = tok ++ z ∧ Grammar.ByteString tok k ∧ lastKey done = some k
  | .keyUnsorted, stack, rest => ∃ done below k l tok z, stack = .dict done none :: below ∧
      rest = tok ++ z ∧ Grammar.ByteString tok k ∧ lastKey done = some l ∧ k < l
  | .keyMalformed, stack, rest => ∃ done below b z, stack = .dict done none :: below ∧
      rest = b :: z ∧ ¬ Grammar.IsDigit b ∧ b ≠ 'e'.toUInt8
  | .valueMissing, stack, rest => ∃ done k below z, stack = .dict done (some k) :: below ∧
      rest = 'e'.toUInt8 :: z
  | .tooDeep, stack, rest => Awaits stack ∧ limit ≤ stack.length ∧
      ∃ z, rest = 'l'.toUInt8 :: z ∨ rest = 'd'.toUInt8 :: z

theorem Violation.status_injective {v v' : Violation} (h : v.status = v'.status) : v = v' := by
  cases v <;> cases v' <;> first | rfl | cases h

theorem Violation.status_structural (v : Violation) :
    v.status ≠ .ok ∧ v.status ≠ .errStringLength ∧ v.status ∉ numberErrors := by
  cases v <;> decide

theorem keyOrder_eq {last : Option Bytes} {k : Bytes} (bad : keyOrder last k ≠ .ok) :
    (last = some k ∧ keyOrder last k = .errDictDuplicate) ∨
      ∃ l, last = some l ∧ k < l ∧ keyOrder last k = .errDictUnsorted := by
  cases last with
  | none => exact absurd rfl bad
  | some l =>
      simp only [keyOrder] at bad ⊢
      by_cases heq : l = k
      · exact .inl ⟨congrArg some heq, if_pos heq⟩
      · by_cases hlt : k < l
        · exact .inr ⟨l, rfl, hlt, by rw [if_neg heq, if_pos hlt]⟩
        · rw [if_neg heq, if_neg hlt] at bad
          exact absurd rfl bad

/-- Every rule that blocks is a fault in a number or a string, or one of the violations. -/
theorem Blocked.violates {stack : List OpenScope} {rest : Bytes} {st : Status}
    (h : Blocked limit stack rest st) :
    (st = .errStringLength ∨ st ∈ numberErrors) ∨
      ∃ v : Violation, v.status = st ∧ Violates limit v stack rest := by
  cases h with
  | truncated => exact .inl (.inr (by decide))
  | int await scan => exact .inl (.inr (scanInt_err_mem scan))
  | string digit scan => exact .inl (scanString_err_mem scan)
  | @full stack b bs await opens full =>
      refine .inr ⟨.tooDeep, rfl, await, full, bs, ?_⟩
      rcases opens with rfl | rfl
      · exact .inl rfl
      · exact .inr rfl
  | unexpected => exact .inl (.inr (by decide))
  | @key done below k rest fits bad =>
      have htok := Grammar.byteString_encode k
      rcases keyOrder_eq bad with ⟨hlast, hst⟩ | ⟨l, hlast, hlt, hst⟩
      · exact .inr ⟨.keyRepeated, hst.symm, done, below, k, _, rest, rfl, rfl, htok, hlast⟩
      · exact .inr ⟨.keyUnsorted, hst.symm, done, below, k, l, _, rest, rfl, rfl, htok, hlast, hlt⟩
  | @badKey done below b bs noDigit close =>
      refine .inr ⟨.keyMalformed, rfl, done, below, b, bs, rfl, rfl, ?_, close⟩
      rw [Grammar.isDigit_iff]
      exact Bool.eq_false_iff.mp noDigit
  | @missingValue done k below bs =>
      exact .inr ⟨.valueMissing, rfl, done, k, below, bs, rfl, rfl⟩

/-- Every violation blocks, with its status. -/
theorem Violates.blocked {stack : List OpenScope} {rest : Bytes} (fits : rest.length ≤ sizeMax)
    {v : Violation} (h : Violates limit v stack rest) : Blocked limit stack rest v.status := by
  have hshort : ∀ {tok k z : Bytes}, rest = tok ++ z → Grammar.ByteString tok k →
      rest = encodeString k ++ z ∧ k.length ≤ sizeMax := by
    rintro tok k z rfl hk
    obtain rfl := hk.eq_encode
    refine ⟨rfl, le_trans ?_ fits⟩
    simp only [encodeString, List.length_append, List.length_cons]
    omega
  cases v with
  | keyRepeated =>
      obtain ⟨done, below, k, tok, z, rfl, hrest, hk, hlast⟩ := h
      obtain ⟨rfl, hfits⟩ := hshort hrest hk
      have horder : keyOrder (lastKey done) k = .errDictDuplicate := by
        rw [hlast]
        exact if_pos rfl
      have hblocked : Blocked limit (.dict done none :: below) (encodeString k ++ z)
          (keyOrder (lastKey done) k) := .key hfits (by rw [horder]; decide)
      rwa [horder] at hblocked
  | keyUnsorted =>
      obtain ⟨done, below, k, l, tok, z, rfl, hrest, hk, hlast, hlt⟩ := h
      obtain ⟨rfl, hfits⟩ := hshort hrest hk
      have horder : keyOrder (lastKey done) k = .errDictUnsorted := by
        rw [hlast, keyOrder, if_neg hlt.ne', if_pos hlt]
      have hblocked : Blocked limit (.dict done none :: below) (encodeString k ++ z)
          (keyOrder (lastKey done) k) := .key hfits (by rw [horder]; decide)
      rwa [horder] at hblocked
  | keyMalformed =>
      obtain ⟨done, below, b, z, rfl, rfl, hdigit, hb⟩ := h
      rw [Grammar.isDigit_iff] at hdigit
      exact .badKey (Bool.eq_false_iff.mpr hdigit) hb
  | valueMissing =>
      obtain ⟨done, k, below, z, rfl, rfl⟩ := h
      exact .missingValue
  | tooDeep =>
      obtain ⟨await, full, z, rfl | rfl⟩ := h
      · exact .full await (.inl rfl) full
      · exact .full await (.inr rfl) full

theorem First.mono {P Q : List OpenScope → Bytes → Prop}
    (imp : ∀ stack rest, rest.length ≤ w.length → P stack rest → Q stack rest)
    (h : First limit w P) : First limit w Q := by
  obtain ⟨c, legal, hopen, hp⟩ := h
  exact ⟨c, legal, hopen, imp c.stack c.rest legal.suffix.length_le hp⟩

theorem first_violates_iff (hw : w.length ≤ sizeMax) (v : Violation) :
    First limit w (fun stack rest => Blocked limit stack rest v.status) ↔
      First limit w (Violates limit v) := by
  constructor
  · apply First.mono
    intro stack rest _ blocked
    obtain ⟨-, hlength, hnumber⟩ := v.status_structural
    rcases blocked.violates with (hst | hst) | ⟨v', hst, h⟩
    · exact absurd hst hlength
    · exact absurd hst hnumber
    · obtain rfl := Violation.status_injective hst
      exact h
  · exact First.mono fun stack rest hle h => h.blocked (hle.trans hw)

/-! ## Numbers out of range -/

/-- An integer with a canonical literal that denotes no `int64_t`. -/
def IntOutOfRange (stack : List OpenScope) (rest : Bytes) : Prop :=
  Awaits stack ∧ ∃ lit v z, rest = 'i'.toUInt8 :: (lit ++ z) ∧ Grammar.IntLiteral lit v ∧
    startsWithDigit z = false ∧ (v < -2 ^ 63 ∨ 2 ^ 63 ≤ v)

/-- A byte string, a value or a key, with a canonical length of more bytes than are left. -/
def LengthOutOfRange (_ : List OpenScope) (rest : Bytes) : Prop :=
  ∃ lit n z, rest = lit ++ ':'.toUInt8 :: z ∧ Grammar.Numeral lit n ∧ z.length < n

/-- A byte string with a canonical length that no `size_t` holds. -/
def LengthHuge (_ : List OpenScope) (rest : Bytes) : Prop :=
  ∃ lit n z, rest = lit ++ z ∧ Grammar.Numeral lit n ∧ startsWithDigit z = false ∧ sizeMax < n

theorem formatNat_append_cons (n : Nat) (z : Bytes) :
    ∃ b bs, formatNat n ++ z = b :: bs ∧ isDigit b = true := by
  obtain ⟨b, ds, hfmt⟩ := List.exists_cons_of_ne_nil (Decimal.format_ne_nil n)
  refine ⟨b, ds ++ z, by rw [formatNat, hfmt, List.cons_append], ?_⟩
  exact Decimal.format_digits (hfmt ▸ List.mem_cons_self)

/-- One status covers integers out of range and lengths that no `size_t` holds. -/
theorem blocked_overflow_iff {stack : List OpenScope} {rest : Bytes} :
    Blocked limit stack rest .errIntegerOverflow ↔
      IntOutOfRange stack rest ∨ LengthHuge stack rest := by
  constructor
  · intro h
    generalize hst : Status.errIntegerOverflow = st at h
    cases h with
    | int await scan =>
        subst hst
        obtain ⟨lit, v, z, rfl, hlit, hstop, hrange⟩ := scanInt_overflow_iff.mp ⟨_, scan⟩
        exact .inl ⟨await, lit, v, z, rfl, hlit, hstop, hrange⟩
    | string digit scan =>
        subst hst
        obtain ⟨n, z, hrest, hstop, hover⟩ := scanString_overflow_iff.mp ⟨_, scan⟩
        exact .inr ⟨formatNat n, n, z, hrest, Grammar.numeral_format n, hstop, hover⟩
    | key fits bad =>
        rcases keyOrder_eq bad with ⟨-, horder⟩ | ⟨l, -, -, horder⟩
        · cases hst.trans horder
        · cases hst.trans horder
    | truncated => cases hst
    | full => cases hst
    | unexpected => cases hst
    | badKey => cases hst
    | missingValue => cases hst
  · rintro (⟨await, lit, v, z, rfl, hlit, hstop, hrange⟩ | ⟨lit, n, z, rfl, hlit, hstop, hover⟩)
    · obtain ⟨rest, scan⟩ := scanInt_overflow_iff.mpr ⟨lit, v, z, rfl, hlit, hstop, hrange⟩
      exact .int await scan
    · obtain rfl := hlit.eq_format
      obtain ⟨rest, scan⟩ := scanString_overflow_iff.mpr ⟨n, z, rfl, hstop, hover⟩
      obtain ⟨b, bs, heq, hb⟩ := formatNat_append_cons n z
      rw [heq] at scan ⊢
      exact .string hb scan

theorem blocked_length_iff {stack : List OpenScope} {rest : Bytes} :
    Blocked limit stack rest .errStringLength ↔
      LengthOutOfRange stack rest ∧ ¬ LengthHuge stack rest := by
  constructor
  · intro h
    generalize hst : Status.errStringLength = st at h
    cases h with
    | string digit scan =>
        subst hst
        refine ⟨?_, ?_⟩
        · obtain ⟨n, z, hrest, hle, hlong⟩ := scanString_length_iff.mp ⟨_, scan⟩
          exact ⟨formatNat n, n, z, hrest, Grammar.numeral_format n, hlong⟩
        · rintro ⟨lit, n, z, hrest, hlit, hstop, hover⟩
          obtain rfl := hlit.eq_format
          obtain ⟨rest', scan'⟩ := scanString_overflow_iff.mpr ⟨n, z, hrest, hstop, hover⟩
          rw [scan] at scan'
          cases scan'
    | int await scan =>
        subst hst
        exact absurd (scanInt_err_mem scan) (by decide)
    | key fits bad =>
        rcases keyOrder_eq bad with ⟨-, horder⟩ | ⟨l, -, -, horder⟩
        · cases hst.trans horder
        · cases hst.trans horder
    | truncated => cases hst
    | full => cases hst
    | unexpected => cases hst
    | badKey => cases hst
    | missingValue => cases hst
  · rintro ⟨⟨lit, n, z, rfl, hlit, hlong⟩, hsmall⟩
    have hle : n ≤ sizeMax := by
      by_contra hover
      exact hsmall ⟨lit, n, _, rfl, hlit, startsWithDigit_colon z, by omega⟩
    obtain rfl := hlit.eq_format
    obtain ⟨rest, scan⟩ := scanString_length_iff.mpr ⟨n, z, rfl, hle, hlong⟩
    obtain ⟨b, bs, heq, hb⟩ := formatNat_append_cons n (':'.toUInt8 :: z)
    rw [heq] at scan ⊢
    exact .string hb scan

theorem IntOutOfRange.not_lengthHuge {stack : List OpenScope} {rest : Bytes}
    (h : IntOutOfRange stack rest) : ¬ LengthHuge stack rest := by
  obtain ⟨-, lit, v, z, rfl, -⟩ := h
  rintro ⟨lit', n, z', hrest, hlit', -⟩
  obtain rfl := hlit'.eq_format
  obtain ⟨b, bs, heq, hb⟩ := formatNat_append_cons n z'
  rw [heq] at hrest
  cases hrest
  exact absurd hb (by decide)

end Bencode
