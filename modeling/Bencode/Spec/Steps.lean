import Bencode.Spec.Token

/-!
# The steps of the scanner, one rule per token

`Reads` lists what the scanner can read in a given stack: which bytes, which event,
which stack afterwards. A step emits an event exactly when one of the rules applies
to a beginning of the input.
-/

namespace Bencode

open LabelledMachine

variable {limit : Nat}

/-! ## The rules -/

/-- The innermost container waits for a value, not for a key. -/
def Awaits : List OpenScope → Prop
  | .dict _ none :: _ => False
  | _ => True

/-- `Reads limit stack pos tok e next`: at offset `pos` the token `tok` is an event `e`. -/
inductive Reads (limit : Nat) : List OpenScope → Nat → Bytes → Event →
    List OpenScope × Option Tree → Prop
  | int {stack : List OpenScope} {pos : Nat} (await : Awaits stack) (i : Int64) :
      Reads limit stack pos (encodeInt i) (.int i) (settle stack (.int i))
  | string {stack : List OpenScope} {pos : Nat} (await : Awaits stack) (bytes : Bytes)
      (fits : bytes.length ≤ sizeMax) :
      Reads limit stack pos (encodeString bytes) (stringEvent pos bytes)
        (settle stack (.string bytes))
  | listBegin {stack : List OpenScope} {pos : Nat} (await : Awaits stack)
      (room : stack.length < limit) :
      Reads limit stack pos ['l'.toUInt8] .listBegin (.list [] :: stack, none)
  | dictBegin {stack : List OpenScope} {pos : Nat} (await : Awaits stack)
      (room : stack.length < limit) :
      Reads limit stack pos ['d'.toUInt8] .dictBegin (.dict [] none :: stack, none)
  | key {pos : Nat} (done : List (Bytes × Tree)) (below : List OpenScope) (k : Bytes)
      (order : keyOrder (lastKey done) k = .ok) (fits : k.length ≤ sizeMax) :
      Reads limit (.dict done none :: below) pos (encodeString k) (stringEvent pos k)
        (.dict done (some k) :: below, none)
  | listEnd {pos : Nat} (done : List Tree) (below : List OpenScope) :
      Reads limit (.list done :: below) pos ['e'.toUInt8] .listEnd (settle below (.list done))
  | dictEnd {pos : Nat} (done : List (Bytes × Tree)) (below : List OpenScope) :
      Reads limit (.dict done none :: below) pos ['e'.toUInt8] .dictEnd
        (settle below (.dict done))

def Config.after (c : Config) (tok rest : Bytes) (next : List OpenScope × Option Tree) : Config :=
  ⟨next.1, next.2, rest, c.pos + tok.length⟩

theorem Config.offset_append {c : Config} {tok rest : Bytes} (h : c.rest = tok ++ rest) :
    c.offset rest = c.pos + tok.length := by
  rw [offset, h, List.length_append]
  omega

theorem Config.give_readTo {c : Config} {tok rest : Bytes} (h : c.rest = tok ++ rest) (t : Tree) :
    (c.readTo rest).give t = c.after tok rest (settle c.stack t) := by
  unfold give readTo after
  rw [offset_append h]

theorem Config.readTo_stack {c : Config} {tok rest : Bytes} (h : c.rest = tok ++ rest)
    (hopen : c.result = none) (stack : List OpenScope) :
    { c.readTo rest with stack := stack } = c.after tok rest (stack, none) := by
  unfold readTo after
  rw [offset_append h, hopen]

theorem Config.stringEvent_eq {c : Config} {bytes rest : Bytes}
    (h : c.rest = encodeString bytes ++ rest) :
    c.stringEvent bytes rest = Bencode.stringEvent c.pos bytes := by
  rw [Config.stringEvent, offset_append h, Bencode.stringEvent, encodeString, List.length_append,
    List.length_cons]
  congr 1
  omega

/-! ## First bytes -/

theorem encodeString_cons (bytes : Bytes) :
    ∃ b bs, encodeString bytes = b :: bs ∧ isDigit b = true := by
  obtain ⟨b, ds, hfmt⟩ := List.exists_cons_of_ne_nil (Decimal.format_ne_nil bytes.length)
  have hb : isDigit b = true := Decimal.format_digits (hfmt ▸ List.mem_cons_self)
  exact ⟨b, _, by rw [encodeString, formatNat, hfmt, List.cons_append], hb⟩

theorem ne_of_isDigit {b x : UInt8} (hb : isDigit b = true) (hx : isDigit x = false) : b ≠ x := by
  rintro rfl
  rw [hb] at hx
  cases hx

/-! ## Emitting steps follow the rules -/

section Emits

variable {c d : Config} {e : Event} {b : UInt8} {bs : Bytes}

theorem scanStep_value (hopen : c.result = none) (await : Awaits c.stack) (hr : c.rest = b :: bs)
    (hb : b ≠ 'e'.toUInt8) : scanStep limit c = scanValue limit c b bs := by
  simp only [scanStep, hopen, hr, scanByte]
  cases hstack : c.stack with
  | nil => rfl
  | cons o below =>
      cases o with
      | list done => simp only [if_neg hb]
      | dict done key =>
          cases key with
          | none =>
              rw [hstack] at await
              exact await.elim
          | some k => simp only [if_neg hb]

theorem scanValue_emit (hopen : c.result = none) (await : Awaits c.stack) (hr : c.rest = b :: bs)
    (h : scanValue limit c b bs = .emit e d) :
    ∃ tok rest next, c.rest = tok ++ rest ∧ Reads limit c.stack c.pos tok e next ∧
      d = c.after tok rest next := by
  unfold scanValue at h
  split at h
  · next hb =>
      split at h
      · next i rest hscan =>
          cases h
          have hcut : c.rest = encodeInt i ++ rest := by
            rw [hr, hb, scanInt_ok hscan, encodeInt]
            simp
          exact ⟨_, rest, _, hcut, .int await i, c.give_readTo hcut _⟩
      · cases h
  · split at h
    · next hb =>
        split at h
        · cases h
        · next hroom =>
            cases h
            have hcut : c.rest = ['l'.toUInt8] ++ bs := by rw [hr, hb]; rfl
            exact ⟨_, bs, _, hcut, .listBegin await (Nat.lt_of_not_le hroom),
              c.readTo_stack hcut hopen _⟩
    · split at h
      · next hb =>
          split at h
          · cases h
          · next hroom =>
              cases h
              have hcut : c.rest = ['d'.toUInt8] ++ bs := by rw [hr, hb]; rfl
              exact ⟨_, bs, _, hcut, .dictBegin await (Nat.lt_of_not_le hroom),
                c.readTo_stack hcut hopen _⟩
      · split at h
        · split at h
          · next bytes rest hscan =>
              cases h
              obtain ⟨hcut, fits⟩ := scanString_ok hscan
              rw [← hr] at hcut
              rw [c.stringEvent_eq hcut]
              exact ⟨_, rest, _, hcut, .string await bytes fits, c.give_readTo hcut _⟩
          · cases h
        · cases h

theorem scanKey_emit (limit : Nat) {done : List (Bytes × Tree)} {below : List OpenScope}
    (hopen : c.result = none) (hstack : c.stack = .dict done none :: below) (hr : c.rest = b :: bs)
    (h : scanKey c done below b bs = .emit e d) :
    ∃ tok rest next, c.rest = tok ++ rest ∧ Reads limit c.stack c.pos tok e next ∧
      d = c.after tok rest next := by
  unfold scanKey at h
  split at h
  · split at h
    · cases h
    · next k rest hscan =>
        obtain ⟨hcut, fits⟩ := scanString_ok hscan
        rw [← hr] at hcut
        split at h
        · next order =>
            cases h
            rw [c.stringEvent_eq hcut, hstack]
            exact ⟨_, rest, _, hcut, .key done below k order fits, c.readTo_stack hcut hopen _⟩
        · cases h
  · cases h

theorem closing_eq {below : List OpenScope} (hr : c.rest = 'e'.toUInt8 :: bs) (t : Tree) :
    { c.readTo bs with stack := below }.give t = c.after ['e'.toUInt8] bs (settle below t) := by
  have hcut : c.rest = ['e'.toUInt8] ++ bs := hr
  unfold Config.give Config.readTo Config.after
  rw [Config.offset_append hcut]

theorem scanStep_emit (h : scanStep limit c = .emit e d) :
    c.result = none ∧ ∃ tok rest next, c.rest = tok ++ rest ∧
      Reads limit c.stack c.pos tok e next ∧ d = c.after tok rest next := by
  cases hopen : c.result with
  | some t =>
      simp only [scanStep, hopen] at h
      cases h
  | none =>
      refine ⟨rfl, ?_⟩
      cases hr : c.rest with
      | nil =>
          simp only [scanStep, hopen, hr] at h
          cases h
      | cons b bs =>
          rw [← hr]
          simp only [scanStep, hopen, hr, scanByte] at h
          cases hstack : c.stack with
          | nil =>
              simp only [hstack] at h
              have := scanValue_emit hopen (by rw [hstack]; trivial) hr h
              rwa [hstack] at this
          | cons o below =>
              cases o with
              | list done =>
                  simp only [hstack] at h
                  split at h
                  · next hb =>
                      cases h
                      rw [hb] at hr
                      exact ⟨_, bs, _, hr, .listEnd done below, closing_eq hr _⟩
                  · have := scanValue_emit hopen (by rw [hstack]; trivial) hr h
                    rwa [hstack] at this
              | dict done key =>
                  cases key with
                  | none =>
                      simp only [hstack] at h
                      split at h
                      · next hb =>
                          cases h
                          rw [hb] at hr
                          exact ⟨_, bs, _, hr, .dictEnd done below, closing_eq hr _⟩
                      · have := scanKey_emit limit hopen hstack hr h
                        rwa [hstack] at this
                  | some k =>
                      simp only [hstack] at h
                      split at h
                      · cases h
                      · have := scanValue_emit hopen (by rw [hstack]; trivial) hr h
                        rwa [hstack] at this

/-- Every rule is a step, whatever follows its token. -/
theorem Reads.step {tok : Bytes} {next : List OpenScope × Option Tree}
    (h : Reads limit c.stack c.pos tok e next) (hopen : c.result = none) {rest : Bytes}
    (hr : c.rest = tok ++ rest) : scanStep limit c = .emit e (c.after tok rest next) := by
  generalize hstack : c.stack = stack at h
  generalize hpos : c.pos = pos at h
  cases h with
  | int await i =>
      have hr' : c.rest = 'i'.toUInt8 :: (formatInt i ++ 'e'.toUInt8 :: rest) := by
        rw [hr, encodeInt]
        simp
      rw [scanStep_value hopen (hstack ▸ await) hr' (by decide), scanValue, if_pos rfl,
        scanInt_format]
      simp only [c.give_readTo hr, hstack]
  | string await bytes fits =>
      obtain ⟨b, bs, henc, hb⟩ := encodeString_cons bytes
      have hr' : c.rest = b :: (bs ++ rest) := by rw [hr, henc, List.cons_append]
      have hscan := scanString_encode fits rest
      rw [henc, List.cons_append] at hscan
      rw [scanStep_value hopen (hstack ▸ await) hr' (ne_of_isDigit hb (by decide)), scanValue,
        if_neg (ne_of_isDigit hb (by decide)), if_neg (ne_of_isDigit hb (by decide)),
        if_neg (ne_of_isDigit hb (by decide)), if_pos hb, hscan]
      simp only [c.give_readTo hr, c.stringEvent_eq hr, hstack, hpos]
  | listBegin await room =>
      have hfull : ¬ c.stack.length ≥ limit := Nat.not_le_of_lt (hstack ▸ room)
      rw [scanStep_value hopen (hstack ▸ await) hr (by decide), scanValue, if_neg (by decide),
        if_pos rfl, if_neg hfull, hstack]
      exact congrArg _ (c.readTo_stack hr hopen _)
  | dictBegin await room =>
      have hfull : ¬ c.stack.length ≥ limit := Nat.not_le_of_lt (hstack ▸ room)
      rw [scanStep_value hopen (hstack ▸ await) hr (by decide), scanValue, if_neg (by decide),
        if_neg (by decide), if_pos rfl, if_neg hfull, hstack]
      exact congrArg _ (c.readTo_stack hr hopen _)
  | key done below k order fits =>
      obtain ⟨b, bs, henc, hb⟩ := encodeString_cons k
      have hr' : c.rest = b :: (bs ++ rest) := by rw [hr, henc, List.cons_append]
      have hscan := scanString_encode fits rest
      rw [henc, List.cons_append] at hscan
      have hbe : b ≠ 'e'.toUInt8 := ne_of_isDigit hb (by decide)
      simp only [scanStep, hopen, hr', scanByte, hstack, if_neg hbe, scanKey, if_pos hb, hscan,
        order, c.stringEvent_eq hr, hpos]
      exact congrArg _ (c.readTo_stack hr hopen _)
  | listEnd done below =>
      have hr' : c.rest = 'e'.toUInt8 :: rest := hr
      simp only [scanStep, hopen, hr', scanByte, hstack, if_pos]
      exact congrArg _ (closing_eq hr' _)
  | dictEnd done below =>
      have hr' : c.rest = 'e'.toUInt8 :: rest := hr
      simp only [scanStep, hopen, hr', scanByte, hstack, if_pos]
      exact congrArg _ (closing_eq hr' _)

end Emits

end Bencode
