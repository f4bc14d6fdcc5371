import Bencode.Sax.Refinement
import Bencode.Spec.Flaw

/-!
# Where the parser gives up

The status and the offset of a failed parse are those of the first flaw of the input.
-/

namespace Bencode

variable {σ : Type}

/-! ## Missing input is missing at the end -/

theorem NumeralFlaw.truncated {cap : Nat} {tok rest : Bytes}
    (h : NumeralFlaw cap tok rest .errTruncated) : rest = [] := by
  cases h with
  | ended => rfl

theorem CloseFlaw.truncated {close : UInt8} {rest : Bytes}
    (h : CloseFlaw close rest .errTruncated) : rest = [] := by
  cases h with
  | ended => rfl

theorem MagnitudeFlaw.truncated {negative : Bool} {tok rest : Bytes}
    (h : MagnitudeFlaw negative tok rest .errTruncated) : rest = [] := by
  cases h with
  | numeral h => exact h.truncated
  | close numeral fits nonzero h => exact h.truncated

theorem IntFlaw.truncated {tok rest : Bytes} (h : IntFlaw tok rest .errTruncated) : rest = [] := by
  cases h with
  | unsigned noSign h => exact h.truncated
  | negative h => exact h.truncated

theorem StringFlaw.truncated {tok rest : Bytes} (h : StringFlaw tok rest .errTruncated) :
    rest = [] := by
  cases h with
  | numeral h => exact h.truncated
  | close numeral fits h => exact h.truncated

theorem Flaw.truncated {limit : Nat} {stack : List OpenScope} {tok rest : Bytes}
    (h : Flaw limit stack tok rest .errTruncated) : rest = [] := by
  cases h with
  | ended => rfl
  | int await h => exact h.truncated
  | string first digit h => exact h.truncated

/-! ## The parser -/

/-- While no callback refuses, a failed parse reports the first flaw of the input and how many
bytes stand before the place where it shows. There is at most one such flaw, and an input without
one is accepted; input that is missing is missing at the end. -/
theorem bencodeParseSax_pinpoints (input : Span) (valid : input.isBad = false)
    (cb : Option (Callbacks σ)) (accepts : ∀ e u, (callBack cb e u).1 = .ok) (user : σ)
    (maxDepth : Nat) :
    ∃ r, bencodeParseSax input cb user maxDepth = .ok r ∧
      (∀ st off, st ≠ .ok → ((r.status = st ∧ r.consumed = off) ↔
        FirstFlaw (effectiveDepth maxDepth) input.bytes st off)) ∧
      (r.status = .errTruncated → r.consumed = input.bytes.length) := by
  obtain ⟨r, hrun, hreplay⟩ := bencodeParseSax_replays input valid cb user maxDepth
  obtain ⟨es, scan, -⟩ := hreplay.of_accepting accepts
  refine ⟨r, hrun, fun st off bad => scans_flaw_iff scan bad, ?_⟩
  intro htruncated
  obtain ⟨c, tok, rest, -, -, -, flaw, hoff⟩ :=
    (scans_flaw_iff scan (by decide : Status.errTruncated ≠ .ok)).mp ⟨htruncated, rfl⟩
  rw [flaw.truncated] at hoff
  exact hoff

/-- The literal of a negative zero. -/
theorem bencodeParseSax_pinpoints_zero : FirstFlaw 64 [105, 45, 48, 101] .errIntegerFormat 3 := by
  obtain ⟨r, hrun, hflaw, -⟩ := bencodeParseSax_pinpoints (.mem [105, 45, 48, 101]) rfl none
    (fun _ _ => rfl) () 0
  have hresult : (bencodeParseSax (.mem [105, 45, 48, 101]) none () 0).toOption.map
      (fun r => (r.status, r.consumed)) = some (.errIntegerFormat, 3) := by decide +kernel
  rw [hrun] at hresult
  obtain ⟨hstatus, hconsumed⟩ := Prod.mk.inj (Option.some.inj hresult)
  exact (hflaw .errIntegerFormat 3 (by decide)).mp ⟨hstatus, hconsumed⟩

end Bencode
