import Bencode.Sax.Refinement
import Bencode.Spec.Stops

/-!
# The SAX parser is total and stays in bounds

A call that returns has not faulted: it has read inside the input, used scope
indices below the internal limit, popped only open scopes and met no missing
progress. It also reports an offset inside the input and leaves no scope open.
-/

namespace Bencode

open LabelledMachine Delivery

variable {σ : Type}

/-- A callback has ended the run: it accepted some of the events that the parser tells on this
input, in their order, and its verdict on the next one is what the parser reports. -/
def RefusedBy (input : Span) (cb : Option (Callbacks σ)) (user : σ) (maxDepth : Nat)
    (r : SaxResult σ) : Prop :=
  ∃ log st off es e u, bencodeParseSax input (some recorder) [] maxDepth = .ok ⟨st, off, log⟩ ∧
    es ++ [e] <+: log ∧ deliver .ok (callBack cb) es user = (.ok, u) ∧
    callBack cb e u = (r.status, r.user) ∧ r.status ≠ .ok

theorem reaches_inBounds {limit : Nat} {w : Bytes} {es : List Event} {d : Config}
    (run : Reaches (scanStep limit) (.start w) es d) :
    d.pos + d.rest.length = w.length := by
  obtain ⟨pre, hr, hpos, -⟩ := reaches_local run
  simp only [Config.start, Nat.zero_add] at hr hpos
  rw [hpos, hr, List.length_append]

theorem Replays.consumed_le {limit : Nat} {w : Bytes} {cb : Option (Callbacks σ)} {user : σ}
    {r : SaxResult σ} (h : Replays limit w cb user r) : r.consumed ≤ w.length := by
  cases h with
  | finished es run told =>
      obtain ⟨pre, rest, rfl, hoff, -⟩ := scans_local run
      rw [hoff, List.length_append]
      omega
  | refused es e d u bad run pos told refusal =>
      have := reaches_inBounds run
      omega

theorem Replays.truncated {input : Span} {maxDepth : Nat} {cb : Option (Callbacks σ)} {user : σ}
    {r : SaxResult σ} (hbad : input.isBad = false)
    (h : Replays (effectiveDepth maxDepth) input.bytes cb user r) (hst : r.status = .errTruncated) :
    r.consumed = input.bytes.length ∨ RefusedBy input cb user maxDepth r := by
  cases h with
  | finished es run told =>
      obtain ⟨pre, rest, hsplit, hoff, htrunc, -⟩ := scans_local run
      rw [htrunc hst, List.append_nil] at hsplit
      exact .inl (hsplit ▸ hoff)
  | refused es e d u bad run pos told refusal =>
      obtain ⟨log, st, off, hrec, scan⟩ := bencodeParseSax_recorder input hbad maxDepth
      obtain ⟨rest, rfl, -⟩ := run.of_finishes scan
      exact .inr ⟨_, st, off, es, e, u, hrec, List.prefix_append _ rest, told, refusal, bad⟩

/-- `bencode_parse_sax` returns without a fault on every input, whatever the callbacks do;
the depth is zero again, and only a callback reports a truncation before the end. -/
theorem bencodeParseSax_safe (input : Span) (cb : Option (Callbacks σ)) (user : σ)
    (maxDepth : Nat) :
    (∃ st s', parseValue (saxFuel input.bytes.length)
        (saxStart input.bytes cb user maxDepth) = .ok (st, s') ∧ s'.depth = 0) ∧
      ∃ r, bencodeParseSax input cb user maxDepth = .ok r ∧ r.consumed ≤ input.len ∧
        (r.status = .errTruncated →
          r.consumed = input.len ∨ RefusedBy input cb user maxDepth r) := by
  constructor
  · obtain ⟨st, s', hrun, hframe, -⟩ := saxStart_answers input.bytes cb user maxDepth
    exact ⟨st, s', hrun, hframe.depth⟩
  by_cases hbad : input.isBad = false
  · obtain ⟨r, hrun, hreplay⟩ := bencodeParseSax_replays input hbad cb user maxDepth
    rw [← Span.length_bytes hbad]
    exact ⟨r, hrun, hreplay.consumed_le, hreplay.truncated hbad⟩
  · refine ⟨⟨.errInvalidArg, 0, user⟩, by simp [bencodeParseSax, hbad], Nat.zero_le _, ?_⟩
    intro hst
    cases hst

end Bencode
