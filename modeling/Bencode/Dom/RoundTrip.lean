import Bencode.Dom.Run
import Bencode.Emit.Pieces

/-!
# Decoding, then encoding

The tree of an accepted input is written back as the bytes that were read.
-/

namespace Bencode

theorem Parsed.text {bufs : Buffers} {base limit : Nat} {trailing : Bool} {w : Bytes} {m : Memory}
    {r : ParseResult} (h : Parsed bufs base limit trailing w m r) (accepted : r.status = .ok) :
    ∃ v, r.out = some v ∧ v.Sound ∧ (v.tree bufs).encode = w.take r.consumed ∧
      (trailing = false → w.take r.consumed = w) := by
  cases h with
  | @accepted v rest es m' scan text whole sound told blocks granted =>
      have htake : w.take (v.tree bufs).encode.length = (v.tree bufs).encode := by
        rw [text, List.take_left]
      refine ⟨v, rfl, sound, htake.symm, ?_⟩
      intro hstrict
      rcases whole with hwhole | rfl
      · rw [hstrict] at hwhole
        cases hwhole
      · rw [List.append_nil] at text
        exact htake.trans text.symm
  | trailing => cases accepted
  | rejected scan bad => exact absurd accepted bad
  | nomem => cases accepted

/-- When `bencode_parse` accepts an input, emitting its tree to a sink that accepts everything
writes the bytes it has consumed; without `allow_trailing` these are the whole input. -/
theorem bencodeParse_emit {bufs : Buffers} {base : Nat} {opts : Option ParseOptions} {m : Memory}
    {r : ParseResult} (run : bencodeParse bufs (.buffer base) opts m = .ok r)
    (accepted : r.status = .ok) :
    ∃ v, r.out = some v ∧
      (∀ (τ : Type) (receive : Span → τ → τ) (user : τ), ∃ user',
        bencodeEmit bufs (some v) (some (acceptingSink receive)) (user, []) =
          (.ok, user', (bufs base).take r.consumed)) ∧
      ((opts.getD .default).allowTrailing = false →
        (bufs base).take r.consumed = bufs base) := by
  by_cases checked : bencodeAllocatorCheck (opts.getD .default).allocator = .ok
  · obtain ⟨r', hrun, hparsed⟩ := bencodeParse_parsed bufs base opts checked m
    cases run.symm.trans hrun
    obtain ⟨v, hv, sound, htext, hstrict⟩ := hparsed.text accepted
    refine ⟨v, hv, fun τ receive user => ?_, hstrict⟩
    rw [← htext]
    exact bencodeEmit_accepting bufs v (sound.fits bufs v) receive user
  · cases run.symm.trans (bencodeParse_unchecked checked)
    exact absurd accepted checked

/-- A dict with a nested empty list, read strictly and written back. -/
theorem bencodeParse_emit_dict :
    ∃ r v user', bencodeParse (fun _ => [100, 49, 58, 97, 108, 101, 101]) (.buffer 0) none
        (.empty fun _ => false) = .ok r ∧ r.out = some v ∧
      bencodeEmit (fun _ => [100, 49, 58, 97, 108, 101, 101]) (some v)
        (some (acceptingSink fun _ n => n + 1)) (0, []) =
          (.ok, user', [100, 49, 58, 97, 108, 101, 101]) := by
  have hst : (bencodeParse (fun _ => [100, 49, 58, 97, 108, 101, 101]) (.buffer 0) none
      (.empty fun _ => false)).toOption.map (·.status) = some .ok := by decide +kernel
  cases hrun : bencodeParse (fun _ => [100, 49, 58, 97, 108, 101, 101]) (.buffer 0) none
      (.empty fun _ => false) with
  | error f =>
      rw [hrun] at hst
      cases hst
  | ok r =>
      rw [hrun] at hst
      obtain ⟨v, hv, hemit, hstrict⟩ := bencodeParse_emit hrun (Option.some.inj hst)
      obtain ⟨user', hwrites⟩ := hemit Nat (fun _ n => n + 1) 0
      rw [hstrict rfl] at hwrites
      exact ⟨r, v, user', rfl, hv, hwrites⟩

end Bencode
