import Bencode.Client.Encoding
import Bencode.Emit.BufferRun

/-!
# How a client's trees are written

A sink that is given any node of a client is called with nonempty chunks that spell a
beginning of one text, until it refuses one. The growing buffer receives that text, or
memory has run out.
-/

namespace Bencode

open Delivery

variable {τ : Type}

/-- Emission of any node that a client holds, on any sink: the logged sink is the sink with a log
of its calls, and the calls keep to the protocol for the encoding of the node. -/
theorem held_protocol {m : Memory} {c : Client} {v : Value} (hc : Reachable m c) (hv : c.Holds v)
    (bufs : Buffers) (emit : Sink τ) (user : τ) :
    ∃ st user' calls, bencodeEmit bufs (some v) (some emit) user = (st, user') ∧
      bencodeEmit bufs (some v) (some (logged emit)) (user, []) = (st, user', calls) ∧
      Protocol emit (v.tree bufs).encode st calls := by
  have fits := (hc.consistent.sound_of_holds hv).fits bufs v
  obtain ⟨calls, hrun, protocol⟩ := emitValue_protocol fits emit user
  exact ⟨_, _, calls, rfl, hrun, protocol⟩

/-- A sink that refuses its fourth chunk. -/
theorem held_protocol_sample :
    ∃ calls : List (Nat × Span),
      bencodeEmit sampleBufs (some (sampleDesk [120, 121]).first)
        (some (logged fun _ n => (if n = 3 then .errIo else .ok, n + 1))) (0, []) =
          (.errIo, 4, calls) ∧
      Protocol (fun _ n => (if n = 3 then .errIo else .ok, n + 1)) sampleText .errIo calls := by
  have hv := @first_held (sampleDesk [120, 121]) (by decide +kernel)
  obtain ⟨st, n, calls, hemit, hlogged, protocol⟩ := held_protocol (sampleDesk_reached [120, 121])
    hv sampleBufs (fun _ n => (if n = 3 then .errIo else .ok, n + 1)) 0
  have hend : bencodeEmit sampleBufs (some (sampleDesk [120, 121]).first)
      (some fun _ n => (if n = 3 then .errIo else .ok, n + 1)) 0 = (.errIo, 4) := by
    decide +kernel
  have htext : ((sampleDesk [120, 121]).first.tree sampleBufs).encode = sampleText := by
    decide +kernel
  rw [hend] at hemit
  cases hemit
  rw [htext] at protocol
  exact ⟨calls, hlogged, protocol⟩

/-! ## The growing buffer -/

theorem Tree.encode_pos (t : Tree) : 0 < t.encode.length := by
  cases t with
  | int i => simp [Tree.encode, encodeInt]
  | string bytes => simp [Tree.encode, encodeString]
  | list items => simp [Tree.encode]
  | dict entries => simp [Tree.encode]

/-- Emission of any node that a client holds to a buffer of its own, with any allocator that has
both functions and any refusals: what is returned, and what every write on the way does. -/
theorem held_buffer {n : Memory} {c : Client} {v : Value} (hc : Reachable n c) (hv : c.Holds v)
    (bufs : Buffers) {a : AllocRef} (checked : bencodeAllocatorCheck a = .ok) (m : Memory) :
    ∃ text r, Writes bufs v text ∧ bencodeEmitToAlloc bufs (some v) a m = r ∧
      ((r.status = .ok ∧ r.contents = text ∧ r.outLen = text.length ∧
          ∃ b, r.outBytes = some b ∧ text.length ≤ b.size) ∨
        (r.status = .errNomem ∧ r.outBytes = none ∧ r.contents = [] ∧ r.outLen = 0)) ∧
      r.mem.misuses = m.misuses ∧
      ∃ st s calls, emitValue bufs v allocSinkAppend (.fresh a m) = (st, s) ∧
        emitValue bufs v (logged allocSinkAppend) (.fresh a m, []) = (st, s, calls) ∧
        ∀ call ∈ calls, WritesInside call.1 call.2 := by
  have sound := hc.consistent.sound_of_holds hv
  have fits := sound.fits bufs v
  obtain ⟨calls, hrun, hinside⟩ := emitValue_writesInside checked fits m
  have hemitted := bencodeEmitToAlloc_emitted checked bufs v m
  refine ⟨_, _, sound.writes bufs, rfl, ?_, hemitted.misuses, _, _, calls, rfl, hrun, hinside⟩
  generalize bencodeEmitToAlloc bufs (some v) a m = r at hemitted
  cases hemitted with
  | @ok block cap m' array len_le blocks granted =>
      refine .inl ⟨rfl, rfl, rfl, ?_⟩
      cases block with
      | none =>
          have hzero : cap = 0 := array
          have := (v.tree bufs).encode_pos
          omega
      | some b =>
          have hsize : b.size = cap * 1 := array.2.size
          exact ⟨b, rfl, by omega⟩
  | nomem blocks => exact .inr ⟨rfl, rfl, rfl, rfl⟩
  | unformatted long blocks granted => exact absurd fits long

theorem sampleDesk_emitted :
    (bencodeEmitToAlloc sampleBufs (some (sampleDesk (.replicate 4080 120)).first) none
      (.empty fun _ => false)).status = .ok := by decide +kernel

/-- A string of 4080 bytes inside: the first buffer of 4096 bytes is outgrown. -/
theorem held_buffer_sample :
    ∃ text r, Writes sampleBufs (sampleDesk (.replicate 4080 120)).first text ∧
      text.length = 4107 ∧
      bencodeEmitToAlloc sampleBufs (some (sampleDesk (.replicate 4080 120)).first) none
        (.empty fun _ => false) = r ∧
      r.status = .ok ∧ r.contents = text ∧ r.outLen = 4107 ∧
      ∃ b, r.outBytes = some b ∧ 4107 ≤ b.size := by
  have hv := @first_held (sampleDesk (.replicate 4080 120)) (by decide +kernel)
  obtain ⟨text, r, hwrites, hrun, hresult, -⟩ := held_buffer
    (sampleDesk_reached (.replicate 4080 120)) hv sampleBufs (a := none) rfl
    (.empty fun _ => false)
  have hlength : text.length = 4107 := by
    rw [held_text (sampleDesk_reached _) hv hwrites]
    decide +kernel
  have hstatus : r.status = .ok := hrun ▸ sampleDesk_emitted
  refine ⟨text, r, hwrites, hlength, hrun, hstatus, ?_⟩
  rcases hresult with ⟨-, hcontents, hlen, hblock⟩ | ⟨hnomem, -⟩
  · rw [hlength] at hlen hblock
    exact ⟨hcontents, hlen, hblock⟩
  · rw [hstatus] at hnomem
    cases hnomem

end Bencode
