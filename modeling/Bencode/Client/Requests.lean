import Bencode.Client.Emission
import Bencode.Client.Sequence
import Bencode.Dom.Requests
import Bencode.Emit.Requests

/-!
# Which requests a caller can count on

A test that refuses one request after the other has to know how many there are. A parse, a
clone and an emission to a buffer make a number of requests that is told by what is read or
written, and when one of them is refused it is the last.
-/

namespace Bencode

open LabelledMachine

/-! ## Parsing -/

/-- The number of requests that a parse makes, told by the bytes and the depth limit. -/
structure Requires (w : Bytes) (maxDepth k : Nat) : Prop where
  nothing : w = [] → k = 0
  asks : ∀ (bufs : Buffers) (base : Nat) (alloc : AllocRef) (trailing : Bool) (m : Memory),
    bufs base = w → bencodeAllocatorCheck alloc = .ok →
    ∃ r, bencodeParse bufs (.buffer base) (some ⟨maxDepth, alloc, trailing⟩) m = .ok r ∧
      ((r.status ≠ .errNomem ∧ m.Asked k r.mem) ∨ (r.status = .errNomem ∧ m.Stopped k r.mem))
  canonical : ∀ (t : Tree) (z : Bytes), t.Regular →
    t.nesting ≤ min (if maxDepth = 0 then 64 else maxDepth) 256 → w = t.encode ++ z →
    k = t.requests false

theorem exists_requires (w : Bytes) (maxDepth : Nat) : ∃ k, Requires w maxDepth k := by
  obtain ⟨es, st, off, -, scan⟩ := bencodeParseSax_recorder (.mem w) rfl maxDepth
  obtain ⟨d, run, stop⟩ := scan
  refine ⟨readRequests (d.stack, d.result), ?_, ?_, ?_⟩
  · rintro rfl
    have hstop : scanStep (effectiveDepth maxDepth) (.start []) = .stop (.errTruncated, 0) := rfl
    obtain ⟨-, rfl, -⟩ := Reaches.unique (.refl _) run hstop stop
    rfl
  · rintro bufs base alloc trailing m rfl checked
    exact bencodeParse_asks maxDepth run stop checked trailing m
  · rintro t z regular shallow rfl
    rw [← effectiveDepth_eq] at shallow
    have hread := t.reaches (.start (t.encode ++ z)) z rfl trivial regular.1 regular.2
      (by simpa [Config.start] using shallow) rfl
    obtain ⟨-, rfl⟩ := hread.unique run rfl stop
    rfl

/-- The bytes of an input and the depth limit tell how many requests a parse makes, for any
allocator with both functions, with trailing bytes allowed or not, whatever was allocated before
and whichever requests are refused: all of them are granted and memory is not what fails, or the
first refusal is the last request and is reported. For a canonical value within the depth limit,
with anything behind it, they are the requests of its nodes, its arrays and its keys. -/
theorem bencodeParse_requests :
    ∃ k : Bytes → Nat → Nat,
      (∀ (bufs : Buffers) (input : InputArg) (opts : Option ParseOptions) (m : Memory),
        bencodeAllocatorCheck (opts.getD .default).allocator = .ok →
        ∃ r, bencodeParse bufs input opts m = .ok r ∧
          ((r.status ≠ .errNomem ∧
              m.Asked (k (input.span bufs).bytes (opts.getD .default).maxDepth) r.mem) ∨
            (r.status = .errNomem ∧
              m.Stopped (k (input.span bufs).bytes (opts.getD .default).maxDepth) r.mem))) ∧
      ∀ (t : Tree) (z : Bytes) (maxDepth : Nat), t.Regular →
        t.nesting ≤ min (if maxDepth = 0 then 64 else maxDepth) 256 →
        k (t.encode ++ z) maxDepth = t.requests false := by
  choose k hk using exists_requires
  refine ⟨k, ?_, ?_⟩
  · intro bufs input opts m checked
    cases input with
    | null n =>
        have bad : (if n = 0 then Status.errTruncated else Status.errInvalidArg) ≠ .ok := by
          split <;> simp
        have hne : (if n = 0 then Status.errTruncated else Status.errInvalidArg) ≠ .errNomem := by
          split <;> simp
        have hrun : bencodeParse bufs (.null n) opts m = _ :=
          bencodeParse_eq checked (bencodeParseSax_nullInput n _ _ _)
        have hzero : k ((InputArg.null n).span bufs).bytes (opts.getD .default).maxDepth = 0 :=
          (hk _ _).nothing rfl
        rw [parseEnd_bad bad] at hrun
        rw [hzero]
        exact ⟨_, hrun, .inl ⟨hne, .refl m⟩⟩
    | buffer base =>
        have hsome : bencodeParse bufs (.buffer base) opts m =
            bencodeParse bufs (.buffer base) (some (opts.getD .default)) m := by
          cases opts <;> rfl
        rw [hsome]
        exact (hk (bufs base) (opts.getD .default).maxDepth).asks bufs base _ _ m rfl checked
  · intro t z maxDepth regular shallow
    exact (hk (t.encode ++ z) maxDepth).canonical t z regular shallow rfl

/-! ## Copying -/

/-- Cloning any node of a client makes the requests of what the node stands for, however the client
has built it, or stops at the first refusal and reports it. -/
theorem held_clone_requests {n : Memory} {c : Client} {v : Value} (hc : Reachable n c)
    (hv : c.Holds v) (bufs : Buffers) {a : AllocRef} (checked : bencodeAllocatorCheck a = .ok)
    (m : Memory) :
    ∃ st out m', bencodeValueClone bufs (some v) a m = (st, out, m') ∧
      ((st = .ok ∧ m.Asked ((v.tree bufs).requests true) m') ∨
        (st = .errNomem ∧ m.Stopped ((v.tree bufs).requests true) m')) := by
  have sound := hc.consistent.sound_of_holds hv
  have hbuilt := @valueClone_built bufs a checked v m
  have hcosts := valueClone_costs checked v m (sound.canonical bufs v)
  simp only [bencodeValueClone, checked]
  generalize valueClone bufs v a m = r at hbuilt hcosts
  cases hbuilt with
  | ok => exact ⟨_, _, _, rfl, .inl ⟨rfl, hcosts.all rfl⟩⟩
  | nomem blocks refused => exact ⟨_, _, _, rfl, .inr ⟨rfl, hcosts.stopped refused⟩⟩

/-- Six nodes, three arrays, three keys and two strings. The sixth request is refused. -/
theorem held_clone_requests_sample :
    ((sampleDesk [120, 121]).first.tree sampleBufs).requests true = 14 ∧
    ∃ m' : Memory, bencodeValueClone sampleBufs (some (sampleDesk [120, 121]).first) none
        (.empty fun i => i = 5) = (.errNomem, none, m') ∧
      (BlockLedger.empty fun i => i = 5 : Memory).Stopped 14 m' := by
  have hv := @first_held (sampleDesk [120, 121]) (by decide +kernel)
  obtain ⟨st, out, m', hrun, hresult⟩ := held_clone_requests (sampleDesk_reached [120, 121]) hv
    sampleBufs (a := none) rfl (.empty fun i => i = 5)
  have hcount : ((sampleDesk [120, 121]).first.tree sampleBufs).requests true = 14 := by
    decide +kernel
  have hstatus : (bencodeValueClone sampleBufs (some (sampleDesk [120, 121]).first) none
      (.empty fun i => i = 5)).1 = .errNomem := by decide +kernel
  have hnull : (bencodeValueClone sampleBufs (some (sampleDesk [120, 121]).first) none
      (.empty fun i => i = 5)).2.1.isNone = true := by decide +kernel
  rw [hrun] at hstatus hnull
  obtain rfl : st = .errNomem := hstatus
  obtain rfl : out = none := Option.isNone_iff_eq_none.mp hnull
  rw [hcount] at hresult
  rcases hresult with ⟨hok, -⟩ | ⟨-, hstopped⟩
  · cases hok
  · exact ⟨hcount, m', hrun, hstopped⟩

/-! ## Writing -/

/-- Writing any node of a client to a growing buffer makes a number of requests that is told by the
node and is at most that of the doublings on the way to its text, or stops at the first refusal and
reports it. Without a refusal only a text of half the address space can fail. -/
theorem held_emit_requests {n : Memory} {c : Client} {v : Value} (hc : Reachable n c)
    (hv : c.Holds v) (bufs : Buffers) :
    ∃ text, Writes bufs v text ∧
      (v.tree bufs).emitRequests ≤ Doubling.growths 4096 text.length ∧
      ∀ (a : AllocRef) (m : Memory), bencodeAllocatorCheck a = .ok →
        ∃ r, bencodeEmitToAlloc bufs (some v) a m = r ∧
          ((r.status = .ok ∧ m.Asked (v.tree bufs).emitRequests r.mem) ∨
            (r.status = .errNomem ∧ (m.Stopped (v.tree bufs).emitRequests r.mem ∨
              (r.mem.refused = m.refused ∧ sizeMax / 2 < text.length)))) := by
  have sound := hc.consistent.sound_of_holds hv
  refine ⟨_, sound.writes bufs, (v.tree bufs).emitRequests_le, ?_⟩
  intro a m checked
  refine ⟨_, rfl, ?_⟩
  have hemitted := bencodeEmitToAlloc_emitted checked bufs v m
  have hcosts := bencodeEmitToAlloc_costs checked bufs v m
  have hrefused := bencodeEmitToAlloc_refused checked bufs v m
  generalize bencodeEmitToAlloc bufs (some v) a m = r at hemitted hcosts hrefused
  cases hemitted with
  | ok => exact .inl ⟨rfl, hcosts.all rfl⟩
  | unformatted long => exact absurd (sound.fits bufs v) long
  | nomem blocks =>
      refine .inr ⟨rfl, ?_⟩
      rcases Nat.lt_or_eq_of_le blocks.refused with hmore | hsame
      · exact .inl (hcosts.stopped hmore)
      · refine .inr ⟨hsame.symm, Nat.lt_of_not_le ?_⟩
        intro small
        exact Nat.ne_of_lt (hrefused small rfl) hsame

/-- A text of 4107 bytes in a growing buffer: one request for the first 4096 bytes and one for the
doubled buffer. -/
theorem held_emit_requests_sample :
    ((sampleDesk (.replicate 4080 120)).first.tree sampleBufs).emitRequests = 2 ∧
    (BlockLedger.empty fun _ => false : Memory).Asked 2
      (bencodeEmitToAlloc sampleBufs (some (sampleDesk (.replicate 4080 120)).first)
        none (.empty fun _ => false)).mem := by
  have hv := @first_held (sampleDesk (.replicate 4080 120)) (by decide +kernel)
  obtain ⟨text, -, -, hall⟩ := held_emit_requests (sampleDesk_reached (.replicate 4080 120)) hv
    sampleBufs
  obtain ⟨r, hrun, hresult⟩ := hall none (.empty fun _ => false) rfl
  have hcount : ((sampleDesk (.replicate 4080 120)).first.tree sampleBufs).emitRequests = 2 := by
    decide +kernel
  have hstatus : r.status = .ok := hrun ▸ sampleDesk_emitted
  rw [hcount] at hresult
  rcases hresult with ⟨-, hasked⟩ | ⟨hnomem, -⟩
  · exact ⟨hcount, hrun ▸ hasked⟩
  · rw [hstatus] at hnomem
    cases hnomem

end Bencode
