import Bencode.Emit.BufferRun
import Bencode.Value.Requests

/-!
# How many requests an emission makes

The capacity of the growing buffer depends on the bytes written only, and the buffer is
moved when a piece does not fit. So the requests of an emission are told by the lengths of
its pieces, and there are no more of them than doublings on the way to the whole text.
-/

namespace Bencode

open Delivery BlockLedger

/-! ## The requests of a list of writes -/

def firstBuffer : Nat := 4096

def writeRequests (n : Nat) : List Nat → Nat
  | [] => 0
  | l :: ls =>
      (if n + l ≤ Doubling.capacity firstBuffer n then 0 else 1) + writeRequests (n + l) ls

def Tree.emitRequests (t : Tree) : Nat := writeRequests 0 (t.pieces.map (·.bytes.length))

theorem writeRequests_le (n : Nat) (ls : List Nat) :
    Doubling.growths firstBuffer n + writeRequests n ls ≤
      Doubling.growths firstBuffer (n + ls.sum) := by
  have hpos : 0 < firstBuffer := by decide
  induction ls generalizing n with
  | nil => exact Nat.le_refl _
  | cons l ls ih =>
      have hrest := ih (n + l)
      rw [writeRequests, List.sum_cons, ← Nat.add_assoc n]
      split
      · have hmono := Doubling.growths_mono hpos (Nat.le_add_right n l)
        omega
      · next hfull =>
          have hlt := Doubling.growths_lt hpos (Nat.lt_of_not_le hfull)
          omega

theorem length_joined (ps : List Piece) :
    (joined ps).length = (ps.map (·.bytes.length)).sum := by
  induction ps with
  | nil => rfl
  | cons p ps ih => rw [joined_cons, List.length_append, ih, List.map_cons, List.sum_cons]

/-- There is one request for the first buffer and one for each doubling of it, at most. -/
theorem Tree.emitRequests_le (t : Tree) :
    t.emitRequests ≤ Doubling.growths firstBuffer t.encode.length := by
  have hle := writeRequests_le 0 (t.pieces.map (·.bytes.length))
  rwa [← length_joined, Tree.joined_pieces, Nat.zero_add, Doubling.growths, if_pos rfl,
    Nat.zero_add] at hle

/-! ## The sink -/

section Sink

variable {a : AllocRef} {m : Memory} {s : AllocSink} {written : Bytes}

/-- The buffer has been doubled as often as its contents need it. -/
def AllocSink.Tight (s : AllocSink) : Prop := s.cap = Doubling.capacity firstBuffer s.len

theorem AllocSink.copyIn_quiet (s : AllocSink) (bytes : Span) :
    Asked 0 s.mem (s.copyIn bytes).mem := by
  unfold copyIn
  split
  · exact .refl s.mem
  · exact s.mem.misuse_quiet

theorem allocSinkAppend_costs (h : SinkHolds a m written s) (tight : s.Tight) (bytes : Bytes) :
    Costs (if s.len + bytes.length ≤ Doubling.capacity firstBuffer s.len then 0 else 1)
      ((allocSinkAppend (.mem bytes) s).1 = .ok) s.mem (allocSinkAppend (.mem bytes) s).2.mem := by
  have hlen : s.len = written.length := congrArg List.length h.contents
  have hle : s.len ≤ s.cap := hlen ▸ h.len_le
  have hsub : sizeSub s.cap s.len = s.cap - s.len := sizeSub_eq hle h.cap_le
  have hoom : ¬ s.oom = true := by simp [h.oom]
  rw [← tight]
  by_cases hfits : s.len + bytes.length ≤ s.cap
  · have hroom : ¬ s.cap - s.len < (Span.mem bytes).len := by
      simp only [Span.len]
      omega
    rw [if_pos hfits, allocSinkAppend, if_neg hoom, hsub, if_neg hroom]
    exact .ofAsked (s.copyIn_quiet _)
  · have hfull : s.cap - s.len < (Span.mem bytes).len := by
      simp only [Span.len]
      omega
    rw [if_neg hfits, allocSinkAppend, if_neg hoom, hsub, if_pos hfull]
    split
    · exact .failed (.refl s.mem) (by simp)
    · exact .failed s.mem.misuse_quiet (by simp)
    · next newCap hnew =>
        split
        · next halloc => exact .ofStopped (request_stopped halloc) (by simp)
        · next fresh m₁ halloc =>
            have hmoved := (request_asked halloc).quiet (bencodeFree_quiet s.alloc s.block m₁)
            have hcopied := AllocSink.copyIn_quiet
              { s with block := some fresh, cap := newCap,
                       mem := bencodeFree s.alloc s.block m₁ } (.mem bytes)
            exact .ofAsked (hmoved.quiet hcopied)

theorem AllocSink.copyIn_cap (s : AllocSink) (bytes : Span) : (s.copyIn bytes).cap = s.cap := by
  unfold copyIn
  split <;> rfl

/-- After a write the buffer has the capacity that its contents need. -/
theorem allocSinkAppend_tight (checked : bencodeAllocatorCheck a = .ok)
    (h : SinkHolds a m written s) (tight : s.Tight) {bytes : Bytes} (hpos : 0 < bytes.length)
    {s' : AllocSink} (run : allocSinkAppend (.mem bytes) s = (.ok, s')) : s'.Tight := by
  have hfirst : 0 < firstBuffer := by decide
  have hlen : s.len = written.length := congrArg List.length h.contents
  have hle : s.len ≤ s.cap := hlen ▸ h.len_le
  have hanswer := allocSinkAppend_answer checked h hpos
  rw [run] at hanswer
  have hlen' : s'.len = s.len + bytes.length := by
    cases hanswer with
    | ok holds => rw [AllocSink.len, holds.contents, List.length_append, hlen]
  have hsub : ∀ n, s.len ≤ n → n ≤ sizeMax → sizeSub n s.len = n - s.len :=
    fun n hn hmax => sizeSub_eq hn hmax
  rw [AllocSink.Tight, hlen']
  unfold allocSinkAppend at run
  rw [if_neg (by simp [h.oom]), hsub s.cap hle h.cap_le] at run
  split at run
  · next hfull =>
      have hfull : s.cap - s.len < bytes.length := hfull
      obtain ⟨-, hgrown, hmax⟩ := start_bounds h.cap_le hfirst (by decide)
      split at run
      · cases run
      · cases run
      · next newCap hnew =>
          have hcap : newCap = Doubling.capacity firstBuffer (s.len + bytes.length) := by
            have hbegins : (if s.cap = 0 then firstBuffer else s.cap) =
                if Doubling.capacity firstBuffer s.len = 0 then firstBuffer
                  else Doubling.capacity firstBuffer s.len := by
              rw [← tight]
            refine doubleUntil_capacity hfirst hbegins hmax (fun k hk => ?_)
              (tight ▸ by omega) hnew
            obtain ⟨hstart, hmaxk⟩ := hk.bounds hmax
            rw [decide_eq_true_iff, hsub k (hle.trans (hgrown.trans hstart)) hmaxk, Span.len]
            have := hle.trans (hgrown.trans hstart)
            omega
          split at run
          · cases run
          · cases run
            rw [AllocSink.copyIn_cap]
            exact hcap
  · next hroom =>
      cases run
      have hroom : ¬ s.cap - s.len < bytes.length := hroom
      rw [AllocSink.copyIn_cap, tight]
      rw [tight] at hroom hle
      exact (Doubling.capacity_add_of_le hfirst (by omega)).symm

/-! ## A whole emission -/

theorem emitBytes_costs (h : SinkHolds a m written s) (tight : s.Tight) (bytes : Bytes) :
    Costs (if s.len + bytes.length ≤ Doubling.capacity firstBuffer s.len then 0 else 1)
      ((emitBytes allocSinkAppend s (.mem bytes)).1 = .ok) s.mem
      (emitBytes allocSinkAppend s (.mem bytes)).2.mem := by
  by_cases hzero : bytes.length = 0
  · have hfits : s.len + 0 ≤ Doubling.capacity firstBuffer s.len :=
      Doubling.le_capacity (by decide) s.len
    rw [emitBytes, if_pos (show (Span.mem bytes).len = 0 from hzero), hzero, if_pos hfits]
    exact .ofAsked (.refl s.mem)
  · rw [emitBytes, if_neg (show ¬ (Span.mem bytes).len = 0 from hzero)]
    exact allocSinkAppend_costs h tight bytes

theorem emitBytes_tight (checked : bencodeAllocatorCheck a = .ok) (h : SinkHolds a m written s)
    (tight : s.Tight) {bytes : Bytes} {s' : AllocSink}
    (run : emitBytes allocSinkAppend s (.mem bytes) = (.ok, s')) : s'.Tight := by
  unfold emitBytes at run
  split at run
  · cases run
    exact tight
  · next hne => exact allocSinkAppend_tight checked h tight (Nat.pos_of_ne_zero hne) run

/-- Offering a piece is one write of its bytes, unless its text is too long. -/
theorem offerPiece_eq (p : Piece) (s : AllocSink) :
    offerPiece allocSinkAppend p s = emitBytes allocSinkAppend s (.mem p.bytes) ∨
      offerPiece allocSinkAppend p s = (.errIo, s) := by
  cases p with
  | data bytes => exact .inl rfl
  | text bytes =>
      unfold offerPiece emitFormatted
      dsimp only
      split
      · exact .inr rfl
      · exact .inl rfl

theorem deliver_costs (checked : bencodeAllocatorCheck a = .ok) (ps : List Piece)
    (h : SinkHolds a m written s) (tight : s.Tight) :
    Costs (writeRequests s.len (ps.map (·.bytes.length)))
      ((deliver .ok (offerPiece allocSinkAppend) ps s).1 = .ok) s.mem
      (deliver .ok (offerPiece allocSinkAppend) ps s).2.mem := by
  induction ps generalizing s written with
  | nil => exact .ofAsked (.refl s.mem)
  | cons p ps ih =>
      have hanswer := offerPiece_answer checked h p
      rw [deliver_cons, List.map_cons, writeRequests]
      rcases offerPiece_eq p s with hp | hp
      · have hcosts := emitBytes_costs h tight p.bytes
        rw [← hp] at hcosts
        generalize hrun : offerPiece allocSinkAppend p s = r at hcosts hanswer
        obtain ⟨st, s₁⟩ := r
        by_cases hok : st = .ok
        · subst hok
          rw [if_pos rfl]
          cases hanswer with
          | ok holds =>
              have hlen : s₁.len = s.len + p.bytes.length := by
                rw [AllocSink.len, holds.contents, List.length_append, AllocSink.len, h.contents]
              have htight := emitBytes_tight checked h tight (hp ▸ hrun)
              exact (hcosts.andThen rfl (ih holds htight)).congr (by rw [← hlen])
        · rw [if_neg hok]
          exact hcosts.givenUp (.refl _) (Nat.le_add_right _ _) hok
      · rw [hp, if_neg (show ¬ (Status.errIo, s).1 = .ok by simp)]
        exact .failed (.refl s.mem) (by simp)

/-- `bencode_emit_to_alloc` makes the requests of its tree. -/
theorem bencodeEmitToAlloc_costs (checked : bencodeAllocatorCheck a = .ok) (bufs : Buffers)
    (v : Value) (m : Memory) :
    Costs (v.tree bufs).emitRequests ((bencodeEmitToAlloc bufs (some v) a m).status = .ok) m
      (bencodeEmitToAlloc bufs (some v) a m).mem := by
  have hcosts := deliver_costs checked (v.tree bufs).pieces (.fresh a m) rfl
  unfold bencodeEmitToAlloc
  simp only [checked, emitValue_eq]
  unfold AllocSink.fresh at hcosts
  generalize deliver .ok (offerPiece allocSinkAppend) (v.tree bufs).pieces _ = r at hcosts ⊢
  obtain ⟨st, s⟩ := r
  cases st with
  | ok => exact hcosts
  | _ => exact hcosts.quiet (bencodeFree_quiet a s.block s.mem)

end Sink

end Bencode
