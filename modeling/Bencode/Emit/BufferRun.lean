import Bencode.Emit.Buffer
import Bencode.Emit.Protocol

/-!
# Every write to the growing buffer

Whenever the sink of `bencode_emit_to_alloc` is called, its subtractions and doublings
do not wrap, its loop ends and the bytes go inside the block.
-/

namespace Bencode

open Delivery

variable {a : AllocRef} {m : Memory} {s : AllocSink} {written : Bytes}

def AllocSink.enough (s : AllocSink) (bytes : Span) (cap : Nat) : Bool :=
  decide (bytes.len ≤ sizeSub cap s.len)

def AllocSink.startCap (s : AllocSink) : Nat := if s.cap = 0 then 4096 else s.cap

/-- A call computes without wrapping and leaves the bytes written inside the block. -/
structure WritesInside (s : AllocSink) (bytes : Span) : Prop where
  len_le : s.len ≤ s.cap
  tested : ∀ k, Tested (s.enough bytes) s.startCap k → s.len ≤ k ∧ k ≤ sizeMax
  doubled : ∀ k, Tested (s.enough bytes) s.startCap k → ¬ k > sizeMax / 2 → k * 2 ≤ sizeMax
  ends : doubleUntil (s.enough bytes) doublingFuel s.startCap ≠ .diverged
  after : (allocSinkAppend bytes s).2.len ≤ (allocSinkAppend bytes s).2.cap
  written : (allocSinkAppend bytes s).1 = .ok → (allocSinkAppend bytes s).2.len = s.len + bytes.len

/-- A write that fails leaves the contents and the capacity as they were. -/
theorem allocSinkAppend_failed {bytes : Span} (bad : (allocSinkAppend bytes s).1 ≠ .ok) :
    (allocSinkAppend bytes s).2.len = s.len ∧ (allocSinkAppend bytes s).2.cap = s.cap := by
  unfold allocSinkAppend at bad ⊢
  split
  · exact ⟨rfl, rfl⟩
  · next hoom =>
      rw [if_neg hoom] at bad
      split
      · next hfull =>
          rw [if_pos hfull] at bad
          split
          · exact ⟨rfl, rfl⟩
          · exact ⟨rfl, rfl⟩
          · next newCap hnew =>
              rw [hnew] at bad
              dsimp only at bad
              split
              · exact ⟨rfl, rfl⟩
              · next fresh m₁ halloc =>
                  rw [halloc] at bad
                  exact absurd rfl bad
      · next hroom =>
          rw [if_neg hroom] at bad
          exact absurd rfl bad

theorem SinkHolds.writesInside (checked : bencodeAllocatorCheck a = .ok)
    (h : SinkHolds a m written s) {bytes : Bytes} (hpos : 0 < bytes.length) :
    WritesInside s (.mem bytes) := by
  have hlen : s.len = written.length := congrArg List.length h.contents
  have hle : s.len ≤ s.cap := hlen ▸ h.len_le
  have hstart : 0 < s.startCap ∧ s.cap ≤ s.startCap ∧ s.startCap ≤ sizeMax :=
    start_bounds h.cap_le (by decide) (by decide)
  obtain ⟨hstart, hgrown, hmax⟩ := hstart
  have hanswer := allocSinkAppend_answer checked h hpos
  refine ⟨hle, fun k hk => ?_, fun k _ half => (double_mod half).1,
    doubleUntil_ends hstart (doublingFuel_suffices hstart) hmax, ?_, fun hok => ?_⟩
  · obtain ⟨hstartk, hmaxk⟩ := hk.bounds hmax
    exact ⟨hle.trans (hgrown.trans hstartk), hmaxk⟩
  · by_cases hok : (allocSinkAppend (.mem bytes) s).1 = .ok
    · generalize allocSinkAppend (.mem bytes) s = r at hanswer hok
      cases hanswer with
      | ok holds =>
          rw [AllocSink.len, holds.contents]
          exact holds.len_le
      | nomem owns => cases hok
    · obtain ⟨hsame, hcap⟩ := allocSinkAppend_failed hok
      rw [hsame, hcap]
      exact hle
  · generalize allocSinkAppend (.mem bytes) s = r at hanswer hok
    cases hanswer with
    | ok holds => rw [AllocSink.len, holds.contents, List.length_append, hlen, Span.len]
    | nomem owns => cases hok

def AllocSink.fresh (a : AllocRef) (m : Memory) : AllocSink := ⟨none, [], 0, a, false, m⟩

theorem SinkHolds.fresh (a : AllocRef) (m : Memory) : SinkHolds a m [] (.fresh a m) :=
  ⟨⟨rfl, rfl, Nat.zero_le _, .refl m⟩, rfl, Nat.le_refl _, rfl, rfl⟩

theorem emitValue_writesInside (checked : bencodeAllocatorCheck a = .ok) {bufs : Buffers}
    {v : Value} (fits : (v.tree bufs).Fits) (m : Memory) :
    ∃ calls, emitValue bufs v (logged allocSinkAppend) (.fresh a m, []) =
        ((emitValue bufs v allocSinkAppend (.fresh a m)).1,
          (emitValue bufs v allocSinkAppend (.fresh a m)).2, calls) ∧
      ∀ call ∈ calls, WritesInside call.1 call.2 := by
  obtain ⟨calls, hrun, protocol⟩ := emitValue_protocol fits allocSinkAppend (.fresh a m)
  refine ⟨calls, hrun, ?_⟩
  intro call hcall
  have hholds : ∃ written, SinkHolds a m written call.1 := by
    refine emitValue_invariant fits (P := fun s => ∃ written, SinkHolds a m written s)
      ⟨[], .fresh a m⟩ ?_ call (by rw [hrun]; exact hcall)
    rintro bytes s hpos ⟨written, hs⟩ hok
    have hanswer := allocSinkAppend_answer checked hs hpos
    generalize allocSinkAppend (.mem bytes) s = r at hanswer hok
    cases hanswer with
    | ok holds => exact ⟨_, holds⟩
    | nomem owns => cases hok
  obtain ⟨hpos, bytes, hbytes⟩ := protocol.nonempty call hcall
  obtain ⟨written, hs⟩ := hholds
  rw [hbytes] at hpos ⊢
  exact hs.writesInside checked hpos

/-! ## Running out of memory -/

/-- As long as the text stays below half the address space, a write that finds no memory has been
refused some. -/
theorem SinkHolds.refused (h : SinkHolds a m written s) {bytes : Bytes}
    (small : written.length + bytes.length ≤ sizeMax / 2)
    (failed : (allocSinkAppend (.mem bytes) s).1 = .errNomem) :
    m.refused < (allocSinkAppend (.mem bytes) s).2.mem.refused := by
  have hlen : s.len = written.length := congrArg List.length h.contents
  obtain ⟨hpos, hgrown, hmax⟩ := start_bounds h.cap_le (by decide : 0 < 4096) (by decide)
  unfold allocSinkAppend at failed ⊢
  rw [if_neg (by simp [h.oom])] at failed ⊢
  by_cases hfull : sizeSub s.cap s.len < (Span.mem bytes).len
  · rw [if_pos hfull] at failed ⊢
    cases hgrowth : doubleUntil (fun cap => decide ((Span.mem bytes).len ≤ sizeSub cap s.len))
        doublingFuel (if s.cap = 0 then 4096 else s.cap) with
    | overflow =>
        obtain ⟨n, tested, hshort, hhalf⟩ := doubleUntil_overflow .start hgrowth
        obtain ⟨hle, hn⟩ := tested.bounds hmax
        have hsub : sizeSub n s.len = n - s.len := by
          refine sizeSub_eq ?_ hn
          have := h.len_le
          omega
        rw [hsub] at hshort
        have hneeded : n - s.len < bytes.length := Nat.lt_of_not_le (of_decide_eq_false hshort)
        omega
    | diverged => exact absurd hgrowth (doubleUntil_ends hpos (doublingFuel_suffices hpos) hmax)
    | cap newCap =>
        have hnew : 0 < newCap := by
          have := ((doubleUntil_tested .start hgrowth).2.bounds hmax).1
          omega
        simp only [hgrowth] at failed ⊢
        cases halloc : bencodeAlloc s.alloc newCap s.mem with
        | mk fresh m₁ =>
            rw [halloc] at failed
            cases fresh with
            | some fresh => cases failed
            | none =>
                have hrefused := (bencodeAlloc_none halloc hnew).2
                rw [h.granted] at hrefused
                exact hrefused
  · rw [if_neg hfull] at failed
    cases failed

theorem offerPiece_refused (h : SinkHolds a m written s) (p : Piece)
    (small : written.length + p.bytes.length ≤ sizeMax / 2)
    (failed : (offerPiece allocSinkAppend p s).1 = .errNomem) :
    m.refused < (offerPiece allocSinkAppend p s).2.mem.refused := by
  have hbytes : ∀ bytes : Bytes, written.length + bytes.length ≤ sizeMax / 2 →
      (emitBytes allocSinkAppend s (.mem bytes)).1 = .errNomem →
      m.refused < (emitBytes allocSinkAppend s (.mem bytes)).2.mem.refused := by
    intro bytes hsmall hfailed
    unfold emitBytes at hfailed ⊢
    split at hfailed
    · cases hfailed
    · next hpos =>
        rw [if_neg hpos]
        exact h.refused hsmall hfailed
  cases p with
  | data bytes => exact hbytes bytes small failed
  | text bytes =>
      unfold offerPiece emitFormatted at failed ⊢
      dsimp only at failed ⊢
      split at failed
      · cases failed
      · next hlong =>
          rw [if_neg hlong]
          exact hbytes bytes small failed

theorem deliver_refused_memory (checked : bencodeAllocatorCheck a = .ok) (ps : List Piece)
    (h : SinkHolds a m written s) (small : written.length + (joined ps).length ≤ sizeMax / 2)
    (failed : (deliver .ok (offerPiece allocSinkAppend) ps s).1 = .errNomem) :
    m.refused < (deliver .ok (offerPiece allocSinkAppend) ps s).2.mem.refused := by
  induction ps generalizing s written with
  | nil => cases failed
  | cons p ps ih =>
      rw [joined_cons, List.length_append] at small
      rw [deliver_cons] at failed ⊢
      by_cases hok : (offerPiece allocSinkAppend p s).1 = .ok
      · rw [if_pos hok] at failed ⊢
        have hp := offerPiece_answer checked h p
        generalize offerPiece allocSinkAppend p s = r at hok hp failed ⊢
        cases hp with
        | ok holds => exact ih holds (by rw [List.length_append]; omega) failed
        | nomem owns => cases hok
        | unformatted long owns granted => cases hok
      · rw [if_neg hok] at failed ⊢
        exact offerPiece_refused h p (by omega) failed

theorem bencodeEmitToAlloc_refused (checked : bencodeAllocatorCheck a = .ok) (bufs : Buffers)
    (v : Value) (m : Memory) (small : (v.tree bufs).encode.length ≤ sizeMax / 2)
    (failed : (bencodeEmitToAlloc bufs (some v) a m).status = .errNomem) :
    m.refused < (bencodeEmitToAlloc bufs (some v) a m).mem.refused := by
  have hsmall : ([] : Bytes).length + (joined (v.tree bufs).pieces).length ≤ sizeMax / 2 := by
    rw [Tree.joined_pieces, List.length_nil, Nat.zero_add]
    exact small
  have hrefused := deliver_refused_memory checked (v.tree bufs).pieces (.fresh a m) hsmall
  unfold bencodeEmitToAlloc at failed ⊢
  simp only [checked, emitValue_eq] at failed ⊢
  unfold AllocSink.fresh at hrefused
  generalize deliver .ok (offerPiece allocSinkAppend) (v.tree bufs).pieces _ = r
    at failed hrefused ⊢
  split at failed
  · cases failed
  · next st s' bad =>
      cases failed
      dsimp only
      rw [bencodeFree_refused]
      exact hrefused rfl

end Bencode
