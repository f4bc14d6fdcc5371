import Bencode.Emit.Pieces
import Bencode.Value.Growth

/-!
# The growing output buffer

The sink of `bencode_emit_to_alloc` owns one block that is large enough for what was
written. Each write appends its bytes or runs out of memory, and in both cases the
block can still be given back.
-/

namespace Bencode

open Delivery

variable {m : Memory} {s : AllocSink} {written : Bytes}

/-! ## The sink -/

structure SinkOwns (a : AllocRef) (m : Memory) (s : AllocSink) : Prop where
  alloc : s.alloc = a
  array : ArraySound a 1 s.cap s.block
  cap_le : s.cap ≤ sizeMax
  blocks : m.Exchange s.mem 0 (optionBlock s.block)

/-- The sink holds the bytes written so far, and no request was refused. -/
structure SinkHolds (a : AllocRef) (m : Memory) (written : Bytes) (s : AllocSink) : Prop
    extends SinkOwns a m s where
  contents : s.contents = written
  len_le : written.length ≤ s.cap
  oom : s.oom = false
  granted : s.mem.refused = m.refused

inductive SinkAnswer (a : AllocRef) (m : Memory) (written : Bytes) : Status × AllocSink → Prop
  | ok {s : AllocSink} (holds : SinkHolds a m written s) : SinkAnswer a m written (.ok, s)
  | nomem {s : AllocSink} (owns : SinkOwns a m s) : SinkAnswer a m written (.errNomem, s)

theorem sizeSub_eq {a b : Nat} (hle : b ≤ a) (ha : a ≤ sizeMax) : sizeSub a b = a - b := by
  have hwrap : a + sizeMod - b = (a - b) + sizeMod := by omega
  rw [sizeSub, hwrap, Nat.add_mod_right, Nat.mod_eq_of_lt]
  unfold sizeMax at ha
  have : 0 < sizeMod := by decide
  omega

variable {a : AllocRef}

theorem SinkOwns.live (h : SinkOwns a m s) : optionBlock s.block ≤ s.mem.live :=
  h.blocks.came_live (Multiset.zero_le _)

/-- A buffer with room has a block, and copying into it stays inside. -/
theorem copyIn_holds (h : SinkOwns a m s) (contents : s.contents = written) (oom : s.oom = false)
    (granted : s.mem.refused = m.refused) {bytes : Bytes} (hpos : 0 < bytes.length)
    (room : written.length + bytes.length ≤ s.cap) :
    SinkHolds a m (written ++ bytes) (s.copyIn (.mem bytes)) := by
  have hblock : s.block ≠ none := by
    intro hnone
    have harray := h.array
    rw [hnone] at harray
    have hzero : s.cap = 0 := harray
    omega
  have hcopy : s.copyIn (.mem bytes) = { s with contents := written ++ bytes } := by
    rw [AllocSink.copyIn, AllocSink.len, contents]
    exact if_pos ⟨hblock, room⟩
  rw [hcopy]
  exact ⟨⟨h.alloc, h.array, h.cap_le, h.blocks⟩, rfl, by rw [List.length_append]; exact room, oom,
    granted⟩

theorem SinkHolds.moved (checked : bencodeAllocatorCheck a = .ok) (h : SinkHolds a m written s)
    {fresh : MemBlock} {newCap : Nat} {m₁ : Memory}
    (run : bencodeAlloc s.alloc newCap s.mem = (some fresh, m₁)) (hpos : 0 < newCap) :
    SinkOwns a m
        { s with block := some fresh, cap := newCap, mem := bencodeFree s.alloc s.block m₁ } ∧
      (bencodeFree s.alloc s.block m₁).refused = m.refused := by
  rw [h.alloc] at run ⊢
  obtain ⟨hfresh, hmax, hex, hsame⟩ := bencodeAlloc_some run hpos
  have hlive := (Multiset.le_add_right _ _).trans (hex.still_live h.live)
  obtain ⟨hfree, hsame'⟩ := frees_array checked h.array m₁ hlive
  refine ⟨⟨rfl, ⟨hpos, ?_⟩, hmax, ?_⟩, (hsame'.trans hsame).trans h.granted⟩
  · rwa [Nat.mul_one]
  · apply BlockLedger.Exchange.cancel (optionBlock s.block)
    refine ((h.blocks.trans hex).trans hfree).congr ?_ ?_
    · rw [add_zero]
    · rw [add_zero, add_comm, optionBlock]

/-- A write of at least one byte is appended, or memory has run out. -/
theorem allocSinkAppend_answer (checked : bencodeAllocatorCheck a = .ok)
    (h : SinkHolds a m written s) {bytes : Bytes} (hpos : 0 < bytes.length) :
    SinkAnswer a m (written ++ bytes) (allocSinkAppend (.mem bytes) s) := by
  have hlen : s.len = written.length := congrArg List.length h.contents
  have hle := h.len_le
  have hsub : ∀ n, written.length ≤ n → n ≤ sizeMax → sizeSub n s.len = n - written.length := by
    intro n hn hmax
    rw [hlen, sizeSub_eq hn hmax]
  unfold allocSinkAppend
  rw [if_neg (by simp [h.oom])]
  simp only [hsub s.cap hle h.cap_le, Span.len]
  split
  swap
  · exact .ok (copyIn_holds h.toSinkOwns h.contents h.oom h.granted hpos (by omega))
  obtain ⟨hstart, hgrowing, hstart'⟩ := start_bounds h.cap_le (by decide : 0 < 4096) (by decide)
  have howns : ∀ {m' : Memory}, s.mem.Exchange m' 0 0 →
      SinkOwns a m { s with oom := true, mem := m' } := fun hex =>
    ⟨h.alloc, h.array, h.cap_le, (h.blocks.trans hex).congr rfl (add_zero _)⟩
  split
  · exact .nomem (howns (.refl _))
  · next hdiv =>
      exact absurd hdiv (doubleUntil_ends hstart (doublingFuel_suffices hstart) hstart')
  · next newCap hnew =>
      obtain ⟨henough, htested⟩ := doubleUntil_tested .start hnew
      obtain ⟨hgrown, hmax⟩ := htested.bounds hstart'
      have hcap : written.length ≤ newCap := hle.trans (hgrowing.trans hgrown)
      have henough := of_decide_eq_true henough
      rw [hsub newCap hcap hmax] at henough
      generalize halloc : bencodeAlloc s.alloc newCap s.mem = r
      obtain ⟨fresh, m₁⟩ := r
      cases fresh with
      | none =>
          obtain ⟨hex, -⟩ := bencodeAlloc_none halloc (by omega)
          exact .nomem (howns hex)
      | some fresh =>
          obtain ⟨hmoved, hsame⟩ := h.moved checked halloc (by omega)
          exact .ok (copyIn_holds hmoved h.contents h.oom hsame hpos (by dsimp only; omega))

/-! ## A whole emission -/

/-- What emitting the pieces `ps` answers. Only text that was too long for its format buffer can
end it without memory having run out. -/
inductive BufferAnswer (a : AllocRef) (m : Memory) (ps : List Piece) (written : Bytes) :
    Status × AllocSink → Prop
  | ok {s : AllocSink} (holds : SinkHolds a m written s) : BufferAnswer a m ps written (.ok, s)
  | nomem {s : AllocSink} (owns : SinkOwns a m s) : BufferAnswer a m ps written (.errNomem, s)
  | unformatted {s : AllocSink} (long : ∃ p ∈ ps, ¬ p.Fits) (owns : SinkOwns a m s)
      (granted : s.mem.refused = m.refused) : BufferAnswer a m ps written (.errIo, s)

theorem emitBytes_answer (checked : bencodeAllocatorCheck a = .ok) (h : SinkHolds a m written s)
    (bytes : Bytes) :
    SinkAnswer a m (written ++ bytes) (emitBytes allocSinkAppend s (.mem bytes)) := by
  unfold emitBytes
  split
  · next hzero =>
      have hnil : bytes = [] := List.length_eq_zero_iff.mp hzero
      rw [hnil, List.append_nil]
      exact .ok h
  · next hpos => exact allocSinkAppend_answer checked h (Nat.pos_of_ne_zero hpos)

theorem SinkAnswer.buffer {ps : List Piece} {r : Status × AllocSink}
    (h : SinkAnswer a m written r) : BufferAnswer a m ps written r := by
  cases h with
  | ok holds => exact .ok holds
  | nomem owns => exact .nomem owns

theorem offerPiece_answer (checked : bencodeAllocatorCheck a = .ok) (h : SinkHolds a m written s)
    (p : Piece) :
    BufferAnswer a m [p] (written ++ p.bytes) (offerPiece allocSinkAppend p s) := by
  cases p with
  | data bytes => exact (emitBytes_answer checked h bytes).buffer
  | text bytes =>
      unfold offerPiece emitFormatted
      dsimp only
      split
      · next hlong =>
          exact .unformatted ⟨_, List.mem_singleton_self _, Nat.not_lt_of_le hlong⟩ h.toSinkOwns
            h.granted
      · exact (emitBytes_answer checked h bytes).buffer

theorem deliver_buffer (checked : bencodeAllocatorCheck a = .ok) (ps : List Piece)
    (h : SinkHolds a m written s) :
    BufferAnswer a m ps (written ++ joined ps)
      (deliver .ok (offerPiece allocSinkAppend) ps s) := by
  induction ps generalizing s written with
  | nil =>
      rw [joined_nil, List.append_nil]
      exact .ok h
  | cons p ps ih =>
      have hp := offerPiece_answer checked h p
      rw [deliver_cons]
      generalize offerPiece allocSinkAppend p s = r at hp
      cases hp with
      | ok holds =>
          have hrest := ih holds
          rw [List.append_assoc, ← joined_cons] at hrest
          rw [if_pos rfl]
          dsimp only
          generalize deliver .ok (offerPiece allocSinkAppend) ps _ = r at hrest
          cases hrest with
          | ok holds' => exact .ok holds'
          | nomem owns => exact .nomem owns
          | unformatted long owns granted =>
              obtain ⟨q, hq, hlong⟩ := long
              exact .unformatted ⟨q, List.mem_cons_of_mem p hq, hlong⟩ owns granted
      | nomem owns =>
          rw [if_neg (by simp)]
          exact .nomem owns
      | unformatted long owns granted =>
          obtain ⟨q, hq, hlong⟩ := long
          rw [if_neg (by simp)]
          exact .unformatted ⟨q, List.mem_cons.mpr (.inl (List.mem_singleton.mp hq)), hlong⟩ owns
            granted

/-! ## `bencode_emit_to_alloc` -/

inductive Emitted (a : AllocRef) (t : Tree) (m : Memory) : EmitResult → Prop
  | ok {block : Option MemBlock} {cap : Nat} {m' : Memory} (array : ArraySound a 1 cap block)
      (len_le : t.encode.length ≤ cap) (blocks : m.Exchange m' 0 (optionBlock block))
      (granted : m'.refused = m.refused) :
      Emitted a t m ⟨.ok, block, t.encode, t.encode.length, m'⟩
  | nomem {m' : Memory} (blocks : m.Exchange m' 0 0) : Emitted a t m ⟨.errNomem, none, [], 0, m'⟩
  | unformatted {m' : Memory} (long : ¬ t.Fits) (blocks : m.Exchange m' 0 0)
      (granted : m'.refused = m.refused) : Emitted a t m ⟨.errIo, none, [], 0, m'⟩

theorem Emitted.misuses {t : Tree} {r : EmitResult} (h : Emitted a t m r) :
    r.mem.misuses = m.misuses := by
  cases h with
  | ok array len_le blocks granted => exact blocks.misuses
  | nomem blocks => exact blocks.misuses
  | unformatted long blocks granted => exact blocks.misuses

theorem SinkOwns.freed (checked : bencodeAllocatorCheck a = .ok) (h : SinkOwns a m s) :
    m.Exchange (bencodeFree a s.block s.mem) 0 0 ∧
      (bencodeFree a s.block s.mem).refused = s.mem.refused := by
  obtain ⟨hfree, hsame⟩ := frees_array checked h.array s.mem h.live
  exact ⟨((h.blocks.trans hfree).congr rfl (add_comm _ _)).cancel _, hsame⟩

theorem bencodeEmitToAlloc_emitted (checked : bencodeAllocatorCheck a = .ok) (bufs : Buffers)
    (v : Value) (m : Memory) :
    Emitted a (v.tree bufs) m (bencodeEmitToAlloc bufs (some v) a m) := by
  have hstart : SinkHolds a m [] ⟨none, [], 0, a, false, m⟩ :=
    ⟨⟨rfl, rfl, Nat.zero_le _, .refl m⟩, rfl, Nat.le_refl _, rfl, rfl⟩
  have hanswer := deliver_buffer checked (v.tree bufs).pieces hstart
  rw [List.nil_append, Tree.joined_pieces] at hanswer
  unfold bencodeEmitToAlloc
  simp only [checked, emitValue_eq]
  generalize deliver .ok (offerPiece allocSinkAppend) (v.tree bufs).pieces _ = r at hanswer
  cases hanswer with
  | @ok s holds =>
      have hlen : s.len = (v.tree bufs).encode.length := congrArg List.length holds.contents
      simp only [hlen, holds.contents]
      exact .ok holds.array holds.len_le holds.blocks holds.granted
  | nomem owns => exact .nomem (owns.freed checked).1
  | unformatted long owns granted =>
      obtain ⟨hfree, hsame⟩ := owns.freed checked
      obtain ⟨p, hp, hlong⟩ := long
      exact .unformatted (fun hfits => hlong ((v.tree bufs).pieces_fit hfits p hp)) hfree
        (hsame.trans granted)

end Bencode
