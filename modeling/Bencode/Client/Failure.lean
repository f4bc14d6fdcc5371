import Bencode.Dom.Run
import Bencode.Emit.Buffer

/-!
# Running out of memory

Parsing, cloning and emitting to a buffer may be refused memory at any request. A
refusal is reported, nothing that was granted on the way is lost, and what a
successful call returns can be given back in full.
-/

namespace Bencode

/-- How a call made in `m` treats memory: it returned `st`, what it returned owns the blocks
`owned`, and `freed` is the memory after the result has been given back. -/
structure Recovers (m : Memory) (st : Status) (isNull : Prop) (owned : Multiset MemBlock)
    (m' freed : Memory) : Prop where
  refused : m'.refused ≠ m.refused → st = .errNomem
  failed : st ≠ .ok → isNull ∧ m'.live = m.live
  succeeded : st = .ok → m'.live = m.live + owned ∧ freed.live = m.live
  misuses : m'.misuses = m.misuses ∧ freed.misuses = m.misuses

theorem CleanCall.recovers {m m' : Memory} {st : Status} {out : Option Value}
    (h : CleanCall m st out m') :
    Recovers m st (out = none) (rootBlocks out) m' (bencodeValueFree out m') where
  refused := fun hne => h.refused (Nat.lt_of_le_of_ne h.blocks.refused (Ne.symm hne))
  failed := fun bad => ⟨h.failed bad, h.live_of_failed bad⟩
  succeeded := fun _ => ⟨h.blocks.came_eq, h.freed.live_eq⟩
  misuses := ⟨h.blocks.misuses, h.freed.misuses⟩

theorem Emitted.recovers {a : AllocRef} {t : Tree} {m : Memory} {r : EmitResult}
    (checked : bencodeAllocatorCheck a = .ok) (h : Emitted a t m r) :
    Recovers m r.status (r.outBytes = none) (optionBlock r.outBytes) r.mem
      (bencodeBufferFree a r.outBytes r.mem) := by
  cases h with
  | @ok block cap m' array len_le blocks granted =>
      obtain ⟨hfree, -⟩ := frees_array checked array m' (blocks.came_live (Multiset.zero_le _))
      have hback := ((blocks.trans hfree).congr rfl (add_comm _ _)).cancel _
      exact ⟨fun hne => absurd granted hne, fun bad => absurd rfl bad,
        fun _ => ⟨blocks.came_eq, hback.live_eq⟩, blocks.misuses, hback.misuses⟩
  | nomem blocks =>
      exact ⟨fun _ => rfl, fun _ => ⟨rfl, blocks.live_eq⟩, fun h => (by cases h), blocks.misuses,
        blocks.misuses⟩
  | unformatted long blocks granted =>
      exact ⟨fun hne => absurd granted hne, fun _ => ⟨rfl, blocks.live_eq⟩, fun h => (by cases h),
        blocks.misuses, blocks.misuses⟩

theorem Recovers.idle (m : Memory) {st : Status} (bad : st ≠ .ok) {isNull : Prop} (h : isNull) :
    Recovers m st isNull 0 m m :=
  ⟨fun hne => absurd rfl hne, fun _ => ⟨h, rfl⟩, fun hok => absurd hok bad, rfl, rfl⟩

theorem bencodeEmitToAlloc_recovers (bufs : Buffers) (value : Option Value) (a : AllocRef)
    (m : Memory) :
    Recovers m (bencodeEmitToAlloc bufs value a m).status
      ((bencodeEmitToAlloc bufs value a m).outBytes = none)
      (optionBlock (bencodeEmitToAlloc bufs value a m).outBytes)
      (bencodeEmitToAlloc bufs value a m).mem
      (bencodeBufferFree a (bencodeEmitToAlloc bufs value a m).outBytes
        (bencodeEmitToAlloc bufs value a m).mem) := by
  cases value with
  | none => exact .idle m (by simp [bencodeEmitToAlloc]) rfl
  | some v =>
      by_cases checked : bencodeAllocatorCheck a = .ok
      · exact (bencodeEmitToAlloc_emitted checked bufs v m).recovers checked
      · have hrun : bencodeEmitToAlloc bufs (some v) a m =
            ⟨bencodeAllocatorCheck a, none, [], 0, m⟩ := by
          simp only [bencodeEmitToAlloc]
        rw [hrun]
        exact .idle m checked rfl

/-- Whatever requests are refused while a text is parsed, a tree is cloned or a tree is written to
a buffer: a refusal gives `BENCODE_ERR_NOMEM`, an error leaves no result and the live blocks as
they were, and a result owns exactly what was granted and gives it back when it is freed. The
interface is never misused: no block is freed twice or through another allocator, and no empty
block is requested. -/
theorem calls_recover (m : Memory) (bufs : Buffers) :
    (∀ (input : InputArg) (opts : Option ParseOptions), ∃ r,
      bencodeParse bufs input opts m = .ok r ∧
        Recovers m r.status (r.out = none) (rootBlocks r.out) r.mem
          (bencodeValueFree r.out r.mem)) ∧
    (∀ (value : Option Value) (a : AllocRef) (st : Status) (out : Option Value) (m' : Memory),
      bencodeValueClone bufs value a m = (st, out, m') →
        Recovers m st (out = none) (rootBlocks out) m' (bencodeValueFree out m')) ∧
    (∀ (value : Option Value) (a : AllocRef) (r : EmitResult),
      bencodeEmitToAlloc bufs value a m = r →
        Recovers m r.status (r.outBytes = none) (optionBlock r.outBytes) r.mem
          (bencodeBufferFree a r.outBytes r.mem)) := by
  refine ⟨fun input opts => ?_, ?_, ?_⟩
  · obtain ⟨r, hrun, hclean⟩ := bencodeParse_clean bufs input opts m
    exact ⟨r, hrun, hclean.recovers⟩
  · intro value a st out m' hrun
    have hclean := bencodeValueClone_clean bufs value a m
    rw [hrun] at hclean
    exact hclean.recovers
  · rintro value a r rfl
    exact bencodeEmitToAlloc_recovers bufs value a m

end Bencode
