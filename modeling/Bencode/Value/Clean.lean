import Bencode.Value.Clone

/-!
# Calls that return a tree

Builders and clones behave alike towards the allocator: what is granted is owned by
the returned tree, a call that fails returns nothing and keeps nothing, and a refused
request is always reported.
-/

namespace Bencode

/-- The call that was made in `m` returned `st`, `out` and left `m'`. -/
structure CleanCall (m : Memory) (st : Status) (out : Option Value) (m' : Memory) : Prop where
  sound : ∀ v, out = some v → v.Sound
  blocks : m.Exchange m' 0 (rootBlocks out)
  failed : st ≠ .ok → out = none
  refused : m.refused < m'.refused → st = .errNomem

namespace CleanCall

variable {m m' : Memory} {st : Status} {out : Option Value}

/-- A call that returned nothing and asked for nothing. -/
theorem idle (m : Memory) (st : Status) : CleanCall m st none m where
  sound := fun _ h => by cases h
  blocks := .refl m
  failed := fun _ => rfl
  refused := fun h => absurd h (Nat.lt_irrefl _)

theorem freed (h : CleanCall m st out m') :
    m.Exchange (bencodeValueFree out m') 0 0 := by
  have hlive := h.blocks.came_live (Multiset.zero_le _)
  obtain ⟨hfree, -⟩ := frees_root h.sound m' hlive
  exact ((h.blocks.trans hfree).congr rfl (add_comm _ _)).cancel _

/-- A call that failed left the live blocks as they were. -/
theorem live_of_failed (h : CleanCall m st out m') (bad : st ≠ .ok) : m'.live = m.live := by
  have hblocks := h.blocks
  rw [h.failed bad] at hblocks
  exact hblocks.live_eq

end CleanCall

variable {m : Memory} {a : AllocRef}

theorem Built.clean {P : Value → Prop} {r : Status × Option Value × Memory} (h : Built a P m r) :
    CleanCall m r.1 r.2.1 r.2.2 := by
  cases h with
  | ok sound content alloc blocks granted =>
      refine ⟨?_, blocks, fun bad => absurd rfl bad, fun h => absurd h ?_⟩
      · rintro v ⟨⟩
        exact sound
      · rw [granted]
        exact Nat.lt_irrefl _
  | nomem blocks refused => exact ⟨fun _ h => (by cases h), blocks, fun _ => rfl, fun _ => rfl⟩

/-! ## The calls -/

theorem bencodeIntNew_clean (i : Int64) (a : AllocRef) (m : Memory) :
    CleanCall m (bencodeIntNew i a m).1 (bencodeIntNew i a m).2.1 (bencodeIntNew i a m).2.2 := by
  by_cases checked : bencodeAllocatorCheck a = .ok
  · exact (bencodeIntNew_built checked m i).clean
  · unfold bencodeIntNew
    split
    · next hok => exact absurd hok checked
    · exact .idle m _

theorem bencodeStringNew_clean (bytes : Span) (a : AllocRef) (m : Memory) :
    CleanCall m (bencodeStringNew bytes a m).1 (bencodeStringNew bytes a m).2.1
      (bencodeStringNew bytes a m).2.2 := by
  by_cases hbad : bytes.isBad = true
  · rw [bencodeStringNew, if_pos hbad]
    exact .idle m _
  · rw [Bool.not_eq_true] at hbad
    by_cases checked : bencodeAllocatorCheck a = .ok
    · exact (bencodeStringNew_built checked m hbad).clean
    · rw [bencodeStringNew, hbad, if_neg Bool.false_ne_true]
      split
      · next hok => exact absurd hok checked
      · exact .idle m _

theorem bencodeListNew_clean (a : AllocRef) (m : Memory) :
    CleanCall m (bencodeListNew a m).1 (bencodeListNew a m).2.1 (bencodeListNew a m).2.2 := by
  by_cases checked : bencodeAllocatorCheck a = .ok
  · exact (bencodeListNew_built checked m).clean
  · unfold bencodeListNew
    split
    · next hok => exact absurd hok checked
    · exact .idle m _

theorem bencodeDictNew_clean (a : AllocRef) (m : Memory) :
    CleanCall m (bencodeDictNew a m).1 (bencodeDictNew a m).2.1 (bencodeDictNew a m).2.2 := by
  by_cases checked : bencodeAllocatorCheck a = .ok
  · exact (bencodeDictNew_built checked m).clean
  · unfold bencodeDictNew
    split
    · next hok => exact absurd hok checked
    · exact .idle m _

theorem bencodeValueClone_clean (bufs : Buffers) (value : Option Value) (a : AllocRef)
    (m : Memory) :
    CleanCall m (bencodeValueClone bufs value a m).1 (bencodeValueClone bufs value a m).2.1
      (bencodeValueClone bufs value a m).2.2 := by
  by_cases checked : bencodeAllocatorCheck a = .ok
  · unfold bencodeValueClone
    rw [checked]
    cases value with
    | none => exact .idle m .ok
    | some v => exact (valueClone_built checked v m).clean
  · unfold bencodeValueClone
    split
    · next hok => exact absurd hok checked
    · exact .idle m _

end Bencode
