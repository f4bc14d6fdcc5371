import Bencode.Value.Dict

/-!
# Building nodes

Each builder of a leaf or of an empty container returns a sound node that owns
exactly the blocks that were granted, or nothing, with the ledger as it was.
-/

namespace Bencode

/-- What a builder with allocator `a` may return when its arguments are accepted:
a sound node with the intended content, or nothing for lack of memory. -/
inductive Built (a : AllocRef) (intended : Value → Prop) (m : Memory) :
    Status × Option Value × Memory → Prop
  | ok {v : Value} {m' : Memory} (sound : v.Sound) (content : intended v)
      (alloc : v.header.alloc = a) (blocks : m.Exchange m' 0 v.blocks)
      (granted : m'.refused = m.refused) : Built a intended m (.ok, some v, m')
  | nomem {m' : Memory} (blocks : m.Exchange m' 0 0) (refused : m.refused < m'.refused) :
      Built a intended m (.errNomem, none, m')

theorem Built.mono {a : AllocRef} {P Q : Value → Prop} {m : Memory}
    {r : Status × Option Value × Memory} (h : Built a P m r) (imp : ∀ v, P v → Q v) :
    Built a Q m r := by
  cases h with
  | ok sound content alloc blocks granted => exact .ok sound (imp _ content) alloc blocks granted
  | nomem blocks refused => exact .nomem blocks refused

theorem valueAlloc_some {a : AllocRef} {m m' : Memory} {h : Header}
    (checked : bencodeAllocatorCheck a = .ok) (hrun : valueAlloc a m = (some h, m')) :
    h.alloc = a ∧ h.Sound ∧ m.Exchange m' 0 {h.self} ∧ m'.refused = m.refused := by
  unfold valueAlloc at hrun
  split at hrun
  · cases hrun
  · next b m₁ halloc =>
      cases hrun
      obtain ⟨hb, -, hex, hrefused⟩ := bencodeAlloc_some halloc (by decide)
      exact ⟨rfl, ⟨checked, hb⟩, hex, hrefused⟩

theorem valueAlloc_none {a : AllocRef} {m m' : Memory} (hrun : valueAlloc a m = (none, m')) :
    m.Exchange m' 0 0 ∧ m.refused < m'.refused := by
  unfold valueAlloc at hrun
  split at hrun
  · next halloc =>
      cases hrun
      exact bencodeAlloc_none halloc (by decide)
  · cases hrun

theorem slots_empty_sound {α : Type} (a : AllocRef) (elementSize : Nat) :
    (⟨none, 0, []⟩ : Slots α).Sound a elementSize :=
  ⟨Nat.le_refl _, by simp, rfl⟩

section Builders

variable {a : AllocRef} (checked : bencodeAllocatorCheck a = .ok) (m : Memory)

include checked

theorem bencodeIntNew_built (i : Int64) :
    Built a (fun v => ∃ h, v = .int h i) m (bencodeIntNew i a m) := by
  unfold bencodeIntNew
  rw [checked]
  generalize halloc : valueAlloc a m = r
  obtain ⟨h, m₁⟩ := r
  cases h with
  | none =>
      obtain ⟨hex, hrefused⟩ := valueAlloc_none halloc
      exact .nomem hex hrefused
  | some h =>
      obtain ⟨ha, hh, hex, hrefused⟩ := valueAlloc_some checked halloc
      exact .ok hh ⟨h, rfl⟩ ha hex hrefused

theorem bencodeListNew_built :
    Built a (fun v => ∃ h, v = .list h ⟨none, 0, []⟩) m (bencodeListNew a m) := by
  unfold bencodeListNew
  rw [checked]
  generalize halloc : valueAlloc a m = r
  obtain ⟨h, m₁⟩ := r
  cases h with
  | none =>
      obtain ⟨hex, hrefused⟩ := valueAlloc_none halloc
      exact .nomem hex hrefused
  | some h =>
      obtain ⟨ha, hh, hex, hrefused⟩ := valueAlloc_some checked halloc
      exact .ok ⟨hh, slots_empty_sound _ _, trivial⟩ ⟨h, rfl⟩ ha hex hrefused

theorem bencodeDictNew_built :
    Built a (fun v => ∃ h, v = .dict h ⟨none, 0, []⟩) m (bencodeDictNew a m) := by
  unfold bencodeDictNew
  rw [checked]
  generalize halloc : valueAlloc a m = r
  obtain ⟨h, m₁⟩ := r
  cases h with
  | none =>
      obtain ⟨hex, hrefused⟩ := valueAlloc_none halloc
      exact .nomem hex hrefused
  | some h =>
      obtain ⟨ha, hh, hex, hrefused⟩ := valueAlloc_some checked halloc
      exact .ok ⟨hh, slots_empty_sound _ _, .nil, trivial⟩ ⟨h, rfl⟩ ha hex hrefused

/-- A string node with a copy of the bytes, or the literal when there are none. -/
theorem bencodeStringNew_built {bytes : Span} (hbad : bytes.isBad = false) :
    Built a (fun v => ∃ h str, v = .string h str ∧ ∀ bufs, str.read bufs = bytes.bytes) m
      (bencodeStringNew bytes a m) := by
  have hlen := Span.length_bytes hbad
  unfold bencodeStringNew
  simp only [hbad, Bool.false_eq_true, if_false, checked]
  generalize halloc : valueAlloc a m = r
  obtain ⟨h, m₁⟩ := r
  cases h with
  | none =>
      obtain ⟨hex, hrefused⟩ := valueAlloc_none halloc
      exact .nomem hex hrefused
  | some h =>
      obtain ⟨ha, hh, hex, hrefused⟩ := valueAlloc_some checked halloc
      dsimp only
      split
      · next hzero =>
          have hnil : bytes.bytes = [] := List.length_eq_zero_iff.mp (by omega)
          exact .ok ⟨hh, trivial⟩ ⟨h, .literal, rfl, fun _ => hnil.symm⟩ ha hex hrefused
      · next hpos =>
          generalize hcopy : bencodeAlloc a bytes.len m₁ = r
          obtain ⟨b, m₂⟩ := r
          cases b with
          | none =>
              obtain ⟨hex₂, hrefused₂⟩ := bencodeAlloc_none hcopy (by omega)
              have hall := hex.trans hex₂
              rw [add_zero, add_zero] at hall
              have hlive := hall.came_live (Multiset.zero_le _)
              have hnode := hh.node
              rw [ha] at hnode
              obtain ⟨hfree, hfree'⟩ := frees_block checked hnode _ hlive
              refine .nomem (((hall.trans hfree).congr rfl (add_comm _ _)).cancel _) ?_
              rw [hfree']
              omega
          | some b =>
              obtain ⟨hb, hmax, hex₂, hrefused₂⟩ := bencodeAlloc_some hcopy (by omega)
              rw [← hlen] at hb hmax hpos
              refine .ok ⟨hh, ⟨fun hnil => hpos (by rw [hnil]; rfl), hmax, ha ▸ hb⟩⟩
                ⟨h, .owned b bytes.bytes, rfl, fun _ => rfl⟩ ha
                ((hex.trans hex₂).congr (add_zero _) rfl) (hrefused₂.trans hrefused)

theorem bencodeStringNewBorrowed_built (ptr : BufPtr) {len : Nat} (hlen : len ≤ sizeMax) :
    Built a (fun v => ∃ h, v = .string h (if len = 0 then .literal else .borrowed ptr len)) m
      (bencodeStringNewBorrowed (some ptr) len a m) := by
  have hptr : ¬ (some ptr = none ∧ len ≠ 0) := by simp
  unfold bencodeStringNewBorrowed
  rw [if_neg hptr]
  generalize halloc : valueAlloc a m = r
  obtain ⟨h, m₁⟩ := r
  cases h with
  | none =>
      obtain ⟨hex, hrefused⟩ := valueAlloc_none halloc
      exact .nomem hex hrefused
  | some h =>
      obtain ⟨ha, hh, hex, hrefused⟩ := valueAlloc_some checked halloc
      by_cases hzero : len = 0
      · simp only [if_pos hzero]
        exact .ok ⟨hh, trivial⟩ ⟨h, rfl⟩ ha hex hrefused
      · simp only [if_neg hzero]
        exact .ok ⟨hh, Nat.pos_of_ne_zero hzero, hlen⟩ ⟨h, rfl⟩ ha hex hrefused

end Builders

end Bencode
