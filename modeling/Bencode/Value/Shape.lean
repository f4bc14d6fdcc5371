import Bencode.Spec.Tree
import Bencode.Value.Ownership

/-!
# What sound nodes stand for

The tree of a sound node is canonical and its strings have lengths that a `size_t`
can hold, whatever the buffers it borrows from hold.
-/

namespace Bencode

/-! ## Trees of containers -/

@[simp] theorem itemTrees_append (bufs : Buffers) (vs ws : List Value) :
    itemTrees bufs (vs ++ ws) = itemTrees bufs vs ++ itemTrees bufs ws := by
  induction vs with
  | nil => rfl
  | cons v vs ih => simp [itemTrees, ih]

@[simp] theorem entryTrees_append (bufs : Buffers) (es fs : List (Entry Value)) :
    entryTrees bufs (es ++ fs) = entryTrees bufs es ++ entryTrees bufs fs := by
  induction es with
  | nil => rfl
  | cons e es ih =>
      obtain ⟨key, v⟩ := e
      simp [entryTrees, ih]

theorem entryKeys_entryTrees (bufs : Buffers) (es : List (Entry Value)) :
    entryKeys (entryTrees bufs es) = storedKeys es := by
  induction es with
  | nil => rfl
  | cons e es ih =>
      obtain ⟨key, v⟩ := e
      simpa [entryTrees, entryKeys, storedKeys] using ih

/-! ## Canonical trees -/

theorem Payload.Sound.length_read {a : AllocRef} {str : Payload} (h : str.Sound a)
    (bufs : Buffers) : (str.read bufs).length ≤ sizeMax := by
  cases str with
  | literal => exact Nat.zero_le _
  | borrowed ptr len => exact (List.length_take_le _ _).trans h.2
  | owned b bytes => exact h.fits

theorem KeyCopy.Sound.length_bytes {a : AllocRef} {key : KeyCopy} (h : key.Sound a) :
    key.bytes.length ≤ sizeMax := by
  cases key with
  | null => exact Nat.zero_le _
  | owned b bytes => exact h.fits

mutual

theorem Value.Sound.canonical (bufs : Buffers) (v : Value) (h : v.Sound) :
    (v.tree bufs).Canonical := by
  cases v with
  | int hd i => trivial
  | string hd str => trivial
  | list hd slots => exact SoundItems.canonical bufs slots.items h.2.2
  | dict hd slots =>
      obtain ⟨block, capacity, entries⟩ := slots
      obtain ⟨-, -, hsorted, hentries⟩ := h
      exact ⟨(entryKeys_entryTrees bufs entries).symm ▸ hsorted,
        SoundEntries.canonical bufs hd.alloc entries hentries⟩

theorem SoundItems.canonical (bufs : Buffers) (vs : List Value) (h : SoundItems vs) :
    CanonicalItems (itemTrees bufs vs) := by
  cases vs with
  | nil => trivial
  | cons v vs => exact ⟨h.1.canonical bufs v, SoundItems.canonical bufs vs h.2⟩

theorem SoundEntries.canonical (bufs : Buffers) (a : AllocRef) (es : List (Entry Value))
    (h : SoundEntries a es) : CanonicalEntries (entryTrees bufs es) := by
  cases es with
  | nil => trivial
  | cons e es =>
      obtain ⟨key, v⟩ := e
      exact ⟨h.2.1.canonical bufs v, SoundEntries.canonical bufs a es h.2.2⟩

end

mutual

theorem Value.Sound.fits (bufs : Buffers) (v : Value) (h : v.Sound) : (v.tree bufs).Fits := by
  cases v with
  | int hd i => trivial
  | string hd str => exact h.2.length_read bufs
  | list hd slots => exact SoundItems.fits bufs slots.items h.2.2
  | dict hd slots => exact SoundEntries.fits bufs hd.alloc slots.items h.2.2.2

theorem SoundItems.fits (bufs : Buffers) (vs : List Value) (h : SoundItems vs) :
    FitsItems (itemTrees bufs vs) := by
  cases vs with
  | nil => trivial
  | cons v vs => exact ⟨h.1.fits bufs v, SoundItems.fits bufs vs h.2⟩

theorem SoundEntries.fits (bufs : Buffers) (a : AllocRef) (es : List (Entry Value))
    (h : SoundEntries a es) : FitsEntries (entryTrees bufs es) := by
  cases es with
  | nil => trivial
  | cons e es =>
      obtain ⟨key, v⟩ := e
      exact ⟨h.1.length_bytes, h.2.1.fits bufs v, SoundEntries.fits bufs a es h.2.2⟩

end

end Bencode
