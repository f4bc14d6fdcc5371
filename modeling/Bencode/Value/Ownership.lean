import Bencode.Source.Value
import Bencode.Spec.KeyOrder

/-!
# The blocks a tree of nodes owns

A sound tree took every block from the allocator that will get it back, its arrays
are large enough for what they hold, and its dicts are sorted. Freeing a sound tree
gives back exactly the blocks it owns.
-/

namespace Bencode

/-! ## Blocks -/

def optionBlock : Option MemBlock → Multiset MemBlock
  | none => 0
  | some b => {b}

namespace Payload

def block : Payload → Option MemBlock
  | literal => none
  | borrowed _ _ => none
  | owned block _ => some block

end Payload

mutual

def Value.blocks : Value → Multiset MemBlock
  | .int h _ => {h.self}
  | .string h str => {h.self} + optionBlock str.block
  | .list h ⟨block, _, items⟩ => {h.self} + optionBlock block + itemsBlocks items
  | .dict h ⟨block, _, entries⟩ => {h.self} + optionBlock block + entriesBlocks entries

def itemsBlocks : List Value → Multiset MemBlock
  | [] => 0
  | v :: vs => v.blocks + itemsBlocks vs

def entriesBlocks : List (Entry Value) → Multiset MemBlock
  | [] => 0
  | ⟨key, v⟩ :: es => optionBlock key.block + v.blocks + entriesBlocks es

end

def rootBlocks : Option Value → Multiset MemBlock
  | none => 0
  | some v => v.blocks

@[simp] theorem itemsBlocks_append (vs ws : List Value) :
    itemsBlocks (vs ++ ws) = itemsBlocks vs + itemsBlocks ws := by
  induction vs with
  | nil => simp [itemsBlocks]
  | cons v vs ih => simp [itemsBlocks, ih, add_assoc]

@[simp] theorem entriesBlocks_append (es fs : List (Entry Value)) :
    entriesBlocks (es ++ fs) = entriesBlocks es + entriesBlocks fs := by
  induction es with
  | nil => simp [entriesBlocks]
  | cons e es ih =>
      obtain ⟨key, v⟩ := e
      simp [entriesBlocks, ih, add_assoc]

/-! ## Soundness -/

/-- The block has `size` bytes and comes from the allocator `a`. -/
structure FromAlloc (a : AllocRef) (b : MemBlock) (size : Nat) : Prop where
  pool : b.pool = allocPool a
  size : b.size = size

structure Header.Sound (h : Header) : Prop where
  checked : bencodeAllocatorCheck h.alloc = .ok
  node : FromAlloc h.alloc h.self sizeofValue

structure CopySound (a : AllocRef) (b : MemBlock) (bytes : Bytes) : Prop where
  nonempty : bytes ≠ []
  fits : bytes.length ≤ sizeMax
  block : FromAlloc a b bytes.length

def Payload.Sound (a : AllocRef) : Payload → Prop
  | literal => True
  | borrowed _ len => 0 < len ∧ len ≤ sizeMax
  | owned b bytes => CopySound a b bytes

def KeyCopy.Sound (a : AllocRef) : KeyCopy → Prop
  | null => True
  | owned b bytes => CopySound a b bytes

/-- The array of a container: nothing is allocated before the first slot is needed. -/
def ArraySound (a : AllocRef) (elementSize capacity : Nat) : Option MemBlock → Prop
  | none => capacity = 0
  | some b => 0 < capacity ∧ FromAlloc a b (capacity * elementSize)

structure Slots.Sound {α : Type} (a : AllocRef) (elementSize : Nat) (s : Slots α) : Prop where
  count : s.items.length ≤ s.capacity
  fits : s.capacity * elementSize ≤ sizeMax
  array : ArraySound a elementSize s.capacity s.block

def storedKeys {α : Type} (entries : List (Entry α)) : List Bytes := entries.map (·.key.bytes)

mutual

def Value.Sound : Value → Prop
  | .int h _ => h.Sound
  | .string h str => h.Sound ∧ str.Sound h.alloc
  | .list h ⟨block, capacity, items⟩ =>
      h.Sound ∧ Slots.Sound h.alloc sizeofPointer ⟨block, capacity, items⟩ ∧ SoundItems items
  | .dict h ⟨block, capacity, entries⟩ =>
      h.Sound ∧ Slots.Sound h.alloc sizeofEntry ⟨block, capacity, entries⟩ ∧
        (storedKeys entries).Pairwise (· < ·) ∧ SoundEntries h.alloc entries

def SoundItems : List Value → Prop
  | [] => True
  | v :: vs => v.Sound ∧ SoundItems vs

def SoundEntries (a : AllocRef) : List (Entry Value) → Prop
  | [] => True
  | ⟨key, v⟩ :: es => key.Sound a ∧ v.Sound ∧ SoundEntries a es

end

theorem soundItems_iff {vs : List Value} : SoundItems vs ↔ ∀ v ∈ vs, v.Sound := by
  induction vs with
  | nil => simp [SoundItems]
  | cons v vs ih => simp [SoundItems, ih]

theorem soundEntries_iff {a : AllocRef} {es : List (Entry Value)} :
    SoundEntries a es ↔ ∀ e ∈ es, e.key.Sound a ∧ e.value.Sound := by
  induction es with
  | nil => simp [SoundEntries]
  | cons e es ih =>
      obtain ⟨key, v⟩ := e
      simp [SoundEntries, ih, and_assoc]

theorem Value.Sound.header {v : Value} (h : v.Sound) : v.header.Sound := by
  cases v with
  | int => exact h
  | string => exact h.1
  | list => exact h.1
  | dict => exact h.1

/-! ## Freeing -/

theorem bencodeFree_sound {a : AllocRef} {b : MemBlock} {size : Nat} {m : Memory}
    (checked : bencodeAllocatorCheck a = .ok) (hb : FromAlloc a b size) (live : b ∈ m.live) :
    m.Exchange (bencodeFree a (some b) m) {b} 0 ∧ (bencodeFree a (some b) m).refused = m.refused :=
  BlockLedger.release_live live (hb.pool.trans (freePool_eq_allocPool checked).symm)

/-- `next` gives back the blocks `bs` and refuses nothing, when they are live. -/
def Frees (bs : Multiset MemBlock) (next : Memory → Memory) : Prop :=
  ∀ m : Memory, bs ≤ m.live → m.Exchange (next m) bs 0 ∧ (next m).refused = m.refused

theorem Frees.nothing : Frees 0 id := fun m _ => ⟨.refl m, rfl⟩

theorem Frees.comp {bs cs : Multiset MemBlock} {f g : Memory → Memory} (first : Frees bs f)
    (second : Frees cs g) : Frees (bs + cs) (g ∘ f) := by
  intro m hlive
  obtain ⟨hf, hf'⟩ := first m ((Multiset.le_add_right _ _).trans hlive)
  have hrest := hf.le_live hlive
  rw [add_zero] at hrest
  obtain ⟨hg, hg'⟩ := second (f m) hrest
  exact ⟨hf.trans hg, hg'.trans hf'⟩

theorem frees_block {a : AllocRef} {b : MemBlock} {size : Nat}
    (checked : bencodeAllocatorCheck a = .ok) (hb : FromAlloc a b size) :
    Frees {b} (bencodeFree a (some b)) := fun _ hlive =>
  bencodeFree_sound checked hb (Multiset.singleton_le.mp hlive)

theorem frees_array {a : AllocRef} {elementSize capacity : Nat} {block : Option MemBlock}
    (checked : bencodeAllocatorCheck a = .ok) (h : ArraySound a elementSize capacity block) :
    Frees (optionBlock block) (bencodeFree a block) := by
  cases block with
  | none => exact .nothing
  | some b => exact frees_block checked h.2

theorem frees_key {a : AllocRef} {key : KeyCopy} (checked : bencodeAllocatorCheck a = .ok)
    (h : key.Sound a) : Frees (optionBlock key.block) (bencodeFree a key.block) := by
  cases key with
  | null => exact .nothing
  | owned b bytes => exact frees_block checked h.block

mutual

/-- Freeing a sound tree gives back the blocks it owns. -/
theorem frees_value (v : Value) (h : v.Sound) : Frees v.blocks (valueFree v) := by
  cases v with
  | int hd i => exact frees_block h.checked h.node
  | string hd str =>
      obtain ⟨hhd, hstr⟩ := h
      have hnode := frees_block hhd.checked hhd.node
      have halone : Frees ({hd.self} + 0) (bencodeFree hd.alloc (some hd.self)) := by
        rwa [add_zero]
      cases str with
      | literal => exact halone
      | borrowed ptr len => exact halone
      | owned b bytes =>
          have hboth := (frees_block hhd.checked hstr.block).comp hnode
          rwa [add_comm] at hboth
  | list hd slots =>
      obtain ⟨block, capacity, items⟩ := slots
      obtain ⟨hhd, hslots, hitems⟩ := h
      have hall := ((frees_items items hitems).comp (frees_array hhd.checked hslots.array)).comp
        (frees_block hhd.checked hhd.node)
      rwa [add_comm, add_comm (itemsBlocks items), ← add_assoc] at hall
  | dict hd slots =>
      obtain ⟨block, capacity, entries⟩ := slots
      obtain ⟨hhd, hslots, -, hentries⟩ := h
      have hall := ((frees_entries entries hd.alloc hhd.checked hentries).comp
        (frees_array hhd.checked hslots.array)).comp (frees_block hhd.checked hhd.node)
      rwa [add_comm, add_comm (entriesBlocks entries), ← add_assoc] at hall

theorem frees_items (vs : List Value) (h : SoundItems vs) :
    Frees (itemsBlocks vs) (freeItems vs) := by
  cases vs with
  | nil => exact .nothing
  | cons v vs => exact (frees_value v h.1).comp (frees_items vs h.2)

theorem frees_entries (es : List (Entry Value)) (a : AllocRef)
    (checked : bencodeAllocatorCheck a = .ok) (h : SoundEntries a es) :
    Frees (entriesBlocks es) (freeEntries es a) := by
  cases es with
  | nil => exact .nothing
  | cons e es =>
      obtain ⟨key, v⟩ := e
      exact ((frees_key checked h.1).comp (frees_value v h.2.1)).comp
        (frees_entries es a checked h.2.2)

end

theorem frees_root {out : Option Value} (sound : ∀ v, out = some v → v.Sound) :
    Frees (rootBlocks out) (bencodeValueFree out) := by
  cases out with
  | none => exact .nothing
  | some v => exact frees_value v (sound v rfl)

end Bencode
