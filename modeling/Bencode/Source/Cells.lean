import Bencode.Source.Value

/-!
# The arrays of `value.c` slot by slot

`grow_array` and its callers over the memory that an array has. A slot of a block holds
nothing until it is written, the capacity is what the code has noted down, and the slots
are what the block has room for. `none` is a run that reads a slot before it is written
or leaves the array.
-/

namespace Bencode

/-- A growable array and the slots of its block. -/
structure Cells (α : Type) where
  block : Option MemBlock
  capacity : Nat
  count : Nat
  slots : List (Option α)

namespace Cells

section Arrays

variable {α : Type}

/-- A container just after `value_alloc`, all zero. -/
def empty : Cells α := ⟨none, 0, 0, []⟩

def read (c : Cells α) (i : Nat) : Option α := c.slots[i]?.join

/-- `items[i] = x`. -/
def write (c : Cells α) (i : Nat) (x : α) : Option (Cells α) :=
  if i < c.slots.length then some { c with slots := c.slots.set i (some x) } else none

/-- `memmove(&items[i + 1], &items[i], (count - i) * size)`. -/
def shiftUp (c : Cells α) (i : Nat) : Option (Cells α) :=
  if c.count + 1 ≤ c.slots.length then
    some { c with
      slots := c.slots.take (i + 1) ++ (c.slots.drop i).take (c.count - i) ++
        c.slots.drop (c.count + 1) }
  else none

/-- `memcpy` of the slots that the old array is said to have into a new block. -/
def copyInto (c : Cells α) (room : Nat) : Option (List (Option α)) :=
  if c.capacity ≤ c.slots.length ∧ c.capacity ≤ room then
    some (c.slots.take c.capacity ++ List.replicate (room - c.capacity) none)
  else none

def growArray (alloc : AllocRef) (c : Cells α) (elementSize needed : Nat) (m : Memory) :
    Option (Status × Cells α × Memory) :=
  if needed ≤ c.capacity then some (.ok, c, m)
  else
    match doubleUntil (fun cap => decide (needed ≤ cap)) doublingFuel
        (if c.capacity = 0 then 4 else c.capacity) with
    | .overflow => some (.errNomem, c, m)
    | .diverged => none
    | .cap newCap =>
        if newCap > sizeMax / elementSize then some (.errNomem, c, m)
        else
          let size := newCap * elementSize % sizeMod
          match bencodeAlloc alloc size m with
          | (none, m) => some (.errNomem, c, m)
          | (some fresh, m) =>
              if c.block ≠ none ∧ c.capacity > 0 then
                match c.copyInto (size / elementSize) with
                | none => none
                | some slots =>
                    some (.ok, ⟨some fresh, newCap, c.count, slots⟩, bencodeFree alloc c.block m)
              else
                some (.ok, ⟨some fresh, newCap, c.count, .replicate (size / elementSize) none⟩, m)

end Arrays

/-! ## Lists -/

def bencodeListAppend (alloc : AllocRef) (list : Cells Value) (child : Option Value) (m : Memory) :
    Option (Status × Cells Value × Memory) :=
  match child with
  | none => some (.errInvalidArg, list, m)
  | some child =>
      match list.growArray alloc sizeofPointer ((list.count + 1) % sizeMod) m with
      | none => none
      | some (.ok, list, m) =>
          match list.write list.count child with
          | none => none
          | some list => some (.ok, { list with count := (list.count + 1) % sizeMod }, m)
      | some (st, list, m) => some (st, list, m)

def bencodeListSize (list : Cells Value) : Nat := list.count

/-- The child at `index`, or the null pointer past the last one. -/
def bencodeListAt (list : Cells Value) (index : Nat) : Option (Option Value) :=
  if index ≥ list.count then some none
  else
    match list.read index with
    | none => none
    | some child => some (some child)

/-! ## Dictionaries -/

def dictSearchLoop {α : Type} (dict : Cells (Entry α)) (key : Span) :
    Nat → Nat → Nat → Option (Nat × Bool)
  | fuel, lo, hi =>
    if lo < hi then
      match fuel with
      | 0 => none
      | fuel + 1 =>
          let mid := lo + (hi - lo) / 2
          match dict.read mid with
          | none => none
          | some e =>
              match dictCompare e.key key with
              | .error _ => none
              | .ok c =>
                  if c = 0 then some (mid, true)
                  else if c < 0 then dictSearchLoop dict key fuel (mid + 1) hi
                  else dictSearchLoop dict key fuel lo mid
    else some (lo, false)

def dictSearch {α : Type} (dict : Cells (Entry α)) (key : Span) : Option (Nat × Bool) :=
  dictSearchLoop dict key dict.count 0 dict.count

def bencodeDictSet (alloc : AllocRef) (dict : Cells (Entry Value)) (key : Span)
    (child : Option Value) (m : Memory) : Option (Status × Cells (Entry Value) × Memory) :=
  match child with
  | none => some (.errInvalidArg, dict, m)
  | some child =>
      if key.isBad then some (.errInvalidArg, dict, m)
      else
        match dict.dictSearch key with
        | none => none
        | some (index, true) =>
            match dict.read index with
            | none => none
            | some e =>
                match dict.write index ⟨e.key, child⟩ with
                | none => none
                | some dict => some (.ok, dict, valueFree e.value m)
        | some (index, false) =>
            match copyKey alloc key m with
            | (none, m) => some (.errNomem, dict, m)
            | (some keyCopy, m) =>
                match dict.growArray alloc sizeofEntry ((dict.count + 1) % sizeMod) m with
                | none => none
                | some (.ok, dict, m) =>
                    match if index < dict.count then dict.shiftUp index else some dict with
                    | none => none
                    | some dict =>
                        match dict.write index ⟨keyCopy, child⟩ with
                        | none => none
                        | some dict => some (.ok, { dict with count := (dict.count + 1) % sizeMod }, m)
                | some (st, dict, m) => some (st, dict, bencodeFree alloc keyCopy.block m)

end Cells

end Bencode
