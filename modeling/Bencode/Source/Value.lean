import Bencode.Source.Basic

/-!
# The value tree of `value.c`

A node owns its children, so a tree of nodes is a Lean tree; the block of a node
is its address, and following a pointer into a tree is a search for that block.
Functions that change a container through a pointer return the changed container.
-/

namespace Bencode

def sizeofValue : Nat := 40
def sizeofPointer : Nat := 8
def sizeofEntry : Nat := 24

/-! ## Layout -/

/-- What the caller's input buffers hold at the moment of a call. -/
abbrev Buffers := Nat → Bytes

/-- A pointer into one of the caller's buffers. -/
structure BufPtr where
  base : Nat
  off : Nat
deriving DecidableEq

/-- The bytes of a string node: the literal `""`, borrowed from an input, or owned. -/
inductive Payload
  | literal
  | borrowed (ptr : BufPtr) (len : Nat)
  | owned (block : MemBlock) (bytes : Bytes)
deriving DecidableEq

namespace Payload

def len : Payload → Nat
  | literal => 0
  | borrowed _ len => len
  | owned _ bytes => bytes.length

def read (bufs : Buffers) : Payload → Bytes
  | literal => []
  | borrowed ptr len => ((bufs ptr.base).drop ptr.off).take len
  | owned _ bytes => bytes

end Payload

/-- The key of a dict entry: a private copy, or the null pointer for the empty key. -/
inductive KeyCopy
  | null
  | owned (block : MemBlock) (bytes : Bytes)
deriving DecidableEq

namespace KeyCopy

def len : KeyCopy → Nat
  | null => 0
  | owned _ bytes => bytes.length

def bytes : KeyCopy → Bytes
  | null => []
  | owned _ bytes => bytes

def block : KeyCopy → Option MemBlock
  | null => none
  | owned block _ => some block

def span : KeyCopy → Span
  | null => .null 0
  | owned _ bytes => .mem bytes

end KeyCopy

structure Entry (α : Type) where
  key : KeyCopy
  value : α

/-- A growable array: its block, its capacity and the slots below `count`. -/
structure Slots (α : Type) where
  block : Option MemBlock
  capacity : Nat
  items : List α

/-- What every node has: its own block and the allocator it was built with. -/
structure Header where
  self : MemBlock
  alloc : AllocRef

inductive Value
  | int (h : Header) (i : Int64)
  | string (h : Header) (str : Payload)
  | list (h : Header) (slots : Slots Value)
  | dict (h : Header) (slots : Slots (Entry Value))

def Value.header : Value → Header
  | .int h _ => h
  | .string h _ => h
  | .list h _ => h
  | .dict h _ => h

def Value.self (v : Value) : MemBlock := v.header.self

/-! ## Following a pointer into a tree -/

mutual

/-- The node of the tree that a pointer to the block `p` points at. -/
def Value.find? (p : MemBlock) : Value → Option Value
  | .int h i => if h.self = p then some (.int h i) else none
  | .string h str => if h.self = p then some (.string h str) else none
  | .list h ⟨block, capacity, items⟩ =>
      if h.self = p then some (.list h ⟨block, capacity, items⟩) else findItems? p items
  | .dict h ⟨block, capacity, entries⟩ =>
      if h.self = p then some (.dict h ⟨block, capacity, entries⟩) else findEntries? p entries

def findItems? (p : MemBlock) : List Value → Option Value
  | [] => none
  | v :: vs => (v.find? p).or (findItems? p vs)

def findEntries? (p : MemBlock) : List (Entry Value) → Option Value
  | [] => none
  | ⟨_, v⟩ :: es => (v.find? p).or (findEntries? p es)

end

mutual

/-- The tree after the node at `p` has become `new`. -/
def Value.replace (p : MemBlock) (new : Value) : Value → Value
  | .int h i => if h.self = p then new else .int h i
  | .string h str => if h.self = p then new else .string h str
  | .list h ⟨block, capacity, items⟩ =>
      if h.self = p then new else .list h ⟨block, capacity, replaceItems p new items⟩
  | .dict h ⟨block, capacity, entries⟩ =>
      if h.self = p then new else .dict h ⟨block, capacity, replaceEntries p new entries⟩

def replaceItems (p : MemBlock) (new : Value) : List Value → List Value
  | [] => []
  | v :: vs => Value.replace p new v :: replaceItems p new vs

def replaceEntries (p : MemBlock) (new : Value) : List (Entry Value) → List (Entry Value)
  | [] => []
  | ⟨key, v⟩ :: es => ⟨key, Value.replace p new v⟩ :: replaceEntries p new es

end

/-! ## Lifecycle -/

def valueAlloc (alloc : AllocRef) (m : Memory) : Option Header × Memory :=
  match bencodeAlloc alloc sizeofValue m with
  | (none, m) => (none, m)
  | (some b, m) => (some ⟨b, alloc⟩, m)

mutual

def valueFree : Value → Memory → Memory
  | .int h _, m => bencodeFree h.alloc (some h.self) m
  | .string h (.owned block _), m =>
      bencodeFree h.alloc (some h.self) (bencodeFree h.alloc (some block) m)
  | .string h _, m => bencodeFree h.alloc (some h.self) m
  | .list h ⟨block, _, items⟩, m =>
      bencodeFree h.alloc (some h.self) (bencodeFree h.alloc block (freeItems items m))
  | .dict h ⟨block, _, entries⟩, m =>
      bencodeFree h.alloc (some h.self)
        (bencodeFree h.alloc block (freeEntries entries h.alloc m))

def freeItems : List Value → Memory → Memory
  | [], m => m
  | v :: vs, m => freeItems vs (valueFree v m)

def freeEntries : List (Entry Value) → AllocRef → Memory → Memory
  | [], _, m => m
  | ⟨key, v⟩ :: es, alloc, m => freeEntries es alloc (valueFree v (bencodeFree alloc key.block m))

end

def bencodeValueFree (value : Option Value) (m : Memory) : Memory :=
  match value with
  | none => m
  | some v => valueFree v m

/-! ## Builders -/

def bencodeIntNew (v : Int64) (alloc : AllocRef) (m : Memory) :
    Status × Option Value × Memory :=
  match bencodeAllocatorCheck alloc with
  | .ok =>
      match valueAlloc alloc m with
      | (none, m) => (.errNomem, none, m)
      | (some h, m) => (.ok, some (.int h v), m)
  | st => (st, none, m)

def bencodeStringNew (bytes : Span) (alloc : AllocRef) (m : Memory) :
    Status × Option Value × Memory :=
  if bytes.isBad then (.errInvalidArg, none, m)
  else
    match bencodeAllocatorCheck alloc with
    | .ok =>
        match valueAlloc alloc m with
        | (none, m) => (.errNomem, none, m)
        | (some h, m) =>
            if bytes.len = 0 then (.ok, some (.string h .literal), m)
            else
              match bencodeAlloc alloc bytes.len m with
              | (none, m) => (.errNomem, none, bencodeFree alloc (some h.self) m)
              | (some copy, m) => (.ok, some (.string h (.owned copy bytes.bytes)), m)
    | st => (st, none, m)

/-- The parser's own builder, which keeps the pointer instead of copying. -/
def bencodeStringNewBorrowed (bytes : Option BufPtr) (len : Nat) (alloc : AllocRef) (m : Memory) :
    Status × Option Value × Memory :=
  if bytes = none ∧ len ≠ 0 then (.errInvalidArg, none, m)
  else
    match valueAlloc alloc m with
    | (none, m) => (.errNomem, none, m)
    | (some h, m) =>
        match bytes with
        | none => (.ok, some (.string h .literal), m)
        | some ptr =>
            (.ok, some (.string h (if len = 0 then .literal else .borrowed ptr len)), m)

def bencodeListNew (alloc : AllocRef) (m : Memory) : Status × Option Value × Memory :=
  match bencodeAllocatorCheck alloc with
  | .ok =>
      match valueAlloc alloc m with
      | (none, m) => (.errNomem, none, m)
      | (some h, m) => (.ok, some (.list h ⟨none, 0, []⟩), m)
  | st => (st, none, m)

def bencodeDictNew (alloc : AllocRef) (m : Memory) : Status × Option Value × Memory :=
  match bencodeAllocatorCheck alloc with
  | .ok =>
      match valueAlloc alloc m with
      | (none, m) => (.errNomem, none, m)
      | (some h, m) => (.ok, some (.dict h ⟨none, 0, []⟩), m)
  | st => (st, none, m)

/-! ## Growing arrays -/

inductive Growth
  | cap (n : Nat)
  | overflow
  | diverged
deriving DecidableEq

/-- `while (!enough(new_cap)) { if (new_cap > SIZE_MAX / 2) fail; new_cap *= 2; }` -/
def doubleUntil (enough : Nat → Bool) : Nat → Nat → Growth
  | 0, cap => if enough cap then .cap cap else .diverged
  | fuel + 1, cap =>
      if enough cap then .cap cap
      else if cap > sizeMax / 2 then .overflow
      else doubleUntil enough fuel (cap * 2 % sizeMod)

/-- More rounds than a nonzero capacity can be doubled below `SIZE_MAX`. -/
def doublingFuel : Nat := 64

def growArray {α : Type} (alloc : AllocRef) (s : Slots α) (elementSize needed : Nat)
    (m : Memory) : Status × Slots α × Memory :=
  if needed ≤ s.capacity then (.ok, s, m)
  else
    match doubleUntil (fun cap => decide (needed ≤ cap)) doublingFuel
        (if s.capacity = 0 then 4 else s.capacity) with
    | .overflow => (.errNomem, s, m)
    | .diverged => (.errNomem, s, m.misuse)
    | .cap newCap =>
        if newCap > sizeMax / elementSize then (.errNomem, s, m)
        else
          match bencodeAlloc alloc (newCap * elementSize % sizeMod) m with
          | (none, m) => (.errNomem, s, m)
          | (some fresh, m) =>
              -- Only `capacity` slots are copied, and only out of an existing array.
              if s.block ≠ none ∧ s.capacity > 0 then
                (.ok, ⟨some fresh, newCap, s.items.take s.capacity⟩, bencodeFree alloc s.block m)
              else (.ok, ⟨some fresh, newCap, []⟩, m)

/-- `items[i] = x`; a write past the capacity or past a slot never written is a misuse. -/
def Slots.write {α : Type} (s : Slots α) (i : Nat) (x : α) (m : Memory) : Slots α × Memory :=
  if i < s.capacity ∧ i ≤ s.items.length then
    ({ s with items := s.items.take i ++ x :: s.items.drop (i + 1) }, m)
  else (s, m.misuse)

/-- `memmove(&items[i + 1], &items[i], (count - i) * size)`. -/
def Slots.shiftUp {α : Type} (s : Slots α) (i : Nat) (m : Memory) : Slots α × Memory :=
  if s.items.length + 1 ≤ s.capacity then
    ({ s with items := s.items.take (i + 1) ++ s.items.drop i }, m)
  else (s, m.misuse)

def bencodeListAppend (list child : Option Value) (m : Memory) :
    Status × Option Value × Memory :=
  match list, child with
  | some (.list h s), some child =>
      match growArray h.alloc s sizeofPointer ((s.items.length + 1) % sizeMod) m with
      | (.ok, s', m) =>
          let r := s'.write s.items.length child m
          (.ok, some (.list h r.1), r.2)
      | (st, s', m) => (st, some (.list h s'), m)
  | _, _ => (.errInvalidArg, list, m)

/-! ## Dictionaries -/

/-- The comparison written inline in `dict_search`. -/
def dictCompare (e : KeyCopy) (key : Span) : Except Fault Int :=
  let n := if e.len < key.len then e.len else key.len
  match (if n = 0 then .ok 0 else memcmp e.bytes key.bytes n) with
  | .error f => .error f
  | .ok c =>
      if c = 0 then
        if e.len < key.len then .ok (-1)
        else if e.len > key.len then .ok 1
        else .ok 0
      else .ok c

def dictSearchLoop {α : Type} (entries : List (Entry α)) (key : Span) :
    Nat → Nat → Nat → Except Fault (Nat × Bool)
  | fuel, lo, hi =>
    if lo < hi then
      match fuel with
      | 0 => .error .outOfFuel
      | fuel + 1 =>
          let mid := lo + (hi - lo) / 2
          match entries[mid]? with
          | none => .error .badRead
          | some e =>
              match dictCompare e.key key with
              | .error f => .error f
              | .ok c =>
                  if c = 0 then .ok (mid, true)
                  else if c < 0 then dictSearchLoop entries key fuel (mid + 1) hi
                  else dictSearchLoop entries key fuel lo mid
    else .ok (lo, false)

/-- The index of `key`, or where it would go, and whether it is there. -/
def dictSearch {α : Type} (entries : List (Entry α)) (key : Span) : Except Fault (Nat × Bool) :=
  dictSearchLoop entries key entries.length 0 entries.length

/-- The key copy `bencode_dict_set` makes before it grows the array. -/
def copyKey (alloc : AllocRef) (key : Span) (m : Memory) : Option KeyCopy × Memory :=
  if key.len > 0 then
    match bencodeAlloc alloc key.len m with
    | (none, m) => (none, m)
    | (some b, m) => (some (.owned b key.bytes), m)
  else (some .null, m)

def bencodeDictSet (dict : Option Value) (key : Span) (child : Option Value) (m : Memory) :
    Status × Option Value × Memory :=
  match dict, child with
  | some (.dict h s), some child =>
      if key.isBad then (.errInvalidArg, dict, m)
      else
        match dictSearch s.items key with
        | .error _ => (.errInvalidArg, dict, m.misuse)
        | .ok (index, true) =>
            match s.items[index]? with
            | none => (.errInvalidArg, dict, m.misuse)
            | some e =>
                (.ok, some (.dict h { s with items := s.items.set index ⟨e.key, child⟩ }),
                  valueFree e.value m)
        | .ok (index, false) =>
            match copyKey h.alloc key m with
            | (none, m) => (.errNomem, dict, m)
            | (some keyCopy, m) =>
                match growArray h.alloc s sizeofEntry ((s.items.length + 1) % sizeMod) m with
                | (.ok, s', m) =>
                    let moved := if index < s.items.length then s'.shiftUp index m else (s', m)
                    let r := moved.1.write index ⟨keyCopy, child⟩ moved.2
                    (.ok, some (.dict h r.1), r.2)
                | (st, s', m) => (st, some (.dict h s'), bencodeFree h.alloc keyCopy.block m)
  | _, _ => (.errInvalidArg, dict, m)

/-! ## Accessors -/

def bencodeValueType : Option Value → ValueType
  | none => .invalid
  | some (.int _ _) => .int
  | some (.string _ _) => .string
  | some (.list _ _) => .list
  | some (.dict _ _) => .dict

def bencodeValueInt : Option Value → Status × Option Int64
  | some (.int _ i) => (.ok, some i)
  | _ => (.errInvalidArg, none)

def bencodeValueString (bufs : Buffers) : Option Value → Status × Option Bytes
  | some (.string _ str) => (.ok, some (str.read bufs))
  | _ => (.errInvalidArg, none)

def bencodeListSize : Option Value → Nat
  | some (.list _ s) => s.items.length
  | _ => 0

def bencodeListAt (value : Option Value) (index : Nat) : Option Value :=
  match value with
  | some (.list _ s) => if index ≥ s.items.length then none else s.items[index]?
  | _ => none

def bencodeDictSize : Option Value → Nat
  | some (.dict _ s) => s.items.length
  | _ => 0

def bencodeDictGet (value : Option Value) (key : Span) : Except Fault (Option Value) :=
  match value with
  | some (.dict _ s) =>
      if key.isBad then .ok none
      else
        match dictSearch s.items key with
        | .error f => .error f
        | .ok (_, false) => .ok none
        | .ok (index, true) =>
            match s.items[index]? with
            | none => .error .badRead
            | some e => .ok (some e.value)
  | _ => .ok none

def bencodeDictAt (value : Option Value) (index : Nat) : Status × Option (Span × Value) :=
  match value with
  | some (.dict _ s) =>
      match s.items[index]? with
      | none => (.errInvalidArg, none)
      | some e => (.ok, some (e.key.span, e.value))
  | _ => (.errInvalidArg, none)

/-! ## Clone -/

mutual

def valueClone (bufs : Buffers) : Value → AllocRef → Memory → Status × Option Value × Memory
  | .int _ i, alloc, m => bencodeIntNew i alloc m
  | .string _ str, alloc, m => bencodeStringNew (.mem (str.read bufs)) alloc m
  | .list _ ⟨_, _, items⟩, alloc, m =>
      match bencodeAllocatorCheck alloc with
      | .ok =>
          match bencodeListNew alloc m with
          | (.ok, list, m) => cloneItems bufs items alloc list m
          | (st, _, m) => (st, none, m)
      | st => (st, none, m)
  | .dict _ ⟨_, _, entries⟩, alloc, m =>
      match bencodeAllocatorCheck alloc with
      | .ok =>
          match bencodeDictNew alloc m with
          | (.ok, dict, m) => cloneEntries bufs entries alloc dict m
          | (st, _, m) => (st, none, m)
      | st => (st, none, m)

def cloneItems (bufs : Buffers) :
    List Value → AllocRef → Option Value → Memory → Status × Option Value × Memory
  | [], _, list, m => (.ok, list, m)
  | v :: vs, alloc, list, m =>
      match valueClone bufs v alloc m with
      | (.ok, child, m) =>
          match bencodeListAppend list child m with
          | (.ok, list, m) => cloneItems bufs vs alloc list m
          | (st, list, m) => (st, none, bencodeValueFree list (bencodeValueFree child m))
      | (st, _, m) => (st, none, bencodeValueFree list m)

def cloneEntries (bufs : Buffers) :
    List (Entry Value) → AllocRef → Option Value → Memory → Status × Option Value × Memory
  | [], _, dict, m => (.ok, dict, m)
  | ⟨key, v⟩ :: es, alloc, dict, m =>
      match valueClone bufs v alloc m with
      | (.ok, child, m) =>
          match bencodeDictSet dict key.span child m with
          | (.ok, dict, m) => cloneEntries bufs es alloc dict m
          | (st, dict, m) => (st, none, bencodeValueFree dict (bencodeValueFree child m))
      | (st, _, m) => (st, none, bencodeValueFree dict m)

end

def bencodeValueClone (bufs : Buffers) (value : Option Value) (alloc : AllocRef) (m : Memory) :
    Status × Option Value × Memory :=
  match bencodeAllocatorCheck alloc with
  | .ok =>
      match value with
      | none => (.ok, none, m)
      | some v => valueClone bufs v alloc m
  | st => (st, none, m)

end Bencode
