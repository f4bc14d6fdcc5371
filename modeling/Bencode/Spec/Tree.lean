import Bencode.Source.Emit
import Bencode.Source.ParseSax
import Bencode.Spec.KeyOrder

/-!
# Bencode trees and their canonical encoding

The abstract values the library stores: what a tree of nodes means once blocks,
allocators and pointers are forgotten. `encode` is the canonical encoding, and
`events` the callbacks a reader of that encoding makes, with string offsets.
-/

namespace Bencode

inductive Tree
  | int (i : Int64)
  | string (bytes : Bytes)
  | list (items : List Tree)
  | dict (entries : List (Bytes × Tree))

/-! ## Encoding -/

def encodeString (bytes : Bytes) : Bytes := formatNat bytes.length ++ ':'.toUInt8 :: bytes

def encodeInt (i : Int64) : Bytes := 'i'.toUInt8 :: (formatInt i ++ ['e'.toUInt8])

mutual

def Tree.encode : Tree → Bytes
  | .int i => encodeInt i
  | .string bytes => encodeString bytes
  | .list items => 'l'.toUInt8 :: (encodeItems items ++ ['e'.toUInt8])
  | .dict entries => 'd'.toUInt8 :: (encodeEntries entries ++ ['e'.toUInt8])

def encodeItems : List Tree → Bytes
  | [] => []
  | t :: ts => t.encode ++ encodeItems ts

def encodeEntries : List (Bytes × Tree) → Bytes
  | [] => []
  | (k, t) :: es => encodeString k ++ (t.encode ++ encodeEntries es)

end

/-! ## Events -/

def stringEvent (pos : Nat) (bytes : Bytes) : Event :=
  .string (pos + (formatNat bytes.length).length + 1) bytes

mutual

def Tree.events : Tree → Nat → List Event
  | .int i, _ => [.int i]
  | .string bytes, pos => [stringEvent pos bytes]
  | .list items, pos => .listBegin :: (itemsEvents items (pos + 1) ++ [.listEnd])
  | .dict entries, pos => .dictBegin :: (entriesEvents entries (pos + 1) ++ [.dictEnd])

def itemsEvents : List Tree → Nat → List Event
  | [], _ => []
  | t :: ts, pos => t.events pos ++ itemsEvents ts (pos + t.encode.length)

def entriesEvents : List (Bytes × Tree) → Nat → List Event
  | [], _ => []
  | (k, t) :: es, pos =>
      stringEvent pos k ::
        (t.events (pos + (encodeString k).length) ++
          entriesEvents es (pos + (encodeString k).length + t.encode.length))

end

/-! ## Shape -/

mutual

def Tree.nesting : Tree → Nat
  | .int _ => 0
  | .string _ => 0
  | .list items => itemsNesting items + 1
  | .dict entries => entriesNesting entries + 1

def itemsNesting : List Tree → Nat
  | [] => 0
  | t :: ts => max t.nesting (itemsNesting ts)

def entriesNesting : List (Bytes × Tree) → Nat
  | [] => 0
  | (_, t) :: es => max t.nesting (entriesNesting es)

end

def entryKeys (entries : List (Bytes × Tree)) : List Bytes := entries.map Prod.fst

mutual

/-- In every dict of the tree the keys are strictly increasing. -/
def Tree.Canonical : Tree → Prop
  | .int _ => True
  | .string _ => True
  | .list items => CanonicalItems items
  | .dict entries => (entryKeys entries).Pairwise (· < ·) ∧ CanonicalEntries entries

def CanonicalItems : List Tree → Prop
  | [] => True
  | t :: ts => t.Canonical ∧ CanonicalItems ts

def CanonicalEntries : List (Bytes × Tree) → Prop
  | [] => True
  | (_, t) :: es => t.Canonical ∧ CanonicalEntries es

end

mutual

/-- Every byte string of the tree has a length that a `size_t` can hold. -/
def Tree.Fits : Tree → Prop
  | .int _ => True
  | .string bytes => bytes.length ≤ sizeMax
  | .list items => FitsItems items
  | .dict entries => FitsEntries entries

def FitsItems : List Tree → Prop
  | [] => True
  | t :: ts => t.Fits ∧ FitsItems ts

def FitsEntries : List (Bytes × Tree) → Prop
  | [] => True
  | (k, t) :: es => k.length ≤ sizeMax ∧ t.Fits ∧ FitsEntries es

end

/-! ## What a tree of nodes stands for -/

mutual

/-- The tree a node stands for while the caller's buffers hold `bufs`. -/
def Value.tree (bufs : Buffers) : Value → Tree
  | .int _ i => .int i
  | .string _ str => .string (str.read bufs)
  | .list _ ⟨_, _, items⟩ => .list (itemTrees bufs items)
  | .dict _ ⟨_, _, entries⟩ => .dict (entryTrees bufs entries)

def itemTrees (bufs : Buffers) : List Value → List Tree
  | [] => []
  | v :: vs => v.tree bufs :: itemTrees bufs vs

def entryTrees (bufs : Buffers) : List (Entry Value) → List (Bytes × Tree)
  | [] => []
  | ⟨key, v⟩ :: es => (key.bytes, v.tree bufs) :: entryTrees bufs es

end

/-! ## Basic equations -/

@[simp] theorem encodeItems_append (ts us : List Tree) :
    encodeItems (ts ++ us) = encodeItems ts ++ encodeItems us := by
  induction ts with
  | nil => simp [encodeItems]
  | cons t ts ih => simp [encodeItems, ih]

@[simp] theorem encodeEntries_append (es fs : List (Bytes × Tree)) :
    encodeEntries (es ++ fs) = encodeEntries es ++ encodeEntries fs := by
  induction es with
  | nil => simp [encodeEntries]
  | cons e es ih =>
      obtain ⟨k, t⟩ := e
      simp [encodeEntries, ih]

theorem itemsEvents_append (ts us : List Tree) (pos : Nat) :
    itemsEvents (ts ++ us) pos =
      itemsEvents ts pos ++ itemsEvents us (pos + (encodeItems ts).length) := by
  induction ts generalizing pos with
  | nil => simp [itemsEvents, encodeItems]
  | cons t ts ih => simp [itemsEvents, encodeItems, ih, Nat.add_assoc]

theorem entriesEvents_append (es fs : List (Bytes × Tree)) (pos : Nat) :
    entriesEvents (es ++ fs) pos =
      entriesEvents es pos ++ entriesEvents fs (pos + (encodeEntries es).length) := by
  induction es generalizing pos with
  | nil => simp [entriesEvents, encodeEntries]
  | cons e es ih =>
      obtain ⟨k, t⟩ := e
      simp [entriesEvents, encodeEntries, ih, Nat.add_assoc]

@[simp] theorem itemsNesting_append (ts us : List Tree) :
    itemsNesting (ts ++ us) = max (itemsNesting ts) (itemsNesting us) := by
  induction ts with
  | nil => simp [itemsNesting]
  | cons t ts ih => simp [itemsNesting, ih, Nat.max_assoc]

@[simp] theorem entriesNesting_append (es fs : List (Bytes × Tree)) :
    entriesNesting (es ++ fs) = max (entriesNesting es) (entriesNesting fs) := by
  induction es with
  | nil => simp [entriesNesting]
  | cons e es ih =>
      obtain ⟨k, t⟩ := e
      simp [entriesNesting, ih, Nat.max_assoc]

theorem canonicalItems_append (ts us : List Tree) :
    CanonicalItems (ts ++ us) ↔ CanonicalItems ts ∧ CanonicalItems us := by
  induction ts with
  | nil => simp [CanonicalItems]
  | cons t ts ih => simp [CanonicalItems, ih, and_assoc]

theorem canonicalEntries_append (es fs : List (Bytes × Tree)) :
    CanonicalEntries (es ++ fs) ↔ CanonicalEntries es ∧ CanonicalEntries fs := by
  induction es with
  | nil => simp [CanonicalEntries]
  | cons e es ih =>
      obtain ⟨k, t⟩ := e
      simp [CanonicalEntries, ih, and_assoc]

end Bencode
