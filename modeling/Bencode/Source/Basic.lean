import Bencode.Library.BlockLedger

/-!
# Shared vocabulary of the C sources

Bytes, status codes, pointer-and-length arguments and the allocator interface.
Sizes are natural numbers; where the C code computes with `size_t` the wrap at
`2 ^ 64` is written out. What C leaves undefined is a `Fault`, so that a run
which never faults is a run without undefined behaviour.
-/

namespace Bencode

abbrev Bytes := List UInt8

/-- One past `SIZE_MAX` on a 64-bit target. -/
def sizeMod : Nat := 2 ^ 64

def sizeMax : Nat := sizeMod - 1

inductive Status
  | ok
  | errInvalidArg
  | errTruncated
  | errUnexpectedByte
  | errIntegerOverflow
  | errIntegerFormat
  | errStringLength
  | errDictUnsorted
  | errDictDuplicate
  | errDictBadKey
  | errNestingTooDeep
  | errNomem
  | errIo
  | errUserAborted
  | errDictMissingValue
deriving DecidableEq, Repr

inductive ValueType
  | invalid
  | int
  | string
  | list
  | dict
deriving DecidableEq, Repr

/-- Undefined behaviour the code must never reach. -/
inductive Fault
  | outOfFuel
  | badRead
  | badScope
  | popEmpty
  | signedOverflow
deriving DecidableEq, Repr

/-- A pointer with the number of bytes it is said to point at. -/
inductive Span
  | null (len : Nat)
  | mem (bytes : Bytes)
deriving DecidableEq, Repr

namespace Span

def len : Span → Nat
  | null n => n
  | mem bytes => bytes.length

/-- The bytes that can really be read through the pointer. -/
def bytes : Span → Bytes
  | null _ => []
  | mem bytes => bytes

/-- A null pointer that claims to point at something, which the API rejects. -/
def isBad : Span → Bool
  | null n => n != 0
  | mem _ => false

end Span

def firstDiff : Bytes → Bytes → Int
  | a :: as, b :: bs => if a = b then firstDiff as bs else (a.toNat : Int) - b.toNat
  | _, _ => 0

/-- `memcmp(a, b, n)`. Both sides must have `n` readable bytes. -/
def memcmp (a b : Bytes) (n : Nat) : Except Fault Int :=
  if n ≤ a.length ∧ n ≤ b.length then .ok (firstDiff (a.take n) (b.take n))
  else .error .badRead

/-! ## Allocators -/

/-- Where memory comes from: `malloc`, or the caller's function pair behind `user`. -/
inductive Pool
  | platform
  | user (id : Nat)
deriving DecidableEq

/-- `bencode_allocator`: either function pointer may be null. -/
structure Allocator where
  user : Nat
  hasAlloc : Bool
  hasFree : Bool
deriving DecidableEq

/-- A `const bencode_allocator *`; the null pointer selects `malloc` and `free`. -/
abbrev AllocRef := Option Allocator

/-- All memory of the process, whichever allocator manages it. -/
abbrev Memory := BlockLedger Pool sizeMax

abbrev MemBlock := Block Pool

/-- The pool `bencode_alloc` draws from. -/
def allocPool : AllocRef → Pool
  | some a => if a.hasAlloc then .user a.user else .platform
  | none => .platform

/-- The pool `bencode_free` returns blocks to. -/
def freePool : AllocRef → Pool
  | some a => if a.hasFree then .user a.user else .platform
  | none => .platform

def bencodeAlloc (a : AllocRef) (size : Nat) (m : Memory) : Option MemBlock × Memory :=
  m.request (allocPool a) size

def bencodeFree (a : AllocRef) (ptr : Option MemBlock) (m : Memory) : Memory :=
  match ptr with
  | none => m
  | some b => m.release (freePool a) b

def bencodeAllocatorCheck (a : AllocRef) : Status :=
  match a with
  | none => .ok
  | some a => if !a.hasAlloc || !a.hasFree then .errInvalidArg else .ok

theorem freePool_eq_allocPool {a : AllocRef} (h : bencodeAllocatorCheck a = .ok) :
    freePool a = allocPool a := by
  cases a with
  | none => rfl
  | some a =>
      cases ha : a.hasAlloc <;> cases hf : a.hasFree <;>
        simp [bencodeAllocatorCheck, freePool, allocPool, ha, hf] at h ⊢

end Bencode
