import Bencode.Library.Decimal
import Bencode.Library.OutStream
import Bencode.Source.Value

/-!
# The emitter of `emit.c`

A sink is called with a pointer and a length and returns a status. The growing
buffer of `bencode_emit_to_alloc` is one such sink.
-/

namespace Bencode

/-- `bencode_emit_fn`; `τ` is what `user` points at. -/
abbrev Sink (τ : Type) := Span → τ → Status × τ

/-! ## Decimal formatting -/

def formatNat (n : Nat) : Bytes := Decimal.format n

def formatInt (i : Int64) : Bytes :=
  if i.toInt < 0 then '-'.toUInt8 :: formatNat i.toInt.natAbs else formatNat i.toInt.natAbs

/-- `char buf[32]` and `char header[32]`. -/
def formatBufferSize : Nat := 32

variable {τ : Type}

/-! ## Recursive emit -/

def emitBytes (emit : Sink τ) (user : τ) (bytes : Span) : Status × τ :=
  if bytes.len = 0 then (.ok, user) else emit bytes user

/-- `snprintf` into a fixed buffer; text that does not fit is an error. -/
def emitFormatted (emit : Sink τ) (user : τ) (text : Bytes) : Status × τ :=
  if text.length ≥ formatBufferSize then (.errIo, user) else emitBytes emit user (.mem text)

def emitInt (i : Int64) (emit : Sink τ) (user : τ) : Status × τ :=
  emitFormatted emit user ('i'.toUInt8 :: formatInt i ++ ['e'.toUInt8])

def emitString (bytes : Span) (emit : Sink τ) (user : τ) : Status × τ :=
  match emitFormatted emit user (formatNat bytes.len ++ [':'.toUInt8]) with
  | (.ok, user) => emitBytes emit user bytes
  | r => r

mutual

def emitValue (bufs : Buffers) : Value → Sink τ → τ → Status × τ
  | .int _ i, emit, user => emitInt i emit user
  | .string _ str, emit, user => emitString (.mem (str.read bufs)) emit user
  | .list _ ⟨_, _, items⟩, emit, user =>
      match emitBytes emit user (.mem ['l'.toUInt8]) with
      | (.ok, user) => emitItems bufs items emit user
      | r => r
  | .dict _ ⟨_, _, entries⟩, emit, user =>
      match emitBytes emit user (.mem ['d'.toUInt8]) with
      | (.ok, user) => emitEntries bufs entries emit user
      | r => r

/-- The loop of `emit_list` and the closing byte. -/
def emitItems (bufs : Buffers) : List Value → Sink τ → τ → Status × τ
  | [], emit, user => emitBytes emit user (.mem ['e'.toUInt8])
  | v :: vs, emit, user =>
      match emitValue bufs v emit user with
      | (.ok, user) => emitItems bufs vs emit user
      | r => r

/-- The loop of `emit_dict` and the closing byte. -/
def emitEntries (bufs : Buffers) : List (Entry Value) → Sink τ → τ → Status × τ
  | [], emit, user => emitBytes emit user (.mem ['e'.toUInt8])
  | ⟨key, v⟩ :: es, emit, user =>
      match emitString key.span emit user with
      | (.ok, user) =>
          match emitValue bufs v emit user with
          | (.ok, user) => emitEntries bufs es emit user
          | r => r
      | r => r

end

/-! ## Public entry points -/

def bencodeEmit (bufs : Buffers) (value : Option Value) (emit : Option (Sink τ)) (user : τ) :
    Status × τ :=
  match value, emit with
  | some v, some emit => emitValue bufs v emit user
  | _, _ => (.errInvalidArg, user)

/-! ## Emit to a file -/

section File

variable {d : Device}

end File

/-! ## Emit to an allocated buffer -/

/-- `alloc_sink`, together with the memory it allocates from. -/
structure AllocSink where
  block : Option MemBlock
  contents : Bytes
  cap : Nat
  alloc : AllocRef
  oom : Bool
  mem : Memory

/-- The `len` field: the bytes written so far. -/
def AllocSink.len (s : AllocSink) : Nat := s.contents.length

/-- `memcpy(s->bytes + s->len, bytes, len)`; writing past the block is a misuse. -/
def AllocSink.copyIn (s : AllocSink) (bytes : Span) : AllocSink :=
  if s.block ≠ none ∧ s.len + bytes.len ≤ s.cap then
    { s with contents := s.contents ++ bytes.bytes }
  else { s with mem := s.mem.misuse }

def sizeSub (a b : Nat) : Nat := (a + sizeMod - b) % sizeMod

def allocSinkAppend : Sink AllocSink := fun bytes s =>
  if s.oom then (.errNomem, s)
  else if sizeSub s.cap s.len < bytes.len then
    match doubleUntil (fun cap => decide (bytes.len ≤ sizeSub cap s.len)) doublingFuel
        (if s.cap = 0 then 4096 else s.cap) with
    | .overflow => (.errNomem, { s with oom := true })
    | .diverged => (.errNomem, { s with oom := true, mem := s.mem.misuse })
    | .cap newCap =>
        match bencodeAlloc s.alloc newCap s.mem with
        | (none, m) => (.errNomem, { s with oom := true, mem := m })
        | (some fresh, m) =>
            let m := bencodeFree s.alloc s.block m
            (.ok, AllocSink.copyIn { s with block := some fresh, cap := newCap, mem := m } bytes)
  else (.ok, s.copyIn bytes)

structure EmitResult where
  status : Status
  outBytes : Option MemBlock
  contents : Bytes
  outLen : Nat
  mem : Memory

def bencodeEmitToAlloc (bufs : Buffers) (value : Option Value) (alloc : AllocRef) (m : Memory) :
    EmitResult :=
  match value with
  | none => ⟨.errInvalidArg, none, [], 0, m⟩
  | some v =>
      match bencodeAllocatorCheck alloc with
      | .ok =>
          match emitValue bufs v allocSinkAppend ⟨none, [], 0, alloc, false, m⟩ with
          | (.ok, s) => ⟨.ok, s.block, s.contents, s.len, s.mem⟩
          | (st, s) => ⟨st, none, [], 0, bencodeFree alloc s.block s.mem⟩
      | st => ⟨st, none, [], 0, m⟩

def bencodeBufferFree (alloc : AllocRef) (bytes : Option MemBlock) (m : Memory) : Memory :=
  bencodeFree alloc bytes m

end Bencode
