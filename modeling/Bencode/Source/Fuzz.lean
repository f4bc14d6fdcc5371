import Bencode.Source.Main

/-!
# The fuzz harness of the DOM parser

A harness that parses what it is given, emits the tree, parses what was emitted, and traps
when that fails.
-/

namespace Bencode

/-! ## The sink -/

/-- The harness's `sink`, together with the memory that `realloc` asks. -/
structure FuzzSink where
  data : Option MemBlock
  contents : Bytes
  cap : Nat
  oom : Bool
  mem : Memory

namespace FuzzSink

/-- `sink s = {0}`. -/
def zero (m : Memory) : FuzzSink := ⟨none, [], 0, false, m⟩

def len (s : FuzzSink) : Nat := s.contents.length

/-- `memcpy(s->data + s->len, bytes, len)`; writing past the block is a misuse. -/
def copyIn (s : FuzzSink) (bytes : Span) : FuzzSink :=
  if s.data ≠ none ∧ s.len + bytes.len ≤ s.cap then
    { s with contents := s.contents ++ bytes.bytes }
  else { s with mem := s.mem.misuse }

end FuzzSink

/-- A block that is granted takes over the bytes, and the old one is given back; when none is, the
old one stays. -/
def realloc (ptr : Option MemBlock) (size : Nat) (m : Memory) : Option MemBlock × Memory :=
  match malloc size m with
  | (none, m) => (none, m)
  | (some grown, m) => (some grown, free ptr m)

def sinkAppend : Sink FuzzSink := fun bytes s =>
  if s.oom then (.errNomem, s)
  else if sizeSub s.cap s.len < bytes.len then
    match doubleUntil (fun cap => decide (bytes.len ≤ sizeSub cap s.len)) doublingFuel
        (if s.cap = 0 then 4096 else s.cap) with
    | .overflow => (.errNomem, { s with oom := true })
    | .diverged => (.errNomem, { s with oom := true, mem := s.mem.misuse })
    | .cap newCap =>
        match realloc s.data newCap s.mem with
        | (none, m) => (.errNomem, { s with oom := true, mem := m })
        | (some grown, m) =>
            (.ok, FuzzSink.copyIn { s with data := some grown, cap := newCap, mem := m } bytes)
  else (.ok, s.copyIn bytes)

/-! ## The harness -/

/-- How a run ends: in `__builtin_trap` or by returning. -/
structure FuzzEnd where
  trapped : Bool
  mem : Memory

/-- `LLVMFuzzerTestOneInput` of `fuzz_parse_dom.c`. -/
def llvmFuzzerTestOneInput (data : Bytes) (m : Memory) : Except Fault FuzzEnd :=
  match bencodeParse (fun _ => data) (.buffer 0) none m with
  | .error f => .error f
  | .ok r =>
      if r.status ≠ .ok then .ok ⟨false, r.mem⟩
      else
        match bencodeEmit (fun _ => data) r.out (some sinkAppend) (.zero r.mem) with
        | (e, s) =>
            let m := bencodeValueFree r.out s.mem
            if e ≠ .ok then .ok ⟨false, free s.data m⟩
            else
              match bencodeParse (fun _ => s.contents) (.buffer 0) none m with
              | .error f => .error f
              | .ok r₂ =>
                  let m := free s.data (bencodeValueFree r₂.out r₂.mem)
                  .ok ⟨r₂.status ≠ .ok, m⟩

end Bencode
