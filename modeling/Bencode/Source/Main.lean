import Bencode.Library.OutStream
import Bencode.Source.Emit
import Bencode.Source.ParseDom

/-!
# The command line tool of `main.c`

Standard output is a buffered stream that is flushed once more when the process ends. A text
that is put on it in one call is shorter than its buffer, so it goes there byte by byte.
Standard error is not buffered and its failures are not looked at, so it is the text said
so far. The input is read into a buffer that doubles.
-/

namespace Bencode

open OutStream

def ascii (s : String) : Bytes := s.toList.map Char.toUInt8

def malloc (size : Nat) (m : Memory) : Option MemBlock × Memory := bencodeAlloc none size m

def free (ptr : Option MemBlock) (m : Memory) : Memory := bencodeFree none ptr m

/-! ## I/O helpers -/

/-- A file to read: whether it can be opened, its bytes, and whether reading ends in an error
instead of the end of the file. -/
structure InputFile where
  opens : Bool
  content : Bytes
  fails : Bool

/-- `buf`, `cap` and the first `len` bytes of the buffer. -/
structure ReadBuffer where
  block : MemBlock
  cap : Nat
  bytes : Bytes

def growBuf (buf : ReadBuffer) (m : Memory) : Option ReadBuffer × Memory :=
  if buf.cap > sizeMax / 2 then (none, free (some buf.block) m)
  else
    -- `realloc` gives the old block back; when it fails the code frees it.
    match malloc (buf.cap * 2 % sizeMod) m with
    | (none, m) => (none, free (some buf.block) m)
    | (some grown, m) =>
        (some { buf with block := grown, cap := buf.cap * 2 % sizeMod }, free (some buf.block) m)

/-- The loop of `read_all`; `rest` is what the file still has. -/
def readLoop (fails : Bool) :
    Nat → Bytes → ReadBuffer → Memory → Except Fault (Option ReadBuffer × Memory)
  | 0, _, _, _ => .error .outOfFuel
  | fuel + 1, rest, buf, m =>
      match if buf.bytes.length = buf.cap then growBuf buf m else (some buf, m) with
      | (none, m) => .ok (none, m)
      | (some buf, m) =>
          let got := rest.take (buf.cap - buf.bytes.length)
          if got.length = 0 then
            if fails then .ok (none, free (some buf.block) m) else .ok (some buf, m)
          else
            readLoop fails fuel (rest.drop got.length) { buf with bytes := buf.bytes ++ got } m

def readAll (file : InputFile) (m : Memory) : Except Fault (Option ReadBuffer × Memory) :=
  if file.opens then
    match malloc 4096 m with
    | (none, m) => .ok (none, m)
    | (some block, m) =>
        readLoop file.fails (file.content.length + 1) file.content ⟨block, 4096, []⟩ m
  else .ok (none, m)

/-! ## Pretty printer -/

section Printer

variable {d : Device}

def hexDigit (n : Nat) : UInt8 :=
  if n < 10 then '0'.toUInt8 + UInt8.ofNat n else 'a'.toUInt8 + UInt8.ofNat (n - 10)

/-- `true` is the return value 0 and `false` is -1. -/
def printByte (b : UInt8) (out : OutStream d) : Bool × OutStream d :=
  if b = '\x22'.toUInt8 ∨ b = '\x5c'.toUInt8 then fputs ['\x5c'.toUInt8, b] out
  else if 0x20 ≤ b ∧ b < 0x7f then fputc b out
  else fputs ['\x5c'.toUInt8, 'x'.toUInt8, hexDigit (b.toNat / 16), hexDigit (b.toNat % 16)] out

/-- The loop of `print_string`. -/
def printBytes : Bytes → OutStream d → Bool × OutStream d
  | [], out => (true, out)
  | b :: bs, out => andThen (printByte b out) (printBytes bs)

def printString (bytes : Bytes) (out : OutStream d) : Bool × OutStream d :=
  andThen (fputc '\x22'.toUInt8 out) fun out =>
    andThen (printBytes bytes out) (fputc '\x22'.toUInt8)

def printIndent : Nat → OutStream d → Bool × OutStream d
  | 0, out => (true, out)
  | depth + 1, out => andThen (fputs (ascii "  ") out) (printIndent depth)

/-- What stands after an element: a comma unless it is the last one. -/
def separator {α : Type} (more : List α) : Bytes :=
  if more.isEmpty then ascii "\n" else ascii ",\n"

mutual

def printValue (bufs : Buffers) : Value → Nat → OutStream d → Bool × OutStream d
  | .int _ i, _, out => fputs (formatInt i) out
  | .string _ str, _, out => printString (str.read bufs) out
  | .list _ ⟨_, _, items⟩, depth, out =>
      if items.isEmpty then fputs (ascii "[]") out
      else
        andThen (fputs (ascii "[\n") out) fun out =>
          andThen (printItems bufs items depth out) fun out =>
            andThen (printIndent depth out) (fputc ']'.toUInt8)
  | .dict _ ⟨_, _, entries⟩, depth, out =>
      if entries.isEmpty then fputs (ascii "\x7b\x7d") out
      else
        andThen (fputs (ascii "\x7b\n") out) fun out =>
          andThen (printEntries bufs entries depth out) fun out =>
            andThen (printIndent depth out) (fputc '\x7d'.toUInt8)

/-- The loop of `print_list`. -/
def printItems (bufs : Buffers) : List Value → Nat → OutStream d → Bool × OutStream d
  | [], _, out => (true, out)
  | v :: vs, depth, out =>
      andThen (printIndent (depth + 1) out) fun out =>
        andThen (printValue bufs v (depth + 1) out) fun out =>
          andThen (fputs (separator vs) out) (printItems bufs vs depth)

/-- The loop of `print_dict`. -/
def printEntries (bufs : Buffers) : List (Entry Value) → Nat → OutStream d → Bool × OutStream d
  | [], _, out => (true, out)
  | ⟨key, v⟩ :: es, depth, out =>
      andThen (printIndent (depth + 1) out) fun out =>
        andThen (printString key.bytes out) fun out =>
          andThen (fputs (ascii ": ") out) fun out =>
            andThen (printValue bufs v (depth + 1) out) fun out =>
              andThen (fputs (separator es) out) (printEntries bufs es depth)

end

end Printer

/-! ## Structural statistics -/

structure Stats where
  totalValues : Nat
  ints : Nat
  strings : Nat
  lists : Nat
  dicts : Nat
  maxDepthSeen : Nat
  totalStringBytes : Nat
deriving DecidableEq

namespace Stats

/-- `stats st = {0}`. -/
def zero : Stats := ⟨0, 0, 0, 0, 0, 0, 0⟩

/-- `++` on a counter. -/
def bump (n : Nat) : Nat := (n + 1) % sizeMod

/-- What `walk` does for a value of any type. -/
def enter (st : Stats) (depth : Nat) : Stats :=
  { st with
    totalValues := bump st.totalValues
    maxDepthSeen := if depth > st.maxDepthSeen then depth else st.maxDepthSeen }

def addInt (st : Stats) : Stats := { st with ints := bump st.ints }

def addString (st : Stats) (len : Nat) : Stats :=
  { st with
    strings := bump st.strings
    totalStringBytes := (st.totalStringBytes + len) % sizeMod }

def addList (st : Stats) : Stats := { st with lists := bump st.lists }

def addDict (st : Stats) : Stats := { st with dicts := bump st.dicts }

end Stats

mutual

def walk (bufs : Buffers) : Value → Stats → Nat → Stats
  | .int _ _, st, depth => (st.enter depth).addInt
  | .string _ str, st, depth => (st.enter depth).addString (str.read bufs).length
  | .list _ ⟨_, _, items⟩, st, depth => walkItems bufs items (st.enter depth).addList depth
  | .dict _ ⟨_, _, entries⟩, st, depth => walkEntries bufs entries (st.enter depth).addDict depth

def walkItems (bufs : Buffers) : List Value → Stats → Nat → Stats
  | [], st, _ => st
  | v :: vs, st, depth => walkItems bufs vs (walk bufs v st (depth + 1)) depth

/-- Keys count as strings too. -/
def walkEntries (bufs : Buffers) : List (Entry Value) → Stats → Nat → Stats
  | [], st, _ => st
  | ⟨key, v⟩ :: es, st, depth =>
      walkEntries bufs es (walk bufs v (st.addString key.len) (depth + 1)) depth

end

def sizeLine (label : String) (n : Nat) : Bytes := ascii label ++ formatNat n ++ ascii "\n"

def sizeReport (size : Nat) (st : Stats) : Bytes :=
  sizeLine "input_bytes:        " size ++
    sizeLine "total_values:       " st.totalValues ++
    sizeLine "  integers:         " st.ints ++
    sizeLine "  strings:          " st.strings ++
    sizeLine "  lists:            " st.lists ++
    sizeLine "  dicts:            " st.dicts ++
    sizeLine "max_depth_seen:     " st.maxDepthSeen ++
    sizeLine "total_string_bytes: " st.totalStringBytes

/-! ## Messages -/

def bencodeStatusString : Status → Bytes
  | .ok => ascii "ok"
  | .errInvalidArg => ascii "invalid argument"
  | .errTruncated => ascii "input truncated mid-value"
  | .errUnexpectedByte => ascii "unexpected byte where a value was expected"
  | .errIntegerOverflow => ascii "integer outside int64_t range"
  | .errIntegerFormat => ascii "malformed integer (leading zero, -0, or empty)"
  | .errStringLength => ascii "byte-string length exceeds remaining input"
  | .errDictUnsorted => ascii "dictionary keys not in lexicographic order"
  | .errDictDuplicate => ascii "dictionary contains duplicate key"
  | .errDictBadKey => ascii "dictionary key is not a byte string"
  | .errNestingTooDeep => ascii "nesting depth exceeded limit"
  | .errNomem => ascii "memory allocation failed"
  | .errIo => ascii "I/O error"
  | .errUserAborted => ascii "parse aborted by caller"
  | .errDictMissingValue => ascii "dictionary key has no matching value"

/-- A missing path and `-` stand for standard input. -/
def fromStdin (path : Option Bytes) : Bool := path.isNone || path == some (ascii "-")

def inputName (path : Option Bytes) : Bytes :=
  if fromStdin path then ascii "<stdin>" else path.getD []

/-! ## Subcommands -/

def statusToExit (st : Status) : Nat :=
  if st = .ok then 0 else if st = .errIo then 2 else 1

/-- What `load` returns; `loaded` is `*out_buf`, `*out_size` and `*out_value`. -/
structure Loaded where
  rc : Nat
  loaded : Option (ReadBuffer × Option Value)
  mem : Memory

/-- The input is the one buffer that string nodes point into. -/
def ReadBuffer.bufs (buf : ReadBuffer) : Buffers := fun _ => buf.bytes

def unreadText (prog : Bytes) (path : Option Bytes) : Bytes :=
  prog ++ ascii ": cannot read " ++ inputName path ++ ascii "\n"

def rejectText (prog : Bytes) (st : Status) (consumed : Nat) : Bytes :=
  prog ++ ascii ": " ++ bencodeStatusString st ++ ascii " at byte offset " ++
    formatNat consumed ++ ascii "\n"

def load (prog : Bytes) (path : Option Bytes) (file : InputFile) (m : Memory) :
    Except Fault (Loaded × Bytes) :=
  match readAll file m with
  | .error f => .error f
  | .ok (none, m) => .ok (⟨2, none, m⟩, unreadText prog path)
  | .ok (some buf, m) =>
      match bencodeParse buf.bufs (.buffer 0) (some ⟨0, none, false⟩) m with
      | .error f => .error f
      | .ok r =>
          if r.status ≠ .ok then
            .ok (⟨statusToExit r.status, none, free (some buf.block) r.mem⟩,
              rejectText prog r.status r.consumed)
          else .ok (⟨0, some (buf, r.out), r.mem⟩, [])

/-- An exit code with the state of standard output and of the memory. -/
structure Exit (d : Device) where
  code : Nat
  out : OutStream d
  mem : Memory

section Commands

variable {d : Device}

/-- Whether output was written decides between 0 and 2, and the tree and the buffer are freed. -/
def finish (written : Bool × OutStream d) (value : Option Value) (buf : ReadBuffer) (m : Memory) :
    Exit d :=
  ⟨if written.1 then 0 else 2, written.2,
    free (some buf.block) (bencodeValueFree value m)⟩

/-- The preamble of every subcommand: what `body` does with the buffer and the tree, or the end
with what `load` has said. -/
def withInput (prog : Bytes) (path : Option Bytes) (file : InputFile) (out : OutStream d)
    (m : Memory) (body : ReadBuffer → Option Value → Memory → Except Fault (Exit d × Bytes)) :
    Except Fault (Exit d × Bytes) :=
  match load prog path file m with
  | .error f => .error f
  | .ok (⟨rc, none, m⟩, err) => .ok (⟨rc, out, m⟩, err)
  | .ok (⟨_, some (buf, value), m⟩, _) => body buf value m

def cmdValidate (prog : Bytes) (path : Option Bytes) (file : InputFile) (out : OutStream d)
    (m : Memory) : Except Fault (Exit d × Bytes) :=
  withInput prog path file out m fun buf value m =>
    .ok (finish (fputs (ascii "ok\n") out) value buf m, [])

def cmdPrint (prog : Bytes) (path : Option Bytes) (file : InputFile) (out : OutStream d)
    (m : Memory) : Except Fault (Exit d × Bytes) :=
  withInput prog path file out m fun buf value m =>
    let printed := match value with
      | none => (false, out)
      | some v => printValue buf.bufs v 0 out
    let written := andThen printed fun out => andThen (fputc '\n'.toUInt8 out) fflush
    .ok (finish written value buf m, [])

def emitText (prog : Bytes) (st : Status) : Bytes :=
  prog ++ ascii ": emit failed: " ++ bencodeStatusString st ++ ascii "\n"

def mismatchText (prog : Bytes) (size emitted : Nat) : Bytes :=
  prog ++ ascii ": roundtrip mismatch: input " ++ formatNat size ++ ascii " bytes, output " ++
    formatNat emitted ++ ascii " bytes\n"

def cmdRoundtrip (prog : Bytes) (path : Option Bytes) (file : InputFile) (out : OutStream d)
    (m : Memory) : Except Fault (Exit d × Bytes) :=
  withInput prog path file out m fun buf value m =>
    let emitted := bencodeEmitToAlloc buf.bufs value none m
    if emitted.status ≠ .ok then
      .ok (⟨statusToExit emitted.status, out,
        free (some buf.block) (bencodeValueFree value emitted.mem)⟩, emitText prog emitted.status)
    else
      let size := buf.bytes.length
      match if emitted.outLen = size ∧ size ≠ 0 then memcmp emitted.contents buf.bytes size
        else .ok 0 with
      | .error f => .error f
      | .ok c =>
          let m := bencodeBufferFree none emitted.outBytes emitted.mem
          if emitted.outLen = size ∧ c = 0 then
            .ok (finish (fputs (ascii "ok\n") out) value buf m, [])
          else
            .ok (⟨1, out, free (some buf.block) (bencodeValueFree value m)⟩,
              mismatchText prog size emitted.outLen)

def cmdSize (prog : Bytes) (path : Option Bytes) (file : InputFile) (out : OutStream d)
    (m : Memory) : Except Fault (Exit d × Bytes) :=
  withInput prog path file out m fun buf value m =>
    let st := match value with
      | none => Stats.zero
      | some v => walk buf.bufs v .zero 0
    .ok (finish (fputs (sizeReport buf.bytes.length st) out) value buf m, [])

inductive Subcommand
  | validate
  | print
  | roundtrip
  | size
deriving DecidableEq

def Subcommand.cmd (prog : Bytes) (path : Option Bytes) :
    Subcommand → InputFile → OutStream d → Memory → Except Fault (Exit d × Bytes)
  | validate => cmdValidate prog path
  | print => cmdPrint prog path
  | roundtrip => cmdRoundtrip prog path
  | size => cmdSize prog path

/-- Leaving `main` flushes standard output once more, which does not change the exit code. -/
def atExit : Except Fault (Exit d × Bytes) → Except Fault (Exit d × Bytes)
  | .error f => .error f
  | .ok (e, err) => .ok ({ e with out := e.out.fflush.2 }, err)

end Commands

def runProcess (d : Device) (prog : Bytes) (path : Option Bytes) (sub : Subcommand)
    (file : InputFile) (m : Memory) : Except Fault (Exit d × Bytes) :=
  atExit (sub.cmd prog path file (opened d) m)

end Bencode
