import Bencode.Source.Main

/-!
# Trees seen through the accessors

`print_value` and `walk` know a tree only through the accessors of the library. Here their
recursion is written over node pointers and indices, as in `main.c`, with every branch for
a null pointer or for an accessor that fails. The first argument bounds the recursion.
-/

namespace Bencode

open OutStream

/-! ## Pretty printer -/

section Printer

variable {d : Device}

/-- `for (size_t i = 0; i < n; ++i)` from `i` on with `k` rounds left; a round that fails is the
last. -/
def eachIndex (round : Nat → OutStream d → Bool × OutStream d) :
    Nat → Nat → OutStream d → Bool × OutStream d
  | 0, _, out => (true, out)
  | k + 1, i, out => andThen (round i out) (eachIndex round k (i + 1))

/-- What follows the element at `i` of `n`. -/
def separatorAt (i n : Nat) : Bytes := if i + 1 < n then ascii ",\n" else ascii "\n"

/-- A round of `print_list`; `print` is the recursive call. -/
def printListRound (print : Option Value → OutStream d → Bool × OutStream d) (v : Option Value)
    (depth i : Nat) (out : OutStream d) : Bool × OutStream d :=
  andThen (printIndent (depth + 1) out) fun out =>
    andThen (print (bencodeListAt v i) out) (fputs (separatorAt i (bencodeListSize v)))

def printList (print : Option Value → OutStream d → Bool × OutStream d) (v : Option Value)
    (depth : Nat) (out : OutStream d) : Bool × OutStream d :=
  if bencodeListSize v = 0 then fputs (ascii "[]") out
  else
    andThen (fputs (ascii "[\n") out) fun out =>
      andThen (eachIndex (printListRound print v depth) (bencodeListSize v) 0 out) fun out =>
        andThen (printIndent depth out) (fputc ']'.toUInt8)

def printDictRound (print : Option Value → OutStream d → Bool × OutStream d) (v : Option Value)
    (depth i : Nat) (out : OutStream d) : Bool × OutStream d :=
  match bencodeDictAt v i with
  | (.ok, some (key, child)) =>
      andThen (printIndent (depth + 1) out) fun out =>
        andThen (printString key.bytes out) fun out =>
          andThen (fputs (ascii ": ") out) fun out =>
            andThen (print (some child) out) (fputs (separatorAt i (bencodeDictSize v)))
  | _ => (false, out)

def printDict (print : Option Value → OutStream d → Bool × OutStream d) (v : Option Value)
    (depth : Nat) (out : OutStream d) : Bool × OutStream d :=
  if bencodeDictSize v = 0 then fputs (ascii "\x7b\x7d") out
  else
    andThen (fputs (ascii "\x7b\n") out) fun out =>
      andThen (eachIndex (printDictRound print v depth) (bencodeDictSize v) 0 out) fun out =>
        andThen (printIndent depth out) (fputc '\x7d'.toUInt8)

def printPointer (bufs : Buffers) : Nat → Option Value → Nat → OutStream d → Bool × OutStream d
  | 0, _, _, out => (false, out)
  | fuel + 1, v, depth, out =>
      match bencodeValueType v with
      | .int =>
          match bencodeValueInt v with
          | (.ok, some i) => fputs (formatInt i) out
          | _ => (false, out)
      | .string =>
          match bencodeValueString bufs v with
          | (.ok, some bytes) => printString bytes out
          | _ => (false, out)
      | .list => printList (fun child => printPointer bufs fuel child (depth + 1)) v depth out
      | .dict => printDict (fun child => printPointer bufs fuel child (depth + 1)) v depth out
      | .invalid => (false, out)

end Printer

/-! ## Structural statistics -/

/-- A round of the loop over a dict; `tally` is the recursive call. -/
def walkDictRound (tally : Option Value → Stats → Stats) (v : Option Value) (st : Stats) (i : Nat) :
    Stats :=
  match bencodeDictAt v i with
  | (.ok, some (key, child)) => tally (some child) (st.addString key.len)
  | _ => st

def walkPointer (bufs : Buffers) : Nat → Option Value → Stats → Nat → Stats
  | 0, _, st, _ => st
  | _ + 1, none, st, _ => st
  | fuel + 1, some v, st, depth =>
      let st := st.enter depth
      match bencodeValueType (some v) with
      | .int => st.addInt
      | .string =>
          match bencodeValueString bufs (some v) with
          | (.ok, some bytes) => st.addString bytes.length
          | _ => { st with strings := Stats.bump st.strings }
      | .list =>
          (List.range (bencodeListSize (some v))).foldl
            (fun st i => walkPointer bufs fuel (bencodeListAt (some v) i) st (depth + 1)) st.addList
      | .dict =>
          (List.range (bencodeDictSize (some v))).foldl
            (walkDictRound (fun child st => walkPointer bufs fuel child st (depth + 1)) (some v))
            st.addDict
      | .invalid => st

end Bencode
