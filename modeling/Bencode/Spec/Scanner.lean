import Bencode.Library.Machine
import Bencode.Spec.Tree

/-!
# The scanner: an abstract pushdown machine for Bencode

The scanner reads one token per step and keeps the part of the tree it has read
so far as a stack of open containers, innermost first. It says what the SAX
parser is for: each step emits the event of its token, and a run stops with a
status and an offset. It has no cursor arithmetic, no callbacks and no fuel.
-/

namespace Bencode

open LabelledMachine

/-! ## Tokens -/

/-- Reading a token: what it denotes, or an error with the input left at it. -/
inductive Token (α : Type)
  | ok (a : α) (rest : Bytes)
  | err (st : Status) (rest : Bytes)

def startsWithDigit : Bytes → Bool
  | [] => false
  | b :: _ => isDigit b

/-- Read digits after a prefix of value `acc`, up to the cap. -/
def scanDigits (cap : Nat) : Nat → Bytes → Token Nat
  | acc, [] => .ok acc []
  | acc, b :: bs =>
      if isDigit b then
        if acc * 10 + Decimal.digitVal b > cap then .err .errIntegerOverflow (b :: bs)
        else scanDigits cap (acc * 10 + Decimal.digitVal b) bs
      else .ok acc (b :: bs)

def scanNat (cap : Nat) : Bytes → Token Nat
  | [] => .err .errTruncated []
  | b :: bs =>
      if isDigit b then
        if b = '0'.toUInt8 ∧ startsWithDigit bs then .err .errIntegerFormat bs
        else scanDigits cap (Decimal.digitVal b) bs
      else .err .errIntegerFormat (b :: bs)

def scanEnd {α : Type} (close : UInt8) (a : α) : Bytes → Token α
  | [] => .err .errTruncated []
  | b :: bs => if b = close then .ok a bs else .err .errUnexpectedByte (b :: bs)

def magnitudeCap (negative : Bool) : Nat := if negative then 2 ^ 63 else 2 ^ 63 - 1

/-- Read a magnitude and the closing `e`; the sign has been read. -/
def scanMagnitude (negative : Bool) (bs : Bytes) : Token Int64 :=
  match scanNat (magnitudeCap negative) bs with
  | .err st rest => .err st rest
  | .ok n rest =>
      if negative ∧ n = 0 then .err .errIntegerFormat rest
      else scanEnd 'e'.toUInt8 (Int64.ofInt (if negative then -n else n)) rest

def scanInt : Bytes → Token Int64
  | [] => scanMagnitude false []
  | b :: bs => if b = '-'.toUInt8 then scanMagnitude true bs else scanMagnitude false (b :: bs)

def scanString (bs : Bytes) : Token Bytes :=
  match scanNat sizeMax bs with
  | .err st rest => .err st rest
  | .ok n rest =>
      match scanEnd ':'.toUInt8 () rest with
      | .err st rest => .err st rest
      | .ok _ rest =>
          if n > rest.length then .err .errStringLength rest else .ok (rest.take n) (rest.drop n)

/-! ## Open containers -/

/-- A container that has been opened but not closed, with the children read so far.
A dict also remembers a key that still waits for its value. -/
inductive OpenScope
  | list (done : List Tree)
  | dict (done : List (Bytes × Tree)) (key : Option Bytes)

/-- Put a complete tree where the innermost container expects it. -/
def settle : List OpenScope → Tree → List OpenScope × Option Tree
  | [], t => ([], some t)
  | .list done :: below, t => (.list (done ++ [t]) :: below, none)
  | .dict done (some k) :: below, t => (.dict (done ++ [(k, t)]) none :: below, none)
  | .dict done none :: below, _ => (.dict done none :: below, none)

def lastKey (done : List (Bytes × Tree)) : Option Bytes := done.getLast?.map Prod.fst

/-- The verdict on a new key after the previous one. -/
def keyOrder (last : Option Bytes) (k : Bytes) : Status :=
  match last with
  | none => .ok
  | some last =>
      if last = k then .errDictDuplicate else if k < last then .errDictUnsorted else .ok

/-! ## The machine -/

/-- What has been read (open containers, or the finished tree) and what is left. -/
structure Config where
  stack : List OpenScope
  result : Option Tree
  rest : Bytes
  pos : Nat

namespace Config

def start (input : Bytes) : Config := ⟨[], none, input, 0⟩

def offset (c : Config) (rest : Bytes) : Nat := c.pos + (c.rest.length - rest.length)

def readTo (c : Config) (rest : Bytes) : Config := { c with rest := rest, pos := c.offset rest }

def give (c : Config) (t : Tree) : Config :=
  { c with stack := (settle c.stack t).1, result := (settle c.stack t).2 }

end Config

/-- The moves of the scanner: an event, or a status with its offset. -/
abbrev Scan := Move Config Event (Status × Nat)

/-- The offset of a payload that ends where `rest` begins. -/
def Config.stringEvent (c : Config) (bytes rest : Bytes) : Event :=
  .string (c.offset rest - bytes.length) bytes

def scanValue (limit : Nat) (c : Config) (b : UInt8) (bs : Bytes) : Scan :=
  if b = 'i'.toUInt8 then
    match scanInt bs with
    | .ok i rest => .emit (.int i) ((c.readTo rest).give (.int i))
    | .err st rest => .stop (st, c.offset rest)
  else if b = 'l'.toUInt8 then
    if c.stack.length ≥ limit then .stop (.errNestingTooDeep, c.offset bs)
    else .emit .listBegin { c.readTo bs with stack := .list [] :: c.stack }
  else if b = 'd'.toUInt8 then
    if c.stack.length ≥ limit then .stop (.errNestingTooDeep, c.offset bs)
    else .emit .dictBegin { c.readTo bs with stack := .dict [] none :: c.stack }
  else if isDigit b then
    match scanString (b :: bs) with
    | .ok bytes rest => .emit (c.stringEvent bytes rest) ((c.readTo rest).give (.string bytes))
    | .err st rest => .stop (st, c.offset rest)
  else .stop (.errUnexpectedByte, c.pos)

def scanKey (c : Config) (done : List (Bytes × Tree)) (below : List OpenScope) (b : UInt8)
    (bs : Bytes) : Scan :=
  if isDigit b then
    match scanString (b :: bs) with
    | .err st rest => .stop (st, c.offset rest)
    | .ok k rest =>
        match keyOrder (lastKey done) k with
        | .ok =>
            .emit (c.stringEvent k rest) { c.readTo rest with stack := .dict done (some k) :: below }
        | st => .stop (st, c.offset rest)
  else .stop (.errDictBadKey, c.pos)

def scanByte (limit : Nat) (c : Config) (b : UInt8) (bs : Bytes) : Scan :=
  match c.stack with
  | [] => scanValue limit c b bs
  | .list done :: below =>
      if b = 'e'.toUInt8 then
        .emit .listEnd ({ c.readTo bs with stack := below }.give (.list done))
      else scanValue limit c b bs
  | .dict done none :: below =>
      if b = 'e'.toUInt8 then
        .emit .dictEnd ({ c.readTo bs with stack := below }.give (.dict done))
      else scanKey c done below b bs
  | .dict _ (some _) :: _ =>
      if b = 'e'.toUInt8 then .stop (.errDictMissingValue, c.pos) else scanValue limit c b bs

/-- One step of the scanner with at most `limit` containers open. -/
def scanStep (limit : Nat) (c : Config) : Scan :=
  match c.result with
  | some _ => .stop (.ok, c.pos)
  | none =>
      match c.rest with
      | [] => .stop (.errTruncated, c.pos)
      | b :: bs => scanByte limit c b bs

/-- A run of the scanner on a whole input. -/
abbrev Scans (limit : Nat) (input : Bytes) (events : List Event) (st : Status) (off : Nat) : Prop :=
  Finishes (scanStep limit) (.start input) events (st, off)

end Bencode
