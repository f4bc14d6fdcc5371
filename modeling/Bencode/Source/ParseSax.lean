import Bencode.Source.Basic
import Mathlib.Logic.Function.Basic

/-!
# The SAX parser of `parse_sax.c`

A cursor is the offset of `s->p` from `s->origin`. Every read through the cursor,
every access to the scope array and every pop is checked and faults where C would
have undefined behaviour. The recursion runs on fuel; `saxFuel` is what the entry
point supplies.
-/

namespace Bencode

/-! ## Callbacks -/

/-- One call of a callback. A string is the offset of its first byte and its bytes. -/
inductive Event
  | int (value : Int64)
  | string (off : Nat) (bytes : Bytes)
  | listBegin
  | listEnd
  | dictBegin
  | dictEnd
deriving DecidableEq

/-- `bencode_callbacks`; `σ` is what `user` points at, and an entry may be null. -/
structure Callbacks (σ : Type) where
  onInt : Option (Int64 → σ → Status × σ)
  onString : Option (Nat → Bytes → σ → Status × σ)
  onListBegin : Option (σ → Status × σ)
  onListEnd : Option (σ → Status × σ)
  onDictBegin : Option (σ → Status × σ)
  onDictEnd : Option (σ → Status × σ)

/-- The function a table has installed for an event. -/
def Callbacks.handler {σ : Type} (cb : Callbacks σ) : Event → Option (σ → Status × σ)
  | .int value => cb.onInt.map (· value)
  | .string off bytes => cb.onString.map (· off bytes)
  | .listBegin => cb.onListBegin
  | .listEnd => cb.onListEnd
  | .dictBegin => cb.onDictBegin
  | .dictEnd => cb.onDictEnd

/-- `if (s->cb != NULL && s->cb->on_x != NULL) return s->cb->on_x(...); return BENCODE_OK;` -/
def callBack {σ : Type} (cb : Option (Callbacks σ)) (e : Event) (user : σ) : Status × σ :=
  match cb.bind (·.handler e) with
  | some f => f user
  | none => (.ok, user)

/-! ## Parser state -/

def internalMaxDepth : Nat := 256

def defaultMaxDepth : Nat := 64

structure SaxScope where
  isDict : Bool
  expectingKey : Bool
  lastKey : Option Nat
  lastKeyLen : Nat

/-- `sax_state`; `end` is the length of the input. -/
structure SaxState (σ : Type) where
  input : Bytes
  p : Nat
  cb : Option (Callbacks σ)
  user : σ
  depth : Nat
  maxDepth : Nat
  scopes : Nat → SaxScope

abbrev SaxM (α : Type) := Except Fault α

@[simp] theorem SaxM.ok_bind {α β : Type} (a : α) (f : α → SaxM β) :
    (Except.ok a >>= f) = f a := rfl

@[simp] theorem SaxM.pure_eq {α : Type} (a : α) : (pure a : SaxM α) = .ok a := rfl

def isDigit (b : UInt8) : Bool := '0'.toUInt8 ≤ b && b ≤ '9'.toUInt8

namespace SaxState

variable {σ : Type} (s : SaxState σ)

def atEnd : Bool := s.input.length ≤ s.p

def peek : SaxM UInt8 :=
  match s.input[s.p]? with
  | some b => .ok b
  | none => .error .badRead

def advance (n : Nat) : SaxState σ := { s with p := s.p + n }

/-- `!at_end(s) && is_digit(peek(s))`. -/
def digitAhead : SaxM Bool :=
  if s.atEnd then return false
  else return isDigit (← s.peek)

def slice (off len : Nat) : Bytes := (s.input.drop off).take len

def notify (e : Event) : Status × SaxState σ :=
  ((callBack s.cb e s.user).1, { s with user := (callBack s.cb e s.user).2 })

/-- `s->depth - 1` as an index into the scope array. -/
def topIndex : SaxM Nat :=
  if s.depth = 0 then throw .badScope else return s.depth - 1

def getScope (i : Nat) : SaxM SaxScope :=
  if i < internalMaxDepth then return s.scopes i else throw .badScope

def setScope (i : Nat) (sc : SaxScope) : SaxM (SaxState σ) :=
  if i < internalMaxDepth then return { s with scopes := Function.update s.scopes i sc }
  else throw .badScope

end SaxState

variable {σ : Type}

/-! ## Helpers -/

def bytesCmp (a : Bytes) (alen : Nat) (b : Bytes) (blen : Nat) : SaxM Int :=
  let n := if alen < blen then alen else blen
  match (if n = 0 then .ok 0 else memcmp a b n) with
  | .error f => .error f
  | .ok c =>
      if c ≠ 0 then .ok c
      else if alen < blen then .ok (-1)
      else if alen > blen then .ok 1
      else .ok 0

/-! ## Integers -/

def digitOf (b : UInt8) : UInt64 := (b - '0'.toUInt8).toUInt64

/-- The `while` loop of `parse_unsigned`. -/
def unsignedLoop (maxMag : UInt64) :
    Nat → UInt64 → SaxState σ → SaxM (Status × UInt64 × SaxState σ)
  | fuel, acc, s => do
    if ← s.digitAhead then
      match fuel with
      | 0 => throw .outOfFuel
      | fuel + 1 =>
          let digit := digitOf (← s.peek)
          if acc > (maxMag - digit) / 10 then return (.errIntegerOverflow, 0, s)
          unsignedLoop maxMag fuel (acc * 10 + digit) (s.advance 1)
    else return (.ok, acc, s)

def parseUnsigned (s : SaxState σ) (maxMag : UInt64) : SaxM (Status × UInt64 × SaxState σ) := do
  if s.atEnd then return (.errTruncated, 0, s)
  let first ← s.peek
  if !isDigit first then return (.errIntegerFormat, 0, s)
  let s := s.advance 1
  let acc := digitOf first
  let leadingZero ← if first = '0'.toUInt8 then s.digitAhead else pure false
  if leadingZero then return (.errIntegerFormat, 0, s)
  unsignedLoop maxMag s.input.length acc s

def posMax : UInt64 := 9223372036854775807

def negMax : UInt64 := posMax + 1

/-- `-x` in `int64_t`, undefined at `INT64_MIN`. -/
def negate (x : Int64) : SaxM Int64 :=
  if x = Int64.minValue then throw .signedOverflow else return -x

/-- The value of an accepted literal; `(int64_t)mag` cannot hold `2 ^ 63`. -/
def signedValue (negative : Bool) (mag : UInt64) : SaxM Int64 :=
  if negative then
    if mag = negMax then return Int64.minValue else negate mag.toInt64
  else return mag.toInt64

/-- `parse_int` once the magnitude has been read. -/
def parseIntEnd (negative : Bool) (mag : UInt64) (s : SaxState σ) : SaxM (Status × SaxState σ) := do
  if negative && mag == 0 then return (.errIntegerFormat, s)
  if s.atEnd then return (.errTruncated, s)
  if (← s.peek) ≠ 'e'.toUInt8 then return (.errUnexpectedByte, s)
  let s := s.advance 1
  let value ← signedValue negative mag
  return s.notify (.int value)

/-- `parse_int` once the optional minus has been read. -/
def parseIntBody (negative : Bool) (s : SaxState σ) : SaxM (Status × SaxState σ) := do
  if s.atEnd then return (.errTruncated, s)
  if !isDigit (← s.peek) then return (.errIntegerFormat, s)
  let (st, mag, s) ← parseUnsigned s (if negative then negMax else posMax)
  if st ≠ .ok then return (st, s)
  parseIntEnd negative mag s

def parseInt (s : SaxState σ) : SaxM (Status × SaxState σ) := do
  let s := s.advance 1
  let negative ← if s.atEnd then pure false else pure ((← s.peek) == '-'.toUInt8)
  parseIntBody negative (if negative then s.advance 1 else s)

/-! ## Strings -/

/-- The offset and length of the payload are the out parameters. -/
def parseString (s : SaxState σ) : SaxM (Status × Nat × Nat × SaxState σ) := do
  let (st, mag, s) ← parseUnsigned s (UInt64.ofNat sizeMax)
  if st ≠ .ok then return (st, 0, 0, s)
  if s.atEnd then return (.errTruncated, 0, 0, s)
  if (← s.peek) ≠ ':'.toUInt8 then return (.errUnexpectedByte, 0, 0, s)
  let s := s.advance 1
  let len := mag.toNat
  let remaining := s.input.length - s.p
  if len > remaining then return (.errStringLength, 0, 0, s)
  return (.ok, s.p, len, s.advance len)

/-! ## Containers -/

def pushScope (s : SaxState σ) (isDict : Bool) : SaxM (Status × SaxState σ) := do
  if s.depth ≥ s.maxDepth then return (.errNestingTooDeep, s)
  let s ← s.setScope s.depth ⟨isDict, isDict, none, 0⟩
  return (.ok, { s with depth := s.depth + 1 })

def popScope (s : SaxState σ) : SaxM (SaxState σ) :=
  if s.depth = 0 then throw .popEmpty else return { s with depth := s.depth - 1 }

def parseDictKey (s : SaxState σ) (sc : Nat) : SaxM (Status × SaxState σ) := do
  if !isDigit (← s.peek) then return (.errDictBadKey, s)
  let (st, keyBytes, keyLen, s) ← parseString s
  if st ≠ .ok then return (st, s)
  let scope ← s.getScope sc
  let order : Int ←
    match scope.lastKey with
    | some lastKey =>
        bytesCmp (s.input.drop lastKey) scope.lastKeyLen (s.input.drop keyBytes) keyLen
    | none => pure (-1)
  if order = 0 then return (.errDictDuplicate, s)
  if order > 0 then return (.errDictUnsorted, s)
  let s ← s.setScope sc
    { scope with lastKey := some keyBytes, lastKeyLen := keyLen, expectingKey := false }
  return s.notify (.string keyBytes (s.slice keyBytes keyLen))

mutual

def parseValue : Nat → SaxState σ → SaxM (Status × SaxState σ)
  | 0, _ => throw .outOfFuel
  | fuel + 1, s => do
    if s.atEnd then return (.errTruncated, s)
    let b ← s.peek
    if b = 'i'.toUInt8 then parseInt s
    else if b = 'l'.toUInt8 then parseList fuel s
    else if b = 'd'.toUInt8 then parseDict fuel s
    else if isDigit b then
      let (st, bytes, len, s) ← parseString s
      if st ≠ .ok then return (st, s)
      return s.notify (.string bytes (s.slice bytes len))
    else return (.errUnexpectedByte, s)

def parseList : Nat → SaxState σ → SaxM (Status × SaxState σ)
  | 0, _ => throw .outOfFuel
  | fuel + 1, s => do
    let (st, s) ← pushScope (s.advance 1) false
    if st ≠ .ok then return (st, s)
    let (st, s) := s.notify .listBegin
    if st ≠ .ok then return (st, ← popScope s)
    listLoop fuel s

/-- The `while (1)` of `parse_list`. -/
def listLoop : Nat → SaxState σ → SaxM (Status × SaxState σ)
  | 0, _ => throw .outOfFuel
  | fuel + 1, s => do
    if s.atEnd then return (.errTruncated, ← popScope s)
    if (← s.peek) = 'e'.toUInt8 then
      let s ← popScope (s.advance 1)
      return s.notify .listEnd
    let (st, s) ← parseValue fuel s
    if st ≠ .ok then return (st, ← popScope s)
    listLoop fuel s

def parseDict : Nat → SaxState σ → SaxM (Status × SaxState σ)
  | 0, _ => throw .outOfFuel
  | fuel + 1, s => do
    let (st, s) ← pushScope (s.advance 1) true
    if st ≠ .ok then return (st, s)
    let (st, s) := s.notify .dictBegin
    if st ≠ .ok then return (st, ← popScope s)
    dictLoop fuel s

/-- The `while (1)` of `parse_dict`. -/
def dictLoop : Nat → SaxState σ → SaxM (Status × SaxState σ)
  | 0, _ => throw .outOfFuel
  | fuel + 1, s => do
    if s.atEnd then return (.errTruncated, ← popScope s)
    let sc ← s.topIndex
    let scope ← s.getScope sc
    if (← s.peek) = 'e'.toUInt8 then
      if !scope.expectingKey then return (.errDictMissingValue, ← popScope s)
      let s ← popScope (s.advance 1)
      return s.notify .dictEnd
    if scope.expectingKey then
      let (st, s) ← parseDictKey s sc
      if st ≠ .ok then return (st, ← popScope s)
      dictLoop fuel s
    else
      let (st, s) ← parseValue fuel s
      if st ≠ .ok then return (st, ← popScope s)
      -- `sc` still points at the scope it pointed at before the nested value.
      let scope ← s.getScope sc
      let s ← s.setScope sc { scope with expectingKey := true }
      dictLoop fuel s

end

/-! ## Public entry -/

/-- The effective limit after clamping. -/
def effectiveDepth (maxDepth : Nat) : Nat :=
  let effective := if maxDepth = 0 then defaultMaxDepth else maxDepth
  if effective > internalMaxDepth then internalMaxDepth else effective

/-- Three calls lie between one byte consumed and the next. -/
def saxFuel (inputSize : Nat) : Nat := 3 * inputSize + 1

def saxStart (input : Bytes) (cb : Option (Callbacks σ)) (user : σ) (maxDepth : Nat) :
    SaxState σ where
  input := input
  p := 0
  cb := cb
  user := user
  depth := 0
  maxDepth := effectiveDepth maxDepth
  scopes := fun _ => ⟨false, false, none, 0⟩

structure SaxResult (σ : Type) where
  status : Status
  consumed : Nat
  user : σ

def bencodeParseSax (input : Span) (cb : Option (Callbacks σ)) (user : σ) (maxDepth : Nat) :
    SaxM (SaxResult σ) := do
  if input.isBad then return ⟨.errInvalidArg, 0, user⟩
  if input.len = 0 then return ⟨.errTruncated, 0, user⟩
  let (st, s) ← parseValue (saxFuel input.len) (saxStart input.bytes cb user maxDepth)
  return ⟨st, s.p, s.user⟩

end Bencode
