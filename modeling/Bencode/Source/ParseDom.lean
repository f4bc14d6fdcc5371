import Bencode.Source.ParseSax
import Bencode.Source.Value

/-!
# The DOM parser of `parse_dom.c`

The builder is the callback state of a SAX run. Containers are linked into the
tree when they open, and a frame keeps a pointer to its container, so an open
container is reached through the root.
-/

namespace Bencode

/-- `dom_frame`; the container is given by its address. -/
structure DomFrame where
  container : MemBlock
  expectingKey : Bool
  pendingKey : Span

def domFrameCount : Nat := 257

/-- `dom_state`. `input` names the buffer that string pointers point into, and
`mem` is the memory the callbacks allocate from. -/
structure DomState where
  root : Option Value
  alloc : AllocRef
  frames : Nat → DomFrame
  depth : Nat
  depthCap : Nat
  input : Nat
  mem : Memory

namespace DomState

/-- `s->frames[i]`, when `i` is an index of the array. -/
def frame? (s : DomState) (i : Nat) : Option DomFrame :=
  if i < domFrameCount then some (s.frames i) else none

def setFrame (s : DomState) (i : Nat) (f : DomFrame) : DomState :=
  if i < domFrameCount then { s with frames := Function.update s.frames i f }
  else { s with mem := s.mem.misuse }

/-- `*f->container`, when the tree under construction still has that node. -/
def container? (s : DomState) (f : DomFrame) : Option Value :=
  s.root.bind (·.find? f.container)

/-- The tree after a call has changed the container of `f`. -/
def storeContainer (s : DomState) (f : DomFrame) (container : Option Value) (m : Memory) :
    DomState :=
  match container with
  | some v => { s with root := s.root.map (Value.replace f.container v), mem := m }
  | none => { s with mem := m }

end DomState

/-- Attach a value to the innermost container, or make it the root. On failure the
caller still owns it. -/
def attach (s : DomState) (value : Option Value) : Status × DomState :=
  if s.depth = 0 then (.ok, { s with root := value })
  else
    match s.frame? (s.depth - 1) with
    | none => (.errInvalidArg, { s with mem := s.mem.misuse })
    | some f =>
        match s.container? f with
        | none => (.errInvalidArg, { s with mem := s.mem.misuse })
        | some c =>
            if bencodeValueType (some c) = .list then
              let r := bencodeListAppend (some c) value s.mem
              (r.1, s.storeContainer f r.2.1 r.2.2)
            else
              let r := bencodeDictSet (some c) f.pendingKey value s.mem
              (r.1, (s.storeContainer f r.2.1 r.2.2).setFrame (s.depth - 1)
                { f with pendingKey := .null 0, expectingKey := true })

/-- A leaf is built, attached, and freed again if it could not be attached. -/
def attachNew (s : DomState) (built : Status × Option Value × Memory) : Status × DomState :=
  let s := { s with mem := built.2.2 }
  if built.1 ≠ .ok then (built.1, s)
  else
    let r := attach s built.2.1
    if r.1 ≠ .ok then (r.1, { r.2 with mem := bencodeValueFree built.2.1 r.2.mem })
    else (r.1, r.2)

def domOnInt (value : Int64) (s : DomState) : Status × DomState :=
  attachNew s (bencodeIntNew value s.alloc s.mem)

/-- A string is a key exactly when the innermost frame is a dict that expects one. -/
def DomState.keyFrame? (s : DomState) : Option DomFrame :=
  if s.depth > 0 then
    match s.frame? (s.depth - 1) with
    | none => none
    | some f =>
        if bencodeValueType (s.container? f) = .dict ∧ f.expectingKey then some f else none
  else none

def domOnString (off : Nat) (bytes : Bytes) (s : DomState) : Status × DomState :=
  match s.keyFrame? with
  | some f =>
      (.ok, s.setFrame (s.depth - 1) { f with pendingKey := .mem bytes, expectingKey := false })
  | none =>
      attachNew s (bencodeStringNewBorrowed (some ⟨s.input, off⟩) bytes.length s.alloc s.mem)

def openContainer (s : DomState) (type : ValueType) : Status × DomState :=
  let built := if type = .list then bencodeListNew s.alloc s.mem else bencodeDictNew s.alloc s.mem
  let r := attachNew s built
  if r.1 ≠ .ok then r
  else
    match built.2.1 with
    | none => (.errInvalidArg, { r.2 with mem := r.2.mem.misuse })
    | some node =>
        if r.2.depth ≥ r.2.depthCap then (.errNestingTooDeep, r.2)
        else
          let s := r.2.setFrame r.2.depth ⟨node.self, type = .dict, .null 0⟩
          (.ok, { s with depth := s.depth + 1 })

def domOnListBegin (s : DomState) : Status × DomState := openContainer s .list

def domOnDictBegin (s : DomState) : Status × DomState := openContainer s .dict

/-- `dom_on_list_end` and `dom_on_dict_end` have one body. -/
def popFrame (s : DomState) : Status × DomState :=
  (.ok, if s.depth > 0 then { s with depth := s.depth - 1 } else s)

def domOnListEnd (s : DomState) : Status × DomState := popFrame s

def domOnDictEnd (s : DomState) : Status × DomState := popFrame s

def domCallbacks : Callbacks DomState where
  onInt := some domOnInt
  onString := some domOnString
  onListBegin := some domOnListBegin
  onListEnd := some domOnListEnd
  onDictBegin := some domOnDictBegin
  onDictEnd := some domOnDictEnd

/-! ## Public entry -/

structure ParseOptions where
  maxDepth : Nat
  allocator : AllocRef
  allowTrailing : Bool

/-- The `input` and `input_size` arguments: a buffer of the caller, or the null pointer. -/
inductive InputArg
  | null (size : Nat)
  | buffer (base : Nat)

def InputArg.span (bufs : Buffers) : InputArg → Span
  | .null size => .null size
  | .buffer base => .mem (bufs base)

def InputArg.base : InputArg → Nat
  | .null _ => 0
  | .buffer base => base

structure ParseResult where
  status : Status
  out : Option Value
  consumed : Nat
  mem : Memory

def domStart (input : InputArg) (alloc : AllocRef) (m : Memory) : DomState where
  root := none
  alloc := alloc
  frames := fun _ => ⟨⟨.platform, 0, 0⟩, false, .null 0⟩
  depth := 0
  depthCap := domFrameCount
  input := input.base
  mem := m

/-- The options a null `opts` stands for. -/
def ParseOptions.default : ParseOptions := ⟨0, none, false⟩

def bencodeParse (bufs : Buffers) (input : InputArg) (opts : Option ParseOptions) (m : Memory) :
    SaxM ParseResult := do
  let opts := opts.getD .default
  let as := bencodeAllocatorCheck opts.allocator
  if as ≠ .ok then return ⟨as, none, 0, m⟩
  let r ← bencodeParseSax (input.span bufs) (some domCallbacks)
    (domStart input opts.allocator m) opts.maxDepth
  let st :=
    if r.status = .ok ∧ opts.allowTrailing = false ∧ r.consumed ≠ (input.span bufs).len then
      Status.errUnexpectedByte
    else r.status
  if st ≠ .ok then return ⟨st, none, r.consumed, bencodeValueFree r.user.root r.user.mem⟩
  return ⟨.ok, r.user.root, r.consumed, r.user.mem⟩

end Bencode
