import Bencode.Library.KeyedList
import Bencode.Source.ParseDom
import Bencode.Spec.Flaw

/-!
# What the library is for

A shelf of trees: a caller has numbered handles, makes trees and puts them into each other,
and asks what is at a place. Nothing here has a block, an allocator or an array. The one
trace that memory leaves is a request that is refused, and then the call has no effect.
-/

namespace Bencode

open KeyedList

/-! ## Places -/

/-- From a node to one below it, by the accessor that hands out the pointer. -/
inductive Access
  | listAt (index : Nat)
  | dictAt (index : Nat)
  | dictGet (key : Span)

/-- A node at or below one of the caller's handles. -/
structure Place where
  handle : Nat
  path : List Access

/-! ## Trees with places -/

def setEntry (k : Bytes) (t : Tree) (es : List (Bytes × Tree)) : List (Bytes × Tree) :=
  put Prod.fst (k, t) es

namespace Tree

def child? : Tree → Access → Option Tree
  | .list ts, .listAt i => ts[i]?
  | .dict es, .dictAt i => es[i]?.map Prod.snd
  | .dict es, .dictGet key =>
      if key.isBad = true then none else (lookup Prod.fst es key.bytes).map Prod.snd
  | _, _ => none

def setChild (new : Tree) : Tree → Access → Tree
  | .list ts, .listAt i => .list (ts.set i new)
  | .dict es, .dictAt i => .dict (es.modify i fun e => (e.1, new))
  | .dict es, .dictGet key => .dict (setEntry key.bytes new es)
  | t, _ => t

def at? : Tree → List Access → Option Tree
  | t, [] => some t
  | t, a :: path =>
      match t.child? a with
      | none => none
      | some u => u.at? path

def put (new : Tree) : Tree → List Access → Tree
  | _, [] => new
  | t, a :: path =>
      match t.child? a with
      | none => t
      | some u => setChild (put new u path) t a

end Tree

/-! ## Calls and replies -/

/-- What a caller can do. A tree is not put into itself. -/
inductive Command
  | intNew (i : Int64) (a : AllocRef)
  | stringNew (bytes : Span) (a : AllocRef)
  | listNew (a : AllocRef)
  | dictNew (a : AllocRef)
  | clone (source : Place) (a : AllocRef)
  | parse (input : InputArg) (opts : Option ParseOptions)
  | listAppend (list : Place) (child : Nat) (apart : child ≠ list.handle)
  | dictSet (dict : Place) (key : Span) (child : Nat) (apart : child ≠ dict.handle)
  | free (handle : Nat)
  | look (place : Place)
  | keyAt (place : Place) (index : Nat)
  | emit (place : Place)

structure Facts where
  type : ValueType
  int : Status × Option Int64
  string : Status × Option Bytes
  listSize : Nat
  dictSize : Nat

inductive Reply
  | status (st : Status)
  | parsed (st : Status) (consumed : Nat)
  | freed
  | facts (facts : Facts)
  | key (st : Status) (key : Option Bytes)
  | written (st : Status) (bytes : Bytes)

/-- A call, the reply to it, and whether a request was refused to it. -/
structure Turn where
  command : Command
  reply : Reply
  short : Bool

/-! ## Shelves -/

/-- The trees of the handles, in the order in which the handles were made. A handle without a
tree is the null pointer. -/
abbrev Shelf := List (Option Tree)

/-- What a call with the allocator `a` leads to. -/
def checkedBy (a : AllocRef) (t : Option Tree) : Status × Option Tree :=
  if bencodeAllocatorCheck a = .ok then (.ok, t) else (bencodeAllocatorCheck a, none)

def Tree.facts : Option Tree → Facts
  | none => ⟨.invalid, (.errInvalidArg, none), (.errInvalidArg, none), 0, 0⟩
  | some (.int i) => ⟨.int, (.ok, some i), (.errInvalidArg, none), 0, 0⟩
  | some (.string bytes) => ⟨.string, (.errInvalidArg, none), (.ok, some bytes), 0, 0⟩
  | some (.list ts) => ⟨.list, (.errInvalidArg, none), (.errInvalidArg, none), ts.length, 0⟩
  | some (.dict es) => ⟨.dict, (.errInvalidArg, none), (.errInvalidArg, none), 0, es.length⟩

def Tree.keyAt (i : Nat) : Option Tree → Reply
  | some (.dict es) =>
      match es[i]? with
      | some e => .key .ok (some e.1)
      | none => .key .errInvalidArg none
  | _ => .key .errInvalidArg none

def Tree.written : Option Tree → Reply
  | none => .written .errInvalidArg []
  | some t => .written .ok t.encode

inductive Decodes (bufs : Buffers) (opts : ParseOptions) :
    InputArg → Status → Nat → Option Tree → Prop
  | unchecked {input : InputArg} (bad : bencodeAllocatorCheck opts.allocator ≠ .ok) :
      Decodes bufs opts input (bencodeAllocatorCheck opts.allocator) 0 none
  | null {n : Nat} (checked : bencodeAllocatorCheck opts.allocator = .ok) :
      Decodes bufs opts (.null n) (if n = 0 then .errTruncated else .errInvalidArg) 0 none
  | value {base : Nat} {t : Tree} {z : Bytes}
      (checked : bencodeAllocatorCheck opts.allocator = .ok) (canonical : t.Canonical)
      (fits : t.Fits) (shallow : t.nesting ≤ effectiveDepth opts.maxDepth)
      (text : bufs base = t.encode ++ z) (whole : opts.allowTrailing = true ∨ z = []) :
      Decodes bufs opts (.buffer base) .ok t.encode.length (some t)
  | trailing {base : Nat} {t : Tree} {z : Bytes}
      (checked : bencodeAllocatorCheck opts.allocator = .ok) (canonical : t.Canonical)
      (fits : t.Fits) (shallow : t.nesting ≤ effectiveDepth opts.maxDepth)
      (text : bufs base = t.encode ++ z) (strict : opts.allowTrailing = false) (more : z ≠ []) :
      Decodes bufs opts (.buffer base) .errUnexpectedByte t.encode.length none
  | flawed {base : Nat} {st : Status} {off : Nat}
      (checked : bencodeAllocatorCheck opts.allocator = .ok) (bad : st ≠ .ok)
      (first : FirstFlaw (effectiveDepth opts.maxDepth) (bufs base) st off) :
      Decodes bufs opts (.buffer base) st off none

namespace Shelf

def tree? (ts : Shelf) (handle : Nat) : Option Tree := ts[handle]?.join

def at? (ts : Shelf) (p : Place) : Option Tree :=
  match ts.tree? p.handle with
  | none => none
  | some t => t.at? p.path

def put (ts : Shelf) (p : Place) (new : Tree) : Shelf :=
  match ts.tree? p.handle with
  | none => ts
  | some t => ts.set p.handle (some (Tree.put new t p.path))

def makes (ts : Shelf) : Command → Option (Status × Option Tree)
  | .intNew i a => some (checkedBy a (some (.int i)))
  | .stringNew bytes a =>
      some (if bytes.isBad = true then (.errInvalidArg, none)
        else checkedBy a (some (.string bytes.bytes)))
  | .listNew a => some (checkedBy a (some (.list [])))
  | .dictNew a => some (checkedBy a (some (.dict [])))
  | .clone p a => some (checkedBy a (ts.at? p))
  | _ => none

def takes (ts : Shelf) : Command → Option (Status × Shelf)
  | .listAppend p child _ =>
      match ts.at? p, ts.tree? child with
      | some (.list us), some t => some (.ok, (ts.put p (.list (us ++ [t]))).set child none)
      | _, _ => some (.errInvalidArg, ts)
  | .dictSet p key child _ =>
      match ts.at? p, ts.tree? child with
      | some (.dict es), some t =>
          if key.isBad = true then some (.errInvalidArg, ts)
          else some (.ok, (ts.put p (.dict (setEntry key.bytes t es))).set child none)
      | _, _ => some (.errInvalidArg, ts)
  | _ => none

def tells (ts : Shelf) : Command → Option Reply
  | .look p => some (.facts (Tree.facts (ts.at? p)))
  | .keyAt p i => some (Tree.keyAt i (ts.at? p))
  | .emit p => some (Tree.written (ts.at? p))
  | _ => none

/-- One call. A refused request is reported, and leaves the trees as they were; only a call that
would have succeeded is refused one. -/
inductive Acts (bufs : Buffers) (ts : Shelf) : Turn → Shelf → Prop
  | made {c : Command} {st : Status} {t : Option Tree} (call : ts.makes c = some (st, t)) :
      Acts bufs ts ⟨c, .status st, false⟩ (ts ++ [t])
  | unmade {c : Command} {t : Tree} (call : ts.makes c = some (.ok, some t)) :
      Acts bufs ts ⟨c, .status .errNomem, true⟩ (ts ++ [none])
  | parsed {input : InputArg} {opts : Option ParseOptions} {st : Status} {n : Nat}
      {t : Option Tree} (call : Decodes bufs (opts.getD .default) input st n t) :
      Acts bufs ts ⟨.parse input opts, .parsed st n, false⟩ (ts ++ [t])
  | unparsed {base : Nat} {opts : Option ParseOptions} {n : Nat}
      (checked : bencodeAllocatorCheck (opts.getD .default).allocator = .ok) :
      Acts bufs ts ⟨.parse (.buffer base) opts, .parsed .errNomem n, true⟩ (ts ++ [none])
  | taken {c : Command} {st : Status} {us : Shelf} (call : ts.takes c = some (st, us)) :
      Acts bufs ts ⟨c, .status st, false⟩ us
  | untaken {c : Command} {us : Shelf} (call : ts.takes c = some (.ok, us)) :
      Acts bufs ts ⟨c, .status .errNomem, true⟩ ts
  | freed (handle : Nat) : Acts bufs ts ⟨.free handle, .freed, false⟩ (ts.set handle none)
  | told {c : Command} {reply : Reply} (call : ts.tells c = some reply) :
      Acts bufs ts ⟨c, reply, false⟩ ts

end Shelf

end Bencode
