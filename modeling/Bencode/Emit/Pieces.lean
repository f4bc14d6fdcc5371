import Bencode.Library.Delivery
import Bencode.Spec.Tree

/-!
# Emission is the delivery of the pieces of a tree

What the emitter writes depends only on the tree that a node stands for: it offers
the sink the pieces of that tree in order and stops at the first refusal. Joined
together the pieces are the canonical encoding.
-/

namespace Bencode

open Delivery

variable {τ : Type}

/-! ## Pieces -/

/-- One write of the emitter: text from a format buffer, or bytes passed through. -/
inductive Piece
  | text (bytes : Bytes)
  | data (bytes : Bytes)

def Piece.bytes : Piece → Bytes
  | text bytes => bytes
  | data bytes => bytes

def offerPiece (emit : Sink τ) : Piece → τ → Status × τ
  | .text bytes, user => emitFormatted emit user bytes
  | .data bytes, user => emitBytes emit user (.mem bytes)

def stringPieces (bytes : Bytes) : List Piece :=
  [.text (formatNat bytes.length ++ [':'.toUInt8]), .data bytes]

mutual

def Tree.pieces : Tree → List Piece
  | .int i => [.text (encodeInt i)]
  | .string bytes => stringPieces bytes
  | .list items => .data ['l'.toUInt8] :: itemPieces items
  | .dict entries => .data ['d'.toUInt8] :: entryPieces entries

def itemPieces : List Tree → List Piece
  | [] => [.data ['e'.toUInt8]]
  | t :: ts => t.pieces ++ itemPieces ts

def entryPieces : List (Bytes × Tree) → List Piece
  | [] => [.data ['e'.toUInt8]]
  | (k, t) :: es => stringPieces k ++ (t.pieces ++ entryPieces es)

end

/-! ## The emitter delivers the pieces -/

theorem match_ok_eq (r : Status × τ) (next : τ → Status × τ) :
    (match r with
      | (.ok, user) => next user
      | r => r) = if r.1 = .ok then next r.2 else r := by
  obtain ⟨st, user⟩ := r
  cases st <;> rfl

theorem emitBytes_span (emit : Sink τ) (user : τ) {key : Span} (hbad : key.isBad = false) :
    emitBytes emit user key = emitBytes emit user (.mem key.bytes) := by
  cases key with
  | null n =>
      have hn : n = 0 := by simpa [Span.isBad] using hbad
      rw [hn]
      rfl
  | mem bytes => rfl

theorem emitString_eq {bytes : Span} (hbad : bytes.isBad = false) (emit : Sink τ) (user : τ) :
    emitString bytes emit user = deliver .ok (offerPiece emit) (stringPieces bytes.bytes) user := by
  have hlen : bytes.bytes.length = bytes.len := by
    cases bytes with
    | null n =>
        have hn : n = 0 := by simpa [Span.isBad] using hbad
        rw [hn]
        rfl
    | mem bytes => rfl
  rw [stringPieces, deliver_cons, deliver_singleton, hlen]
  apply (match_ok_eq _ fun user => emitBytes emit user bytes).trans
  simp only [offerPiece, emitBytes_span emit _ hbad]
  rfl

mutual

/-- Emission depends on the node only through the tree it stands for. -/
theorem emitValue_eq (bufs : Buffers) (v : Value) (emit : Sink τ) (user : τ) :
    emitValue bufs v emit user = deliver .ok (offerPiece emit) (v.tree bufs).pieces user := by
  cases v with
  | int h i =>
      simp only [emitValue, Value.tree, Tree.pieces, deliver_singleton]
      rfl
  | string h str =>
      simp only [emitValue, Value.tree, Tree.pieces]
      exact emitString_eq rfl emit user
  | list h slots =>
      obtain ⟨block, capacity, items⟩ := slots
      rw [emitValue, Value.tree, Tree.pieces, deliver_cons]
      apply (match_ok_eq _ fun user => emitItems bufs items emit user).trans
      simp only [emitItems_eq bufs items emit, offerPiece]
      rfl
  | dict h slots =>
      obtain ⟨block, capacity, entries⟩ := slots
      rw [emitValue, Value.tree, Tree.pieces, deliver_cons]
      apply (match_ok_eq _ fun user => emitEntries bufs entries emit user).trans
      simp only [emitEntries_eq bufs entries emit, offerPiece]
      rfl

theorem emitItems_eq (bufs : Buffers) (vs : List Value) (emit : Sink τ) (user : τ) :
    emitItems bufs vs emit user =
      deliver .ok (offerPiece emit) (itemPieces (itemTrees bufs vs)) user := by
  cases vs with
  | nil =>
      simp only [emitItems, itemTrees, itemPieces, deliver_singleton]
      rfl
  | cons v vs =>
      rw [emitItems, itemTrees, itemPieces, deliver_append]
      apply (match_ok_eq _ fun user => emitItems bufs vs emit user).trans
      simp only [emitValue_eq bufs v emit, emitItems_eq bufs vs emit]

theorem emitEntries_eq (bufs : Buffers) (es : List (Entry Value)) (emit : Sink τ) (user : τ) :
    emitEntries bufs es emit user =
      deliver .ok (offerPiece emit) (entryPieces (entryTrees bufs es)) user := by
  cases es with
  | nil =>
      simp only [emitEntries, entryTrees, entryPieces, deliver_singleton]
      rfl
  | cons e es =>
      obtain ⟨key, v⟩ := e
      have hkey : key.span.isBad = false := by cases key <;> rfl
      have hbytes : key.span.bytes = key.bytes := by cases key <;> rfl
      have hvalue : ∀ user, (match emitValue bufs v emit user with
          | (.ok, user) => emitEntries bufs es emit user
          | r => r) = deliver .ok (offerPiece emit)
            ((v.tree bufs).pieces ++ entryPieces (entryTrees bufs es)) user := by
        intro user
        rw [deliver_append]
        apply (match_ok_eq _ fun user => emitEntries bufs es emit user).trans
        simp only [emitValue_eq bufs v emit, emitEntries_eq bufs es emit]
      rw [emitEntries, entryTrees, entryPieces, deliver_append]
      refine (match_ok_eq _ fun user => match emitValue bufs v emit user with
          | (.ok, user) => emitEntries bufs es emit user
          | r => r).trans ?_
      simp only [hvalue, emitString_eq hkey, hbytes]

end

/-! ## Joined pieces -/

def joined (ps : List Piece) : Bytes := ps.flatMap Piece.bytes

@[simp] theorem joined_nil : joined [] = [] := rfl

@[simp] theorem joined_cons (p : Piece) (ps : List Piece) :
    joined (p :: ps) = p.bytes ++ joined ps := List.flatMap_cons

@[simp] theorem joined_append (ps qs : List Piece) : joined (ps ++ qs) = joined ps ++ joined qs :=
  List.flatMap_append

@[simp] theorem joined_stringPieces (bytes : Bytes) :
    joined (stringPieces bytes) = encodeString bytes := by
  simp [stringPieces, Piece.bytes, encodeString]

mutual

theorem Tree.joined_pieces (t : Tree) : joined t.pieces = t.encode := by
  cases t with
  | int i => simp [Tree.pieces, Tree.encode, Piece.bytes]
  | string bytes => simp [Tree.pieces, Tree.encode]
  | list items => simp [Tree.pieces, Tree.encode, Piece.bytes, joined_itemPieces items]
  | dict entries => simp [Tree.pieces, Tree.encode, Piece.bytes, joined_entryPieces entries]

theorem joined_itemPieces (ts : List Tree) :
    joined (itemPieces ts) = encodeItems ts ++ ['e'.toUInt8] := by
  cases ts with
  | nil => simp [itemPieces, encodeItems, Piece.bytes]
  | cons t ts => simp [itemPieces, encodeItems, t.joined_pieces, joined_itemPieces ts]

theorem joined_entryPieces (es : List (Bytes × Tree)) :
    joined (entryPieces es) = encodeEntries es ++ ['e'.toUInt8] := by
  cases es with
  | nil => simp [entryPieces, encodeEntries, Piece.bytes]
  | cons e es =>
      obtain ⟨k, t⟩ := e
      simp [entryPieces, encodeEntries, t.joined_pieces, joined_entryPieces es]

end

/-! ## Formatted text fits its buffer -/

/-- Formatted text is shorter than the format buffer. -/
def Piece.Fits : Piece → Prop
  | text bytes => bytes.length < formatBufferSize
  | data _ => True

theorem length_formatInt (i : Int64) : (formatInt i).length ≤ 20 := by
  have hlo := i.le_toInt
  have hhi := i.toInt_lt
  have hdigits : (formatNat i.toInt.natAbs).length ≤ 19 :=
    Decimal.length_format_le (by decide) (by omega)
  unfold formatInt
  split
  · simp only [List.length_cons]
    omega
  · omega

theorem stringPieces_fit {bytes : Bytes} (h : bytes.length ≤ sizeMax) :
    ∀ p ∈ stringPieces bytes, p.Fits := by
  have hdigits : (formatNat bytes.length).length ≤ 20 :=
    Decimal.length_format_le (by decide) (by unfold sizeMax sizeMod at h; omega)
  intro p hp
  simp only [stringPieces, List.mem_cons, List.not_mem_nil, or_false] at hp
  rcases hp with rfl | rfl
  · simp only [Piece.Fits, List.length_append, List.length_singleton, formatBufferSize]
    omega
  · trivial

mutual

theorem Tree.pieces_fit (t : Tree) (h : t.Fits) : ∀ p ∈ t.pieces, p.Fits := by
  cases t with
  | int i =>
      have := length_formatInt i
      simp [Tree.pieces, Piece.Fits, encodeInt, formatBufferSize]
      omega
  | string bytes => exact stringPieces_fit h
  | list items =>
      simp only [Tree.pieces, List.forall_mem_cons]
      exact ⟨trivial, itemPieces_fit items h⟩
  | dict entries =>
      simp only [Tree.pieces, List.forall_mem_cons]
      exact ⟨trivial, entryPieces_fit entries h⟩

theorem itemPieces_fit (ts : List Tree) (h : FitsItems ts) : ∀ p ∈ itemPieces ts, p.Fits := by
  cases ts with
  | nil =>
      simp only [itemPieces, List.forall_mem_singleton]
      trivial
  | cons t ts =>
      simp only [itemPieces, List.forall_mem_append]
      exact ⟨t.pieces_fit h.1, itemPieces_fit ts h.2⟩

theorem entryPieces_fit (es : List (Bytes × Tree)) (h : FitsEntries es) :
    ∀ p ∈ entryPieces es, p.Fits := by
  cases es with
  | nil =>
      simp only [entryPieces, List.forall_mem_singleton]
      trivial
  | cons e es =>
      obtain ⟨k, t⟩ := e
      simp only [entryPieces, List.forall_mem_append]
      exact ⟨stringPieces_fit h.1, t.pieces_fit h.2.1, entryPieces_fit es h.2.2⟩

end

/-! ## Sinks that accept everything -/

/-- A sink that never refuses, with the bytes written so far beside its state. -/
def acceptingSink (receive : Span → τ → τ) : Sink (τ × Bytes) := fun bytes user =>
  (.ok, receive bytes user.1, user.2 ++ bytes.bytes)

theorem offerPiece_accepting (receive : Span → τ → τ) {p : Piece} (h : p.Fits)
    (user : τ × Bytes) :
    ∃ user', offerPiece (acceptingSink receive) p user = (.ok, user', user.2 ++ p.bytes) := by
  have hbytes : ∀ bytes, ∃ user', emitBytes (acceptingSink receive) user (.mem bytes) =
      (.ok, user', user.2 ++ bytes) := by
    intro bytes
    unfold emitBytes
    split
    · next hzero =>
        have hnil : bytes = [] := List.length_eq_zero_iff.mp hzero
        exact ⟨user.1, by rw [hnil, List.append_nil]⟩
    · exact ⟨_, rfl⟩
  cases p with
  | text bytes =>
      have hshort : ¬ bytes.length ≥ formatBufferSize := Nat.not_le_of_lt h
      simpa [offerPiece, emitFormatted, hshort, Piece.bytes] using hbytes bytes
  | data bytes => exact hbytes bytes

theorem deliver_accepting_pieces (receive : Span → τ → τ) {ps : List Piece}
    (h : ∀ p ∈ ps, p.Fits) (user : τ × Bytes) :
    ∃ user', deliver .ok (offerPiece (acceptingSink receive)) ps user =
      (.ok, user', user.2 ++ joined ps) := by
  induction ps generalizing user with
  | nil => exact ⟨user.1, by simp⟩
  | cons p ps ih =>
      obtain ⟨user', hp⟩ := offerPiece_accepting receive (h p List.mem_cons_self) user
      obtain ⟨user'', hps⟩ := ih (fun q hq => h q (List.mem_cons_of_mem p hq))
        (user', user.2 ++ p.bytes)
      refine ⟨user'', ?_⟩
      rw [deliver_cons, hp, if_pos rfl, hps, joined_cons, List.append_assoc]

/-- A sink that accepts everything receives the canonical encoding. -/
theorem bencodeEmit_accepting (bufs : Buffers) (v : Value) (h : (v.tree bufs).Fits)
    (receive : Span → τ → τ) (user : τ) :
    ∃ user', bencodeEmit bufs (some v) (some (acceptingSink receive)) (user, []) =
      (.ok, user', (v.tree bufs).encode) := by
  obtain ⟨user', hrun⟩ :=
    deliver_accepting_pieces receive ((v.tree bufs).pieces_fit h) (user, [])
  refine ⟨user', ?_⟩
  rw [bencodeEmit, emitValue_eq, hrun, List.nil_append, Tree.joined_pieces]

end Bencode
