import Bencode.Emit.Pieces
import Bencode.Library.CallLog

/-!
# What a sink is called with

A sink is called for the pieces that are not empty. The bytes it gets are always a
beginning of the encoding, and a write it refuses is the last one.
-/

namespace Bencode

open Delivery

variable {τ : Type}

def Piece.chunk (p : Piece) : Option Span := if p.bytes = [] then none else some (.mem p.bytes)

def chunks (calls : List (τ × Span)) : Bytes := calls.flatMap (·.2.bytes)

theorem offerPiece_offerCall (emit : Sink τ) {p : Piece} (fits : p.Fits) (user : τ) :
    offerPiece emit p user = offerCall .ok Piece.chunk emit p user := by
  have hbytes : ∀ bytes : Bytes, emitBytes emit user (.mem bytes) =
      offerCall .ok Piece.chunk emit (.data bytes) user := by
    intro bytes
    cases bytes with
    | nil => rfl
    | cons b bs => rfl
  cases p with
  | data bytes => exact hbytes bytes
  | text bytes =>
      have hshort : ¬ bytes.length ≥ formatBufferSize := Nat.not_le_of_lt fits
      rw [offerPiece, emitFormatted, if_neg hshort]
      exact hbytes bytes

theorem chunk_nonempty {ps : List Piece} {span : Span} (h : span ∈ ps.filterMap Piece.chunk) :
    0 < span.len ∧ ∃ bytes, span = .mem bytes := by
  obtain ⟨p, -, hp⟩ := List.mem_filterMap.mp h
  unfold Piece.chunk at hp
  split at hp
  · cases hp
  · next hne =>
      cases hp
      exact ⟨List.length_pos_iff.mpr hne, p.bytes, rfl⟩

theorem chunk_joined (ps : List Piece) :
    (ps.filterMap Piece.chunk).flatMap Span.bytes = joined ps := by
  induction ps with
  | nil => rfl
  | cons p ps ih =>
      rw [joined_cons, ← ih, List.filterMap_cons, Piece.chunk]
      by_cases hnil : p.bytes = []
      · simp [hnil]
      · simp [hnil, Span.bytes]

/-- How the calls of a sink relate to the text that is emitted and to the status. -/
structure Protocol (emit : Sink τ) (text : Bytes) (st : Status) (calls : List (τ × Span)) :
    Prop where
  nonempty : ∀ call ∈ calls, 0 < call.2.len ∧ ∃ bytes, call.2 = .mem bytes
  written : ∀ pre, pre <+: calls → chunks pre <+: text
  refused : ∀ pre call post, calls = pre ++ call :: post → answer emit call ≠ .ok →
    post = [] ∧ st = answer emit call
  complete : (∀ call ∈ calls, answer emit call = .ok) → st = .ok ∧ chunks calls = text

theorem chunks_eq (calls : List (τ × Span)) :
    chunks calls = (calls.map Prod.snd).flatMap Span.bytes :=
  (List.flatMap_map ..).symm

theorem protocol_of_called {emit : Sink τ} {ps : List Piece} {st : Status}
    {calls : List (τ × Span)} (h : Called .ok emit (ps.filterMap Piece.chunk) st calls) :
    Protocol emit (joined ps) st calls where
  nonempty := by
    intro call hcall
    exact chunk_nonempty (h.told.subset (List.mem_map_of_mem hcall))
  written := by
    intro pre hpre
    obtain ⟨rest, hrest⟩ := (hpre.map Prod.snd).trans h.told
    rw [← chunk_joined, ← hrest, List.flatMap_append, chunks_eq]
    exact List.prefix_append _ _
  refused := by
    rintro pre call post rfl bad
    exact h.refused bad
  complete := by
    intro ok
    obtain ⟨hst, htold⟩ := h.complete ok
    exact ⟨hst, by rw [chunks_eq, htold, chunk_joined]⟩

/-- Emission calls the sink for the pieces that are not empty. -/
theorem emitValue_offerCall {bufs : Buffers} {v : Value} (fits : (v.tree bufs).Fits)
    (emit : Sink τ) (user : τ) :
    emitValue bufs v emit user =
      deliver .ok (offerCall .ok Piece.chunk emit) (v.tree bufs).pieces user := by
  have hfit := (v.tree bufs).pieces_fit fits
  rw [emitValue_eq]
  exact deliver_congr (fun p hp u => offerPiece_offerCall emit (hfit p hp) u) user

/-- Emission keeps to the protocol on every sink; the logged sink is the sink with a log of its
calls. -/
theorem emitValue_protocol {bufs : Buffers} {v : Value} (fits : (v.tree bufs).Fits)
    (emit : Sink τ) (user : τ) :
    ∃ calls, emitValue bufs v (logged emit) (user, []) =
        ((emitValue bufs v emit user).1, (emitValue bufs v emit user).2, calls) ∧
      Protocol emit (v.tree bufs).encode (emitValue bufs v emit user).1 calls := by
  obtain ⟨calls, hrun, hcalled⟩ :=
    deliver_logged .ok Piece.chunk emit (v.tree bufs).pieces (user, [])
  rw [emitValue_offerCall fits, emitValue_offerCall fits, ← Tree.joined_pieces]
  exact ⟨calls, hrun, protocol_of_called hcalled⟩

/-- What holds of the sink at first and after every accepted write holds before every write. -/
theorem emitValue_invariant {bufs : Buffers} {v : Value} (fits : (v.tree bufs).Fits)
    {emit : Sink τ} {user : τ} {P : τ → Prop} (start : P user)
    (keep : ∀ bytes s, 0 < bytes.length → P s → (emit (.mem bytes) s).1 = .ok →
      P (emit (.mem bytes) s).2) :
    ∀ call ∈ (emitValue bufs v (logged emit) (user, [])).2.2, P call.1 := by
  rw [emitValue_offerCall fits]
  intro call hcall
  refine (logged_invariant start (fun span hspan s hs hok => ?_) call hcall).resolve_left
    List.not_mem_nil
  obtain ⟨hpos, bytes, rfl⟩ := chunk_nonempty hspan
  exact keep bytes s hpos hs hok

end Bencode
