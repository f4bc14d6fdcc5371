import Bencode.Dom.RoundTrip
import Bencode.Emit.Buffer
import Bencode.Source.Fuzz

/-!
# The harness never traps

What the parser accepts is emitted as it was read and accepted again, so the fuzz harness
has nothing to report unless its second parse runs out of memory.
-/

namespace Bencode

open Delivery

/-! ## The sink of the harness -/

/-- The sink of `bencode_emit_to_alloc` that a sink of the harness is. -/
def FuzzSink.asAlloc (s : FuzzSink) : AllocSink := ⟨s.data, s.contents, s.cap, none, s.oom, s.mem⟩

theorem FuzzSink.copyIn_asAlloc (s : FuzzSink) (bytes : Span) :
    s.asAlloc.copyIn bytes = (s.copyIn bytes).asAlloc := by
  unfold AllocSink.copyIn FuzzSink.copyIn
  by_cases h : s.data ≠ none ∧ s.len + bytes.len ≤ s.cap
  · rw [if_pos h]
    exact if_pos h
  · rw [if_neg h]
    exact if_neg h

/-- Growing by `realloc` is growing by `bencode_alloc` and `bencode_free` of the platform. -/
theorem sinkAppend_asAlloc (bytes : Span) (s : FuzzSink) :
    allocSinkAppend bytes s.asAlloc =
      ((sinkAppend bytes s).1, (sinkAppend bytes s).2.asAlloc) := by
  have hdouble : doubleUntil (fun cap => decide (bytes.len ≤ sizeSub cap s.asAlloc.len))
      doublingFuel (if s.asAlloc.cap = 0 then 4096 else s.asAlloc.cap) =
        doubleUntil (fun cap => decide (bytes.len ≤ sizeSub cap s.len)) doublingFuel
          (if s.cap = 0 then 4096 else s.cap) := rfl
  unfold allocSinkAppend sinkAppend realloc
  rw [hdouble]
  by_cases hoom : s.oom = true
  · rw [if_pos hoom]
    exact if_pos hoom
  · rw [if_neg hoom, if_neg (show ¬ s.asAlloc.oom = true from hoom)]
    by_cases hshort : sizeSub s.cap s.len < bytes.len
    · rw [if_pos hshort, if_pos (show sizeSub s.asAlloc.cap s.asAlloc.len < bytes.len from hshort)]
      generalize doubleUntil (fun cap => decide (bytes.len ≤ sizeSub cap s.len)) doublingFuel
        (if s.cap = 0 then 4096 else s.cap) = grownCap
      cases grownCap with
      | overflow => rfl
      | diverged => rfl
      | cap newCap =>
          have hrequest : bencodeAlloc s.asAlloc.alloc newCap s.asAlloc.mem =
              malloc newCap s.mem := rfl
          dsimp only
          rw [hrequest]
          cases malloc newCap s.mem with
          | mk grown m =>
              cases grown with
              | none => rfl
              | some grown =>
                  exact congrArg (Prod.mk Status.ok)
                    (FuzzSink.copyIn_asAlloc ⟨some grown, s.contents, newCap, s.oom, free s.data m⟩
                      bytes)
    · rw [if_neg hshort,
        if_neg (show ¬ sizeSub s.asAlloc.cap s.asAlloc.len < bytes.len from hshort)]
      exact congrArg (Prod.mk Status.ok) (s.copyIn_asAlloc bytes)

theorem offerPiece_asAlloc (p : Piece) (s : FuzzSink) :
    offerPiece allocSinkAppend p s.asAlloc =
      ((offerPiece sinkAppend p s).1, (offerPiece sinkAppend p s).2.asAlloc) := by
  have hbytes : ∀ bytes : Bytes, emitBytes allocSinkAppend s.asAlloc (.mem bytes) =
      ((emitBytes sinkAppend s (.mem bytes)).1,
        (emitBytes sinkAppend s (.mem bytes)).2.asAlloc) := by
    intro bytes
    unfold emitBytes
    split
    · rfl
    · exact sinkAppend_asAlloc (.mem bytes) s
  cases p with
  | data bytes => exact hbytes bytes
  | text bytes =>
      unfold offerPiece emitFormatted
      dsimp only
      split
      · rfl
      · exact hbytes bytes

theorem bencodeEmit_sink (bufs : Buffers) (v : Value) (m : Memory) :
    ∃ st s, bencodeEmit bufs (some v) (some sinkAppend) (.zero m) = (st, s) ∧
      BufferAnswer none m (v.tree bufs).pieces (v.tree bufs).encode (st, s.asAlloc) := by
  have hstart : SinkHolds none m [] (FuzzSink.zero m).asAlloc :=
    ⟨⟨rfl, rfl, Nat.zero_le _, .refl m⟩, rfl, Nat.le_refl _, rfl, rfl⟩
  have hanswer := deliver_buffer rfl (v.tree bufs).pieces hstart
  rw [List.nil_append, Tree.joined_pieces,
    deliver_simulated FuzzSink.asAlloc offerPiece_asAlloc] at hanswer
  refine ⟨_, _, ?_, hanswer⟩
  exact emitValue_eq bufs v sinkAppend (.zero m)

/-! ## The harness -/

theorem root_freed {m m₁ : Memory} {out : Option Value} {came : Multiset MemBlock}
    (sound : ∀ v, out = some v → v.Sound) (taken : m.Exchange m₁ 0 (rootBlocks out + came)) :
    m.Exchange (bencodeValueFree out m₁) 0 came := by
  have hlive := taken.came_live (Multiset.zero_le _)
  obtain ⟨hfree, -⟩ := frees_root sound m₁ ((Multiset.le_add_right _ _).trans hlive)
  have hall := taken.trans hfree
  rw [add_zero, add_comm (rootBlocks out)] at hall
  exact hall.cancel (rootBlocks out)

theorem sink_freed {m m₁ m₂ : Memory} {s : FuzzSink} (owns : SinkOwns none m₁ s.asAlloc)
    (taken : m.Exchange m₂ 0 (optionBlock s.data)) : m.Exchange (free s.data m₂) 0 0 := by
  have hlive := taken.came_live (Multiset.zero_le _)
  obtain ⟨hfree, -⟩ := frees_array (a := none) rfl owns.array m₂ hlive
  exact ((taken.trans hfree).congr rfl (add_comm _ _)).cancel _

/-- Any input in any memory, whatever requests are refused: the harness ends and gives back all it
was granted, and it traps only if memory was refused. -/
theorem fuzz_never_traps (data : Bytes) (m : Memory) :
    ∃ e, llvmFuzzerTestOneInput data m = .ok e ∧ m.Exchange e.mem 0 0 ∧
      (e.trapped = true → m.refused < e.mem.refused) := by
  obtain ⟨r, hrun, hparsed⟩ := bencodeParse_parsed (fun _ => data) 0 none rfl m
  unfold llvmFuzzerTestOneInput
  rw [hrun]
  dsimp only
  cases hparsed with
  | trailing scan strict more blocks granted =>
      exact ⟨_, if_pos (by simp), blocks, fun h => by cases h⟩
  | rejected scan bad blocks granted =>
      exact ⟨_, if_pos bad, blocks, fun h => by cases h⟩
  | nomem blocks refused =>
      exact ⟨_, if_pos (by simp), blocks, fun h => by cases h⟩
  | @accepted v rest es m₁ scan text whole sound told blocks granted =>
      have hnil : rest = [] := whole.resolve_left Bool.false_ne_true
      rw [hnil, List.append_nil] at text
      obtain ⟨st, s, hemit, hanswer⟩ := bencodeEmit_sink (fun _ => data) v m₁
      rw [if_neg (by simp), hemit]
      dsimp only
      have hfreed : SinkOwns none m₁ s.asAlloc →
          m.Exchange (bencodeValueFree (some v) s.mem) 0 (optionBlock s.data) := by
        intro owns
        have hsound : ∀ w, some v = some w → w.Sound := by
          rintro w ⟨⟩
          exact sound
        exact root_freed hsound ((blocks.trans owns.blocks).congr (add_zero _) rfl)
      generalize bencodeValueFree (some v) s.mem = m₂ at hfreed ⊢
      generalize hsink : s.asAlloc = sink at hanswer
      cases hanswer with
      | nomem owns =>
          subst hsink
          exact ⟨_, if_pos (by simp), sink_freed owns (hfreed owns), fun h => by cases h⟩
      | unformatted long owns granted' =>
          subst hsink
          exact ⟨_, if_pos (by simp), sink_freed owns (hfreed owns), fun h => by cases h⟩
      | ok holds =>
          subst hsink
          have hcontents : s.contents = data := holds.contents.trans text.symm
          obtain ⟨r₂, hrun₂, hparsed₂⟩ := bencodeParse_parsed (fun _ => s.contents) 0 none rfl m₂
          obtain ⟨hsound₂, hblocks₂, -, -⟩ := hparsed₂.clean
          rw [if_neg (by simp), hrun₂]
          refine ⟨_, rfl, ?_, ?_⟩
          · apply sink_freed holds.toSinkOwns
            apply root_freed hsound₂
            have hboth := (hfreed holds.toSinkOwns).trans hblocks₂
            exact hboth.congr (add_zero _) (add_comm _ _)
          · intro htrapped
            have hbad : r₂.status ≠ .ok := of_decide_eq_true htrapped
            rw [hcontents] at hparsed₂
            rw [← text] at scan
            cases hparsed₂ with
            | accepted => exact absurd rfl hbad
            | trailing scan₂ strict more =>
                exact absurd (Prod.mk.inj (scan.unique scan₂).2).2.symm more
            | rejected scan₂ bad => exact absurd (Prod.mk.inj (scan.unique scan₂).2).1.symm bad
            | nomem blocks₂ refused =>
                have hle := (hfreed holds.toSinkOwns).refused
                dsimp only
                rw [free, bencodeFree_refused]
                exact hle.trans_lt refused

end Bencode
