import Bencode.Spec.Stops

/-!
# What the scanner has read is the beginning of a canonical encoding

The stack of a configuration determines the bytes read and the events emitted so
far. Every run keeps the open containers canonical and within the depth limit.
-/

namespace Bencode

open LabelledMachine

variable {limit : Nat}

/-! ## Encodings and events of open containers -/

namespace OpenScope

def encode : OpenScope → Bytes
  | list done => 'l'.toUInt8 :: encodeItems done
  | dict done none => 'd'.toUInt8 :: encodeEntries done
  | dict done (some k) => 'd'.toUInt8 :: (encodeEntries done ++ encodeString k)

def events : OpenScope → Nat → List Event
  | list done, pos => .listBegin :: itemsEvents done (pos + 1)
  | dict done none, pos => .dictBegin :: entriesEvents done (pos + 1)
  | dict done (some k), pos =>
      .dictBegin :: (entriesEvents done (pos + 1) ++
        [Bencode.stringEvent (pos + 1 + (encodeEntries done).length) k])

def nesting : OpenScope → Nat
  | list done => itemsNesting done
  | dict done _ => entriesNesting done

def Canonical : OpenScope → Prop
  | list done => CanonicalItems done
  | dict done key => (entryKeys done ++ key.toList).Pairwise (· < ·) ∧ CanonicalEntries done

end OpenScope

def openEncode : List OpenScope → Bytes
  | [] => []
  | o :: below => openEncode below ++ o.encode

def openEvents : List OpenScope → List Event
  | [] => []
  | o :: below => openEvents below ++ o.events (openEncode below).length

/-- Open containers that a run can reach: each below the innermost waits for a value. -/
def WellOpen (limit : Nat) : List OpenScope → Prop
  | [] => True
  | o :: below =>
      o.Canonical ∧ below.length + 1 + o.nesting ≤ limit ∧ Awaits below ∧ WellOpen limit below

/-! ## Putting a tree in place -/

def consumedBy : List OpenScope × Option Tree → Bytes
  | (stack, none) => openEncode stack
  | (_, some t) => t.encode

def toldBy : List OpenScope × Option Tree → List Event
  | (stack, none) => openEvents stack
  | (_, some t) => t.events 0

def WellRead (limit : Nat) : List OpenScope × Option Tree → Prop
  | (stack, none) => WellOpen limit stack
  | (stack, some t) => stack = [] ∧ t.Canonical ∧ t.nesting ≤ limit

theorem consumedBy_settle {stack : List OpenScope} (await : Awaits stack) (t : Tree) :
    consumedBy (settle stack t) = openEncode stack ++ t.encode := by
  cases stack with
  | nil => rfl
  | cons o below =>
      cases o with
      | list done => simp [settle, consumedBy, openEncode, OpenScope.encode, encodeItems]
      | dict done key =>
          cases key with
          | none => exact await.elim
          | some k => simp [settle, consumedBy, openEncode, OpenScope.encode, encodeEntries]

theorem toldBy_settle {stack : List OpenScope} (await : Awaits stack) (t : Tree) :
    toldBy (settle stack t) = openEvents stack ++ t.events (openEncode stack).length := by
  cases stack with
  | nil => rfl
  | cons o below =>
      cases o with
      | list done =>
          simp [settle, toldBy, openEvents, openEncode, OpenScope.events, OpenScope.encode,
            itemsEvents_append, itemsEvents, Nat.add_assoc, Nat.add_comm 1]
      | dict done key =>
          cases key with
          | none => exact await.elim
          | some k =>
              simp [settle, toldBy, openEvents, openEncode, OpenScope.events, OpenScope.encode,
                entriesEvents_append, entriesEvents, Nat.add_assoc, Nat.add_comm 1]

theorem wellRead_settle {stack : List OpenScope} {t : Tree} (h : WellOpen limit stack)
    (await : Awaits stack) (canonical : t.Canonical) (nesting : stack.length + t.nesting ≤ limit) :
    WellRead limit (settle stack t) := by
  cases stack with
  | nil => exact ⟨rfl, canonical, by simpa using nesting⟩
  | cons o below =>
      obtain ⟨ho, hnest, hawait, hbelow⟩ := h
      rw [List.length_cons] at nesting
      cases o with
      | list done =>
          refine ⟨?_, ?_, hawait, hbelow⟩
          · exact (canonicalItems_append done [t]).mpr ⟨ho, canonical, trivial⟩
          · simp only [OpenScope.nesting, itemsNesting_append, itemsNesting] at hnest ⊢
            omega
      | dict done key =>
          cases key with
          | none => exact await.elim
          | some k =>
              obtain ⟨hkeys, hdone⟩ := ho
              refine ⟨⟨?_, ?_⟩, ?_, hawait, hbelow⟩
              · simpa [entryKeys] using hkeys
              · exact (canonicalEntries_append done [(k, t)]).mpr ⟨hdone, canonical, trivial⟩
              · simp only [OpenScope.nesting, entriesNesting_append, entriesNesting] at hnest ⊢
                omega

theorem length_settle (stack : List OpenScope) (t : Tree) :
    (settle stack t).1.length = stack.length := by
  cases stack with
  | nil => rfl
  | cons o below =>
      cases o with
      | list done => rfl
      | dict done key => cases key <;> rfl

/-! ## Keys in order -/

theorem keyOrder_eq_ok {last : Option Bytes} {k : Bytes} :
    keyOrder last k = .ok ↔ ∀ l ∈ last, l < k := by
  cases last with
  | none => simp [keyOrder]
  | some l =>
      simp only [keyOrder, Option.mem_some_iff, forall_eq']
      constructor
      · intro h
        split at h
        · cases h
        · next hne =>
            split at h
            · cases h
            · next hle => exact lt_of_le_of_ne (not_lt.mp hle) hne
      · intro h
        rw [if_neg h.ne, if_neg h.not_gt]

/-- Comparing with the last key is comparing with all of them. -/
theorem sorted_append_key {done : List (Bytes × Tree)} {k : Bytes}
    (sorted : (entryKeys done).Pairwise (· < ·)) :
    (entryKeys done ++ [k]).Pairwise (· < ·) ↔ keyOrder (lastKey done) k = .ok := by
  rw [keyOrder_eq_ok, List.pairwise_append]
  simp only [sorted, List.pairwise_singleton, List.mem_singleton, forall_eq, true_and]
  cases done using List.reverseRecOn with
  | nil => simp [entryKeys, lastKey]
  | append_singleton done e =>
      have hlast : lastKey (done ++ [e]) = some e.1 := by simp [lastKey]
      simp only [entryKeys, List.map_append, List.map_cons, List.map_nil, hlast] at sorted ⊢
      constructor
      · intro h l hl
        cases hl
        exact h e.1 (by simp)
      · intro h a ha
        rcases List.mem_append.mp ha with ha | ha
        · exact ((List.pairwise_append.mp sorted).2.2 a ha e.1 (by simp)).trans (h e.1 rfl)
        · rw [List.mem_singleton.mp ha]
          exact h e.1 rfl

/-! ## One token -/

section Token

variable {stack : List OpenScope} {pos : Nat} {tok : Bytes} {e : Event}
  {next : List OpenScope × Option Tree}

theorem Reads.consumed (h : Reads limit stack pos tok e next) (hwell : WellOpen limit stack) :
    consumedBy next = openEncode stack ++ tok := by
  cases h with
  | int await i => exact consumedBy_settle await _
  | string await bytes => exact consumedBy_settle await _
  | listBegin => rfl
  | dictBegin => rfl
  | key done below k => simp [consumedBy, openEncode, OpenScope.encode]
  | listEnd done below =>
      rw [consumedBy_settle hwell.2.2.1]
      simp [openEncode, OpenScope.encode, Tree.encode]
  | dictEnd done below =>
      rw [consumedBy_settle hwell.2.2.1]
      simp [openEncode, OpenScope.encode, Tree.encode]

theorem Reads.told (h : Reads limit stack pos tok e next) (hwell : WellOpen limit stack)
    (hpos : pos = (openEncode stack).length) : toldBy next = openEvents stack ++ [e] := by
  subst hpos
  cases h with
  | int await i => exact toldBy_settle await _
  | string await bytes => exact toldBy_settle await _
  | listBegin => rfl
  | dictBegin => rfl
  | key done below k =>
      simp [toldBy, openEvents, openEncode, OpenScope.events, OpenScope.encode, Nat.add_assoc,
        Nat.add_comm 1]
  | listEnd done below =>
      rw [toldBy_settle hwell.2.2.1]
      simp [openEvents, OpenScope.events, Tree.events]
  | dictEnd done below =>
      rw [toldBy_settle hwell.2.2.1]
      simp [openEvents, OpenScope.events, Tree.events]

theorem Reads.wellRead (h : Reads limit stack pos tok e next) (hwell : WellOpen limit stack)
    (hroom : stack.length ≤ limit) : WellRead limit next := by
  cases h with
  | int await i => exact wellRead_settle hwell await trivial hroom
  | string await bytes => exact wellRead_settle hwell await trivial hroom
  | listBegin await room => exact ⟨trivial, room, await, hwell⟩
  | dictBegin await room => exact ⟨⟨.nil, trivial⟩, room, await, hwell⟩
  | key done below k order =>
      obtain ⟨⟨hkeys, hdone⟩, hnest, hawait, hbelow⟩ := hwell
      rw [Option.toList_none, List.append_nil] at hkeys
      exact ⟨⟨(sorted_append_key hkeys).mpr order, hdone⟩, hnest, hawait, hbelow⟩
  | listEnd done below =>
      obtain ⟨hdone, hnest, hawait, hbelow⟩ := hwell
      refine wellRead_settle hbelow hawait hdone ?_
      simp only [OpenScope.nesting, Tree.nesting] at hnest ⊢
      omega
  | dictEnd done below =>
      obtain ⟨⟨hkeys, hdone⟩, hnest, hawait, hbelow⟩ := hwell
      rw [Option.toList_none, List.append_nil] at hkeys
      refine wellRead_settle hbelow hawait ⟨hkeys, hdone⟩ ?_
      simp only [OpenScope.nesting, Tree.nesting] at hnest ⊢
      omega

end Token

theorem WellOpen.length_le {stack : List OpenScope} (h : WellOpen limit stack) :
    stack.length ≤ limit := by
  cases stack with
  | nil => exact Nat.zero_le _
  | cons o below =>
      obtain ⟨-, hnest, -⟩ := h
      rw [List.length_cons]
      omega

/-! ## Whole runs -/

/-- The invariant of a run on `input` that has emitted `hist`. -/
structure Sound (limit : Nat) (input : Bytes) (hist : List Event) (c : Config) : Prop where
  consumed : input = consumedBy (c.stack, c.result) ++ c.rest
  pos : c.pos = (consumedBy (c.stack, c.result)).length
  told : hist = toldBy (c.stack, c.result)
  well : WellRead limit (c.stack, c.result)

theorem Sound.step {input : Bytes} {hist : List Event} {c d : Config} {e : Event}
    (h : Sound limit input hist c) (hstep : scanStep limit c = .emit e d) :
    Sound limit input (hist ++ [e]) d := by
  obtain ⟨hopen, tok, rest, next, hr, hreads, rfl⟩ := scanStep_emit hstep
  obtain ⟨hconsumed, hpos, htold, hwell⟩ := h
  rw [hopen] at hconsumed hpos htold hwell
  have hnext := hreads.consumed hwell
  have hmid : consumedBy (c.stack, none) = openEncode c.stack := rfl
  rw [hmid] at hpos hconsumed
  refine ⟨?_, ?_, ?_, hreads.wellRead hwell hwell.length_le⟩
  · show input = consumedBy next ++ rest
    rw [hnext, List.append_assoc, ← hr]
    exact hconsumed
  · show c.pos + tok.length = (consumedBy next).length
    rw [hnext, List.length_append, hpos]
  · show hist ++ [e] = toldBy next
    rw [hreads.told hwell hpos, htold]
    rfl

theorem Sound.of_reaches {input : Bytes} {es : List Event} {c : Config}
    (run : Reaches (scanStep limit) (.start input) es c) : Sound limit input es c :=
  run.invariant (P := Sound limit input) ⟨rfl, rfl, rfl, trivial⟩ fun h hstep => h.step hstep

/-- An accepted input begins with the encoding of a canonical tree, and its events are told. -/
theorem Scans.sound {input : Bytes} {es : List Event} {off : Nat}
    (h : Scans limit input es .ok off) :
    ∃ (t : Tree) (rest : Bytes), input = t.encode ++ rest ∧ off = t.encode.length ∧
      es = t.events 0 ∧ t.Canonical ∧ t.nesting ≤ limit := by
  obtain ⟨d, hrun, hstop⟩ := h
  obtain ⟨hconsumed, hpos, htold, hwell⟩ := Sound.of_reaches hrun
  obtain ⟨t, ht, hoff⟩ := scanStep_stop_ok hstop
  rw [ht] at hconsumed hpos htold hwell
  exact ⟨t, d.rest, hconsumed, hoff.trans hpos, htold, hwell.2⟩

end Bencode
