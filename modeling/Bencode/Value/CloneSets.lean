import Bencode.Value.Clone

/-!
# The sets of a clone

A clone rebuilds each dict by setting its keys in order. Every such key is above the
keys that are there already, so the search ends behind all entries and nothing moves.
-/

namespace Bencode

mutual

/-- The dict and the key of every `bencode_dict_set` call that cloning a node makes. -/
def cloneSets (bufs : Buffers) : Value → AllocRef → Memory → List (Option Value × Span)
  | .int _ _, _, _ => []
  | .string _ _, _, _ => []
  | .list _ ⟨_, _, items⟩, alloc, m =>
      match bencodeListNew alloc m with
      | (.ok, list, m) => itemsCloneSets bufs items alloc list m
      | _ => []
  | .dict _ ⟨_, _, entries⟩, alloc, m =>
      match bencodeDictNew alloc m with
      | (.ok, dict, m) => entriesCloneSets bufs entries alloc dict m
      | _ => []

def itemsCloneSets (bufs : Buffers) :
    List Value → AllocRef → Option Value → Memory → List (Option Value × Span)
  | [], _, _, _ => []
  | v :: vs, alloc, list, m =>
      cloneSets bufs v alloc m ++
        match valueClone bufs v alloc m with
        | (.ok, child, m) =>
            match bencodeListAppend list child m with
            | (.ok, list, m) => itemsCloneSets bufs vs alloc list m
            | _ => []
        | _ => []

def entriesCloneSets (bufs : Buffers) :
    List (Entry Value) → AllocRef → Option Value → Memory → List (Option Value × Span)
  | [], _, _, _ => []
  | ⟨key, v⟩ :: es, alloc, dict, m =>
      cloneSets bufs v alloc m ++
        match valueClone bufs v alloc m with
        | (.ok, child, m) =>
            (dict, key.span) ::
              match bencodeDictSet dict key.span child m with
              | (.ok, dict, m) => entriesCloneSets bufs es alloc dict m
              | _ => []
        | _ => []

end

/-! ## A clone that keeps a log -/

abbrev SetLog := List (Option Value × Span)

/-- `bencode_dict_set`, with a note of the dict and the key. -/
def loggedSet (dict : Option Value) (key : Span) (child : Option Value) (m : Memory)
    (log : SetLog) : (Status × Option Value × Memory) × SetLog :=
  (bencodeDictSet dict key child m, log ++ [(dict, key)])

mutual

/-- The clone with every `bencode_dict_set` logged. -/
def loggedClone (bufs : Buffers) :
    Value → AllocRef → Memory → SetLog → (Status × Option Value × Memory) × SetLog
  | .int _ i, alloc, m, log => (bencodeIntNew i alloc m, log)
  | .string _ str, alloc, m, log => (bencodeStringNew (.mem (str.read bufs)) alloc m, log)
  | .list _ ⟨_, _, items⟩, alloc, m, log =>
      match bencodeAllocatorCheck alloc with
      | .ok =>
          match bencodeListNew alloc m with
          | (.ok, list, m) => loggedItems bufs items alloc list m log
          | (st, _, m) => ((st, none, m), log)
      | st => ((st, none, m), log)
  | .dict _ ⟨_, _, entries⟩, alloc, m, log =>
      match bencodeAllocatorCheck alloc with
      | .ok =>
          match bencodeDictNew alloc m with
          | (.ok, dict, m) => loggedEntries bufs entries alloc dict m log
          | (st, _, m) => ((st, none, m), log)
      | st => ((st, none, m), log)

def loggedItems (bufs : Buffers) : List Value → AllocRef → Option Value → Memory → SetLog →
    (Status × Option Value × Memory) × SetLog
  | [], _, list, m, log => ((.ok, list, m), log)
  | v :: vs, alloc, list, m, log =>
      match loggedClone bufs v alloc m log with
      | ((.ok, child, m), log) =>
          match bencodeListAppend list child m with
          | (.ok, list, m) => loggedItems bufs vs alloc list m log
          | (st, list, m) => ((st, none, bencodeValueFree list (bencodeValueFree child m)), log)
      | ((st, _, m), log) => ((st, none, bencodeValueFree list m), log)

def loggedEntries (bufs : Buffers) : List (Entry Value) → AllocRef → Option Value → Memory →
    SetLog → (Status × Option Value × Memory) × SetLog
  | [], _, dict, m, log => ((.ok, dict, m), log)
  | ⟨key, v⟩ :: es, alloc, dict, m, log =>
      match loggedClone bufs v alloc m log with
      | ((.ok, child, m), log) =>
          match loggedSet dict key.span child m log with
          | ((.ok, dict, m), log) => loggedEntries bufs es alloc dict m log
          | ((st, dict, m), log) =>
              ((st, none, bencodeValueFree dict (bencodeValueFree child m)), log)
      | ((st, _, m), log) => ((st, none, bencodeValueFree dict m), log)

end

section Logged

variable {bufs : Buffers} {a : AllocRef}

mutual

/-- Without its log the logged clone is the clone, and its log lists the calls. -/
theorem loggedClone_eq (checked : bencodeAllocatorCheck a = .ok) (v : Value) (m : Memory)
    (log : SetLog) :
    loggedClone bufs v a m log = (valueClone bufs v a m, log ++ cloneSets bufs v a m) := by
  cases v with
  | int h i => simp [loggedClone, valueClone, cloneSets]
  | string h str => simp [loggedClone, valueClone, cloneSets]
  | list h slots =>
      obtain ⟨block, capacity, items⟩ := slots
      simp only [loggedClone, valueClone, cloneSets, checked]
      obtain ⟨st, list, m₁⟩ := bencodeListNew a m
      cases st with
      | ok => exact loggedItems_eq checked items list m₁ log
      | _ => simp
  | dict h slots =>
      obtain ⟨block, capacity, entries⟩ := slots
      simp only [loggedClone, valueClone, cloneSets, checked]
      obtain ⟨st, dict, m₁⟩ := bencodeDictNew a m
      cases st with
      | ok => exact loggedEntries_eq checked entries dict m₁ log
      | _ => simp

theorem loggedItems_eq (checked : bencodeAllocatorCheck a = .ok) (vs : List Value)
    (list : Option Value) (m : Memory) (log : SetLog) :
    loggedItems bufs vs a list m log =
      (cloneItems bufs vs a list m, log ++ itemsCloneSets bufs vs a list m) := by
  cases vs with
  | nil => simp [loggedItems, cloneItems, itemsCloneSets]
  | cons v vs =>
      simp only [loggedItems, cloneItems, itemsCloneSets, loggedClone_eq checked v]
      obtain ⟨st, child, m₁⟩ := valueClone bufs v a m
      cases st with
      | ok =>
          dsimp only
          obtain ⟨st, list', m₂⟩ := bencodeListAppend list child m₁
          cases st with
          | ok =>
              dsimp only
              rw [loggedItems_eq checked vs list' m₂, List.append_assoc]
          | _ => simp
      | _ => simp

theorem loggedEntries_eq (checked : bencodeAllocatorCheck a = .ok) (es : List (Entry Value))
    (dict : Option Value) (m : Memory) (log : SetLog) :
    loggedEntries bufs es a dict m log =
      (cloneEntries bufs es a dict m, log ++ entriesCloneSets bufs es a dict m) := by
  cases es with
  | nil => simp [loggedEntries, cloneEntries, entriesCloneSets]
  | cons e es =>
      obtain ⟨key, v⟩ := e
      simp only [loggedEntries, cloneEntries, entriesCloneSets, loggedSet, loggedClone_eq checked v]
      obtain ⟨st, child, m₁⟩ := valueClone bufs v a m
      cases st with
      | ok =>
          dsimp only
          obtain ⟨st, dict', m₂⟩ := bencodeDictSet dict key.span child m₁
          cases st with
          | ok =>
              dsimp only
              rw [loggedEntries_eq checked es dict' m₂]
              simp
          | _ => simp
      | _ => simp

end

end Logged

/-! ## Where the sets go -/

/-- The search for the key ends behind all entries of the dict. -/
def SetsAtEnd (call : Option Value × Span) : Prop :=
  ∃ h s, call.1 = some (.dict h s) ∧ call.2.isBad = false ∧
    dictSearch s.items call.2 = .ok (s.items.length, false)

variable {bufs : Buffers} {a : AllocRef}

mutual

theorem cloneSets_atEnd (checked : bencodeAllocatorCheck a = .ok) (v : Value) (m : Memory)
    (canonical : (v.tree bufs).Canonical) : ∀ call ∈ cloneSets bufs v a m, SetsAtEnd call := by
  cases v with
  | int h i => exact fun call hcall => absurd hcall List.not_mem_nil
  | string h str => exact fun call hcall => absurd hcall List.not_mem_nil
  | list h slots =>
      obtain ⟨block, capacity, items⟩ := slots
      have hnew := bencodeListNew_built checked m
      rw [cloneSets]
      generalize bencodeListNew a m = r at hnew
      cases hnew with
      | nomem blocks refused => exact fun call hcall => absurd hcall List.not_mem_nil
      | ok sound content alloc blocks granted =>
          obtain ⟨h', rfl⟩ := content
          have hlive := blocks.came_live (Multiset.zero_le _)
          exact itemsCloneSets_atEnd checked items h' _ _ sound hlive canonical
  | dict h slots =>
      obtain ⟨block, capacity, entries⟩ := slots
      have hnew := bencodeDictNew_built checked m
      rw [cloneSets]
      generalize bencodeDictNew a m = r at hnew
      cases hnew with
      | nomem blocks refused => exact fun call hcall => absurd hcall List.not_mem_nil
      | ok sound content alloc blocks granted =>
          obtain ⟨h', rfl⟩ := content
          have hlive := blocks.came_live (Multiset.zero_le _)
          have hsorted := canonical.1
          rw [entryKeys_entryTrees] at hsorted
          exact entriesCloneSets_atEnd checked entries h' _ _ sound hlive hsorted canonical.2

theorem itemsCloneSets_atEnd (checked : bencodeAllocatorCheck a = .ok) (vs : List Value)
    (h : Header) (s : Slots Value) (m : Memory) (sound : (Value.list h s).Sound)
    (live : (Value.list h s).blocks ≤ m.live) (canonical : CanonicalItems (itemTrees bufs vs)) :
    ∀ call ∈ itemsCloneSets bufs vs a (some (.list h s)) m, SetsAtEnd call := by
  cases vs with
  | nil => exact fun call hcall => absurd hcall List.not_mem_nil
  | cons v vs =>
      have hchild : Built a (CloneOf bufs v) m (valueClone bufs v a m) :=
        valueClone_built checked v m
      rw [itemsCloneSets]
      rw [List.forall_mem_append]
      refine ⟨cloneSets_atEnd checked v m canonical.1, ?_⟩
      generalize valueClone bufs v a m = r at hchild
      cases hchild with
      | nomem blocks refused => exact fun call hcall => absurd hcall List.not_mem_nil
      | @ok child m₁ soundChild clone alloc built granted =>
          have hboth := built.still_live live
          have hlive := (Multiset.le_add_right _ _).trans hboth
          dsimp only
          generalize hrun : bencodeListAppend (some (.list h s)) (some child) m₁ = r
          obtain ⟨st, out, m₂⟩ := r
          cases (bencodeListAppend_appended sound soundChild hrun).attached sound hlive with
          | nomem blocks refused => exact fun call hcall => absurd hcall List.not_mem_nil
          | ok sound' header content handed granted' =>
              obtain ⟨s', rfl, hitems⟩ := content
              have hlive' := handed.came_live hboth
              exact itemsCloneSets_atEnd checked vs h s' m₂ sound' hlive' canonical.2

theorem entriesCloneSets_atEnd (checked : bencodeAllocatorCheck a = .ok) (es : List (Entry Value))
    (h : Header) (s : Slots (Entry Value)) (m : Memory) (sound : (Value.dict h s).Sound)
    (live : (Value.dict h s).blocks ≤ m.live)
    (sorted : (storedKeys s.items ++ storedKeys es).Pairwise (· < ·))
    (canonical : CanonicalEntries (entryTrees bufs es)) :
    ∀ call ∈ entriesCloneSets bufs es a (some (.dict h s)) m, SetsAtEnd call := by
  cases es with
  | nil => exact fun call hcall => absurd hcall List.not_mem_nil
  | cons e es =>
      obtain ⟨key, v⟩ := e
      have hkey : key.span.isBad = false := by cases key <;> rfl
      have hbytes : key.span.bytes = key.bytes := by cases key <;> rfl
      have hlast : ∀ l ∈ storedKeys s.items, l < key.bytes := fun l hl =>
        (List.pairwise_append.mp sorted).2.2 l hl _ (by simp [storedKeys])
      have hdict := (sound_dict_iff.mp sound).1
      have hchild : Built a (CloneOf bufs v) m (valueClone bufs v a m) :=
        valueClone_built checked v m
      rw [entriesCloneSets]
      rw [List.forall_mem_append]
      refine ⟨cloneSets_atEnd checked v m canonical.1, ?_⟩
      generalize valueClone bufs v a m = r at hchild
      cases hchild with
      | nomem blocks refused => exact fun call hcall => absurd hcall List.not_mem_nil
      | @ok child m₁ soundChild clone alloc built granted =>
          have hboth := built.still_live live
          have hlive := (Multiset.le_add_right _ _).trans hboth
          rw [List.forall_mem_cons]
          refine ⟨⟨h, s, rfl, hkey, dictSearch_last hkey hdict.sorted (hbytes ▸ hlast)⟩, ?_⟩
          generalize hrun : bencodeDictSet (some (.dict h s)) key.span (some child) m₁ = r
          obtain ⟨st, out, m₂⟩ := r
          have hset := bencodeDictSet_wasSet hdict hkey hrun
          rw [hbytes] at hset
          cases hset.attached sound soundChild hlive with
          | nomem blocks refused => exact fun call hcall => absurd hcall List.not_mem_nil
          | ok sound' header content handed granted' =>
              obtain ⟨s', rfl, hitems⟩ := content
              have hlive' := handed.came_live hboth
              obtain ⟨copy, hcopy, hitems⟩ := hitems hlast
              have hsorted : (storedKeys s'.items ++ storedKeys es).Pairwise (· < ·) := by
                simpa [hitems, storedKeys, hcopy] using sorted
              exact entriesCloneSets_atEnd checked es h s' m₂ sound' hlive' hsorted canonical.2

end

end Bencode
