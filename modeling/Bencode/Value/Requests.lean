import Bencode.Library.Requests
import Bencode.Value.Footprint
import Bencode.Value.Reports

/-!
# How many requests a tree takes

A node takes one request, a copied key or string one more unless it is empty, and an
array one each time it is grown. So the number depends on the tree only, and a builder
that is refused a request gives up there.
-/

namespace Bencode

open BlockLedger

/-! ## The requests of a tree -/

/-- A copy of some bytes takes one request, and none for no bytes. -/
def copyRequests (bytes : Bytes) : Nat := if bytes.length = 0 then 0 else 1

mutual

def Tree.requests (copies : Bool) : Tree → Nat
  | .int _ => 1
  | .string bytes => 1 + if copies then copyRequests bytes else 0
  | .list ts => 1 + (Doubling.growths firstCapacity ts.length + itemsRequests copies ts)
  | .dict es => 1 + (Doubling.growths firstCapacity es.length + entriesRequests copies es)

def itemsRequests (copies : Bool) : List Tree → Nat
  | [] => 0
  | t :: ts => t.requests copies + itemsRequests copies ts

def entriesRequests (copies : Bool) : List (Bytes × Tree) → Nat
  | [] => 0
  | (k, t) :: es => copyRequests k + t.requests copies + entriesRequests copies es

end

/-- A list of six numbers, whose array is grown twice, and a dict with a string under a key. -/
example : (Tree.list [.int 1, .int 2, .int 3, .int 4, .int 5,
    .dict [([97], .string [98])]]).requests true = 1 + 2 + 5 + (1 + 1 + (1 + 2)) := by decide

theorem itemsRequests_append (copies : Bool) (ts us : List Tree) :
    itemsRequests copies (ts ++ us) = itemsRequests copies ts + itemsRequests copies us := by
  induction ts with
  | nil => simp [itemsRequests]
  | cons t ts ih => simp [itemsRequests, ih, Nat.add_assoc]

theorem entriesRequests_append (copies : Bool) (es fs : List (Bytes × Tree)) :
    entriesRequests copies (es ++ fs) = entriesRequests copies es + entriesRequests copies fs := by
  induction es with
  | nil => simp [entriesRequests]
  | cons e es ih =>
      obtain ⟨k, t⟩ := e
      simp [entriesRequests, ih, Nat.add_assoc]

/-! ## Freeing -/

theorem bencodeFree_quiet (a : AllocRef) (ptr : Option MemBlock) (m : Memory) :
    Asked 0 m (bencodeFree a ptr m) := by
  cases ptr with
  | none => exact .refl m
  | some b => exact m.release_quiet _ b

mutual

theorem valueFree_quiet (v : Value) (m : Memory) : Asked 0 m (valueFree v m) := by
  cases v with
  | int h i =>
      rw [valueFree]
      exact bencodeFree_quiet _ _ m
  | string h str =>
      cases str with
      | literal =>
          rw [valueFree]
          · exact bencodeFree_quiet _ _ m
          · simp
      | borrowed ptr len =>
          rw [valueFree]
          · exact bencodeFree_quiet _ _ m
          · simp
      | owned b bytes =>
          rw [valueFree]
          exact (bencodeFree_quiet _ _ m).trans (bencodeFree_quiet _ _ _)
  | list h slots =>
      obtain ⟨block, capacity, items⟩ := slots
      have hitems := freeItems_quiet items m
      rw [valueFree]
      exact (hitems.trans (bencodeFree_quiet _ _ _)).trans (bencodeFree_quiet _ _ _)
  | dict h slots =>
      obtain ⟨block, capacity, entries⟩ := slots
      have hentries := freeEntries_quiet entries h.alloc m
      rw [valueFree]
      exact (hentries.trans (bencodeFree_quiet _ _ _)).trans (bencodeFree_quiet _ _ _)

theorem freeItems_quiet (vs : List Value) (m : Memory) : Asked 0 m (freeItems vs m) := by
  cases vs with
  | nil => exact .refl m
  | cons v vs => exact (valueFree_quiet v m).trans (freeItems_quiet vs _)

theorem freeEntries_quiet (es : List (Entry Value)) (a : AllocRef) (m : Memory) :
    Asked 0 m (freeEntries es a m) := by
  cases es with
  | nil => exact .refl m
  | cons e es =>
      obtain ⟨key, v⟩ := e
      have hkey := bencodeFree_quiet a key.block m
      exact (hkey.trans (valueFree_quiet v _)).trans (freeEntries_quiet es a _)

end

theorem bencodeValueFree_quiet (value : Option Value) (m : Memory) :
    Asked 0 m (bencodeValueFree value m) := by
  cases value with
  | none => exact .refl m
  | some v => exact valueFree_quiet v m

/-! ## Building nodes -/

section Builders

variable {a : AllocRef} {m m' : Memory}

theorem valueAlloc_asked {h : Header} (run : valueAlloc a m = (some h, m')) : Asked 1 m m' := by
  unfold valueAlloc at run
  split at run
  · cases run
  · next halloc =>
      cases run
      exact request_asked halloc

theorem valueAlloc_stopped (run : valueAlloc a m = (none, m')) : Stopped 1 m m' := by
  unfold valueAlloc at run
  split at run
  · next halloc =>
      cases run
      exact request_stopped halloc
  · cases run

theorem bencodeIntNew_costs (checked : bencodeAllocatorCheck a = .ok) (i : Int64) (m : Memory) :
    Costs 1 ((bencodeIntNew i a m).1 = .ok) m (bencodeIntNew i a m).2.2 := by
  unfold bencodeIntNew
  rw [checked]
  generalize halloc : valueAlloc a m = r
  obtain ⟨h, m₁⟩ := r
  cases h with
  | none => exact .ofStopped (valueAlloc_stopped halloc) (by simp)
  | some h => exact .ofAsked (valueAlloc_asked halloc)

theorem bencodeListNew_costs (checked : bencodeAllocatorCheck a = .ok) (m : Memory) :
    Costs 1 ((bencodeListNew a m).1 = .ok) m (bencodeListNew a m).2.2 := by
  unfold bencodeListNew
  rw [checked]
  generalize halloc : valueAlloc a m = r
  obtain ⟨h, m₁⟩ := r
  cases h with
  | none => exact .ofStopped (valueAlloc_stopped halloc) (by simp)
  | some h => exact .ofAsked (valueAlloc_asked halloc)

theorem bencodeDictNew_costs (checked : bencodeAllocatorCheck a = .ok) (m : Memory) :
    Costs 1 ((bencodeDictNew a m).1 = .ok) m (bencodeDictNew a m).2.2 := by
  unfold bencodeDictNew
  rw [checked]
  generalize halloc : valueAlloc a m = r
  obtain ⟨h, m₁⟩ := r
  cases h with
  | none => exact .ofStopped (valueAlloc_stopped halloc) (by simp)
  | some h => exact .ofAsked (valueAlloc_asked halloc)

theorem bencodeStringNewBorrowed_costs (a : AllocRef) (ptr : BufPtr) (len : Nat) (m : Memory) :
    Costs 1 ((bencodeStringNewBorrowed (some ptr) len a m).1 = .ok) m
      (bencodeStringNewBorrowed (some ptr) len a m).2.2 := by
  unfold bencodeStringNewBorrowed
  rw [if_neg (by simp)]
  generalize halloc : valueAlloc a m = r
  obtain ⟨h, m₁⟩ := r
  cases h with
  | none => exact .ofStopped (valueAlloc_stopped halloc) (by simp)
  | some h => exact .ofAsked (valueAlloc_asked halloc)

theorem bencodeStringNew_costs (checked : bencodeAllocatorCheck a = .ok) (bytes : Bytes)
    (m : Memory) :
    Costs (1 + copyRequests bytes) ((bencodeStringNew (.mem bytes) a m).1 = .ok) m
      (bencodeStringNew (.mem bytes) a m).2.2 := by
  have hvalid : (Span.mem bytes).isBad = false := rfl
  have hlen : (Span.mem bytes).len = bytes.length := rfl
  unfold bencodeStringNew
  rw [hvalid, checked, hlen, copyRequests]
  generalize halloc : valueAlloc a m = r
  obtain ⟨h, m₁⟩ := r
  cases h with
  | none =>
      exact .ofStopped ((valueAlloc_stopped halloc).mono (Nat.le_add_right _ _)) (by simp)
  | some h =>
      have hnode := valueAlloc_asked halloc
      by_cases hzero : bytes.length = 0
      · simp only [if_pos hzero, if_false, Bool.false_eq_true]
        exact .ofAsked hnode
      · simp only [if_neg hzero, if_false, Bool.false_eq_true]
        generalize hcopy : bencodeAlloc a bytes.length m₁ = r
        obtain ⟨b, m₂⟩ := r
        cases b with
        | none =>
            have hstopped := hnode.thenStopped (request_stopped hcopy)
            exact .ofStopped (hstopped.quiet (bencodeFree_quiet a (some h.self) m₂)) (by simp)
        | some b => exact .ofAsked (hnode.trans (request_asked hcopy))

end Builders

/-! ## Containers -/

section Grow

variable {α : Type}

theorem growArray_costs (a : AllocRef) (s : Slots α) (elementSize needed : Nat) (m : Memory) :
    Costs (if needed ≤ s.capacity then 0 else 1)
      ((growArray a s elementSize needed m).1 = .ok) m
      (growArray a s elementSize needed m).2.2 := by
  by_cases hroom : needed ≤ s.capacity
  · simp only [growArray, if_pos hroom]
    exact .ofAsked (.refl m)
  · simp only [growArray, if_neg hroom]
    split
    · exact .failed (.refl m) (by simp)
    · exact .failed m.misuse_quiet (by simp)
    · next newCap hnew =>
        split
        · exact .failed (.refl m) (by simp)
        · split
          · next halloc => exact .ofStopped (request_stopped halloc) (by simp)
          · next halloc =>
              have hasked := request_asked halloc
              split
              · exact .ofAsked (hasked.quiet (bencodeFree_quiet _ _ _))
              · exact .ofAsked hasked

theorem growArray_costs_tight {a : AllocRef} {s : Slots α} {elementSize : Nat}
    (sound : s.Sound a elementSize) (helem : 2 ≤ elementSize) (tight : s.Tight) (m : Memory) :
    Costs (Doubling.growth firstCapacity s.items.length)
      ((growArray a s elementSize ((s.items.length + 1) % sizeMod) m).1 = .ok) m
      (growArray a s elementSize ((s.items.length + 1) % sizeMod) m).2.2 := by
  rw [sound.count_mod helem, Doubling.growth, ← tight]
  exact growArray_costs a s elementSize _ m

theorem Slots.write_quiet (s : Slots α) (i : Nat) (x : α) (m : Memory) :
    Asked 0 m (s.write i x m).2 := by
  unfold write
  split
  · exact .refl m
  · exact m.misuse_quiet

end Grow

section Calls

variable {h : Header} {child : Value} {m : Memory}

theorem bencodeListAppend_costs {s : Slots Value} (sound : s.Sound h.alloc sizeofPointer)
    (tight : s.Tight) :
    Costs (Doubling.growth firstCapacity s.items.length)
      ((bencodeListAppend (some (.list h s)) (some child) m).1 = .ok) m
      (bencodeListAppend (some (.list h s)) (some child) m).2.2 := by
  have hcosts := growArray_costs_tight sound (by decide) tight m
  rw [bencodeListAppend]
  generalize growArray h.alloc s sizeofPointer ((s.items.length + 1) % sizeMod) m = r at hcosts
  obtain ⟨st, s₁, m₁⟩ := r
  cases st with
  | ok => exact hcosts.quiet (s₁.write_quiet _ _ m₁)
  | _ => exact hcosts

theorem copyKey_asked {a : AllocRef} {key : Span} {copy : KeyCopy} {m' : Memory}
    (hkey : key.isBad = false) (run : copyKey a key m = (some copy, m')) :
    Asked (copyRequests key.bytes) m m' := by
  have hlen := Span.length_bytes hkey
  unfold copyKey at run
  rw [copyRequests]
  split at run
  · next hpos =>
      rw [if_neg (by omega)]
      split at run
      · cases run
      · next halloc =>
          cases run
          exact request_asked halloc
  · cases run
    rw [if_pos (by omega)]
    exact .refl m

theorem copyKey_stopped {a : AllocRef} {key : Span} {m' : Memory} (hkey : key.isBad = false)
    (run : copyKey a key m = (none, m')) : Stopped (copyRequests key.bytes) m m' := by
  have hlen := Span.length_bytes hkey
  unfold copyKey at run
  rw [copyRequests]
  split at run
  · next hpos =>
      rw [if_neg (by omega)]
      split at run
      · next halloc =>
          cases run
          exact request_stopped halloc
      · cases run
  · cases run

theorem bencodeDictSet_costs {s : Slots (Entry Value)} {key : Span} (sound : DictSound h s)
    (tight : s.Tight) (hkey : key.isBad = false)
    (last : ∀ l ∈ storedKeys s.items, l < key.bytes) :
    Costs (copyRequests key.bytes + Doubling.growth firstCapacity s.items.length)
      ((bencodeDictSet (some (.dict h s)) key (some child) m).1 = .ok) m
      (bencodeDictSet (some (.dict h s)) key (some child) m).2.2 := by
  have hsearch := dictSearch_last hkey sound.sorted last
  simp only [bencodeDictSet, hkey, Bool.false_eq_true, if_false, hsearch]
  generalize hcopy : copyKey h.alloc key m = r
  obtain ⟨copy, m₁⟩ := r
  cases copy with
  | none =>
      exact .ofStopped ((copyKey_stopped hkey hcopy).mono (Nat.le_add_right _ _)) (by simp)
  | some copy =>
      have hcopied := copyKey_asked hkey hcopy
      have hcosts := growArray_costs_tight sound.slots (by decide) tight m₁
      dsimp only
      generalize growArray h.alloc s sizeofEntry ((s.items.length + 1) % sizeMod) m₁ = r
        at hcosts
      obtain ⟨st, s₁, m₂⟩ := r
      have hboth := (Costs.ofAsked (p := True) hcopied).andThen trivial hcosts
      cases st with
      | ok =>
          simp only [Nat.lt_irrefl, if_false]
          exact (hboth.quiet (s₁.write_quiet _ _ m₂)).weaken fun _ => rfl
      | _ => exact hboth.quiet (bencodeFree_quiet _ _ m₂)

end Calls

/-! ## Clones -/

section Clones

variable {bufs : Buffers} {a : AllocRef}

/-- The requests of a loop that fills an array, after its first round. -/
theorem growths_next {n c j k l : Nat}
    (total : Doubling.growths firstCapacity n + k =
      c + l + Doubling.growths firstCapacity (n + (j + 1))) :
    c + Doubling.growth firstCapacity n ≤ k ∧
      Doubling.growths firstCapacity (n + 1) + (k - (c + Doubling.growth firstCapacity n)) =
        l + Doubling.growths firstCapacity (n + 1 + j) := by
  have hpos : 0 < firstCapacity := by decide
  have hstep := Doubling.growths_succ hpos n
  have hmono : Doubling.growths firstCapacity (n + 1) ≤
      Doubling.growths firstCapacity (n + 1 + j) :=
    Doubling.growths_mono hpos (Nat.le_add_right _ _)
  rw [Nat.add_comm j, ← Nat.add_assoc n] at total
  omega

mutual

/-- Cloning makes the requests of the tree, copies of its strings included. -/
theorem valueClone_costs (checked : bencodeAllocatorCheck a = .ok) (v : Value) (m : Memory)
    (canonical : (v.tree bufs).Canonical) :
    Costs ((v.tree bufs).requests true) ((valueClone bufs v a m).1 = .ok) m
      (valueClone bufs v a m).2.2 := by
  cases v with
  | int h i => exact bencodeIntNew_costs checked i m
  | string h str => exact bencodeStringNew_costs checked (str.read bufs) m
  | list h slots =>
      obtain ⟨block, capacity, items⟩ := slots
      have hnew := bencodeListNew_built checked m
      have hnode := bencodeListNew_costs checked m
      rw [valueClone, checked, Value.tree, Tree.requests, length_itemTrees]
      generalize bencodeListNew a m = r at hnew hnode
      cases hnew with
      | nomem blocks refused =>
          exact hnode.givenUp (.refl _) (Nat.le_add_right _ _) (by simp)
      | @ok v' m₁ sound content alloc blocks granted =>
          obtain ⟨h', rfl⟩ := content
          refine hnode.andThen rfl (cloneItems_costs checked items sound rfl m₁ canonical ?_)
          simp only [List.length_nil, Nat.zero_add, Doubling.growths, if_true]
          exact Nat.add_comm _ _
  | dict h slots =>
      obtain ⟨block, capacity, entries⟩ := slots
      have hnew := bencodeDictNew_built checked m
      have hnode := bencodeDictNew_costs checked m
      have hsorted := canonical.1
      rw [entryKeys_entryTrees] at hsorted
      rw [valueClone, checked, Value.tree, Tree.requests, length_entryTrees]
      generalize bencodeDictNew a m = r at hnew hnode
      cases hnew with
      | nomem blocks refused =>
          exact hnode.givenUp (.refl _) (Nat.le_add_right _ _) (by simp)
      | @ok v' m₁ sound content alloc blocks granted =>
          obtain ⟨h', rfl⟩ := content
          refine hnode.andThen rfl (cloneEntries_costs checked entries
            (sound_dict_iff.mp sound).1 rfl m₁ hsorted canonical.2 ?_)
          simp only [List.length_nil, Nat.zero_add, Doubling.growths, if_true]
          exact Nat.add_comm _ _
termination_by structural v

theorem cloneItems_costs (checked : bencodeAllocatorCheck a = .ok) (vs : List Value) {h : Header}
    {s : Slots Value} (sound : (Value.list h s).Sound) (tight : s.Tight) (m : Memory)
    (canonical : CanonicalItems (itemTrees bufs vs)) {k : Nat}
    (total : Doubling.growths firstCapacity s.items.length + k =
      itemsRequests true (itemTrees bufs vs) +
        Doubling.growths firstCapacity (s.items.length + vs.length)) :
    Costs k ((cloneItems bufs vs a (some (.list h s)) m).1 = .ok) m
      (cloneItems bufs vs a (some (.list h s)) m).2.2 := by
  cases vs with
  | nil =>
      simp only [itemTrees, itemsRequests, List.length_nil, Nat.add_zero] at total
      obtain rfl : k = 0 := by omega
      exact .ofAsked (.refl m)
  | cons v vs =>
      have hchild := @valueClone_built bufs a checked v m
      have hcosts := valueClone_costs checked v m canonical.1
      obtain ⟨hle, hrest⟩ := growths_next total
      rw [cloneItems]
      generalize valueClone bufs v a m = r at hchild hcosts
      cases hchild with
      | nomem blocks refused =>
          dsimp only
          exact hcosts.givenUp (bencodeValueFree_quiet _ _) (by omega) (by simp)
      | @ok child m₁ soundChild clone alloc built granted =>
          have happends := @bencodeListAppend_costs h child m₁ s (listSlots_sound sound) tight
          dsimp only
          generalize hrun : bencodeListAppend (some (.list h s)) (some child) m₁ = r at happends
          obtain ⟨st, out, m₂⟩ := r
          have hboth := hcosts.andThen rfl happends
          cases bencodeListAppend_appended sound soundChild hrun with
          | nomem blocks reason =>
              dsimp only
              exact hboth.givenUp ((bencodeValueFree_quiet _ _).trans
                (bencodeValueFree_quiet _ _)) hle (by simp)
          | @ok s' _ sound' items blocks =>
              have hlen : s'.items.length = s.items.length + 1 := by simp [items]
              have tight' : s'.Tight := by
                rw [Slots.Tight, hlen]
                exact bencodeListAppend_capacity (listSlots_sound sound) tight hrun
              rw [← hlen] at hrest
              have htail := cloneItems_costs checked vs sound' tight' m₂ canonical.2 hrest
              exact (hboth.andThen rfl htail).congr (Nat.add_sub_cancel' hle)
termination_by structural vs

theorem cloneEntries_costs (checked : bencodeAllocatorCheck a = .ok) (es : List (Entry Value))
    {h : Header} {s : Slots (Entry Value)} (sound : DictSound h s) (tight : s.Tight) (m : Memory)
    (sorted : (storedKeys s.items ++ storedKeys es).Pairwise (· < ·))
    (canonical : CanonicalEntries (entryTrees bufs es)) {k : Nat}
    (total : Doubling.growths firstCapacity s.items.length + k =
      entriesRequests true (entryTrees bufs es) +
        Doubling.growths firstCapacity (s.items.length + es.length)) :
    Costs k ((cloneEntries bufs es a (some (.dict h s)) m).1 = .ok) m
      (cloneEntries bufs es a (some (.dict h s)) m).2.2 := by
  cases es with
  | nil =>
      simp only [entryTrees, entriesRequests, List.length_nil, Nat.add_zero] at total
      obtain rfl : k = 0 := by omega
      exact .ofAsked (.refl m)
  | cons e es =>
      obtain ⟨key, v⟩ := e
      have hkey : key.span.isBad = false := by cases key <;> rfl
      have hbytes : key.span.bytes = key.bytes := by cases key <;> rfl
      have hlast : ∀ l ∈ storedKeys s.items, l < key.bytes := fun l hl =>
        (List.pairwise_append.mp sorted).2.2 l hl _ (by simp [storedKeys])
      have hchild := @valueClone_built bufs a checked v m
      have hcosts := valueClone_costs checked v m canonical.1
      obtain ⟨hle, hrest⟩ := growths_next total
      rw [cloneEntries]
      generalize valueClone bufs v a m = r at hchild hcosts
      cases hchild with
      | nomem blocks refused =>
          dsimp only
          exact hcosts.givenUp (bencodeValueFree_quiet _ _) (by omega) (by simp)
      | @ok child m₁ soundChild clone alloc built granted =>
          have hsets := @bencodeDictSet_costs h child m₁ s key.span sound tight hkey
            (hbytes ▸ hlast)
          rw [hbytes] at hsets
          dsimp only
          generalize hrun : bencodeDictSet (some (.dict h s)) key.span (some child) m₁ = r
            at hsets
          obtain ⟨st, out, m₂⟩ := r
          have hboth := (hcosts.andThen rfl hsets).congr (Nat.add_left_comm _ _ _)
          have hset := bencodeDictSet_wasSet sound hkey hrun
          rw [hbytes] at hset
          cases hset with
          | nomem blocks reason =>
              dsimp only
              exact hboth.givenUp ((bencodeValueFree_quiet _ _).trans
                (bencodeValueFree_quiet _ _)) (by omega) (by simp)
          | replaced e at_ eq =>
              have hmem : key.bytes ∈ storedKeys s.items :=
                List.mem_map.mpr ⟨e, List.mem_of_getElem? at_, eq⟩
              exact absurd (hlast _ hmem) (lt_irrefl _)
          | @inserted i copy s' _ le below above hcopy copied items sound' blocks =>
              have hend := insert_index le above hlast
              rw [hend, List.take_length, List.drop_length] at items
              have hlen : s'.items.length = s.items.length + 1 := by simp [items]
              have tight' : s'.Tight := by
                rw [Slots.Tight, hlen]
                exact (bencodeDictSet_capacity sound.slots tight hrun).resolve_left (by omega)
              have hsorted : (storedKeys s'.items ++ storedKeys es).Pairwise (· < ·) := by
                simpa [items, storedKeys, hcopy] using sorted
              rw [← hlen] at hrest
              have htail := cloneEntries_costs checked es sound' tight' m₂ hsorted canonical.2
                hrest
              exact (hboth.andThen rfl htail).congr (by omega)
termination_by structural es

end

end Clones

end Bencode
