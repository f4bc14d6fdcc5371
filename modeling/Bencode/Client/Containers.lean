import Bencode.Value.Clean
import Bencode.Value.Search

/-!
# A list and a dict that grow

Runs of `bencode_list_append` on a list and of `bencode_dict_set` on a dict, slot by
slot. The calls do to the slots what they do to the nodes of the tree, and after any run
both arrays are filled up to their count.
-/

namespace Bencode

open Cells

/-! ## One call -/

inductive AppendedTo (c : Cells Value) (child : Option Value) : Status → Cells Value → Prop
  | ok {v : Value} {c' : Cells Value} (given : child = some v) (count : c'.count = c.count + 1)
      (room : c.count < c'.capacity) (new : c'.read c.count = some v)
      (kept : ∀ i, i < c.count → c'.read i = c.read i) : AppendedTo c child .ok c'
  | failed {st : Status} (bad : st ≠ .ok) : AppendedTo c child st c

/-- What setting the key `k` does to the slots: one value replaced, or one entry put in with those
from there on moved up by one, or nothing. -/
inductive SetIn (c : Cells (Entry Value)) (k : Bytes) (child : Option Value) :
    Status → Cells (Entry Value) → Prop
  | replaced {v : Value} {c' : Cells (Entry Value)} {i : Nat} {e : Entry Value}
      (given : child = some v) (inside : i < c.count) (at_ : c.read i = some e)
      (eq : e.key.bytes = k) (count : c'.count = c.count) (room : i < c'.capacity)
      (new : c'.read i = some ⟨e.key, v⟩) (kept : ∀ j, j < c.count → j ≠ i → c'.read j = c.read j) :
      SetIn c k child .ok c'
  | inserted {v : Value} {c' : Cells (Entry Value)} {i : Nat} {copy : KeyCopy}
      (given : child = some v) (le : i ≤ c.count) (key : copy.bytes = k)
      (count : c'.count = c.count + 1) (room : c.count < c'.capacity)
      (new : c'.read i = some ⟨copy, v⟩) (kept : ∀ j, j < i → c'.read j = c.read j)
      (moved : ∀ j, i ≤ j → j < c.count → c'.read (j + 1) = c.read j) : SetIn c k child .ok c'
  | failed {st : Status} (bad : st ≠ .ok) : SetIn c k child st c

theorem Cells.Holds.kept {α : Type} {c c₁ : Cells α} {s s₁ : Slots α} (hc : c.Holds s)
    (grown : c₁.Holds s₁) (items : s₁.items = s.items) :
    c₁.count = c.count ∧ ∀ i, i < c.count → c₁.read i = c.read i := by
  have hcount : c₁.count = c.count := by rw [grown.count, items, ← hc.count]
  refine ⟨hcount, fun i hi => ?_⟩
  rw [grown.stored i (hcount ▸ hi), items, hc.stored i hi]

theorem AppendedTo.written {c c₁ c₂ : Cells Value} {s s₁ : Slots Value} {v : Value}
    (hc : c.Holds s) (grown : c₁.Holds s₁) (items : s₁.items = s.items)
    (room : s.items.length < s₁.capacity) (hwrite : c₁.write c₁.count v = some c₂) :
    AppendedTo c (some v) .ok { c₂ with count := c₁.count + 1 } := by
  obtain ⟨hcount, hkept⟩ := hc.kept grown items
  obtain ⟨-, hcapacity, -⟩ := write_room hwrite
  refine .ok rfl ?_ ?_ ?_ ?_
  · show c₁.count + 1 = c.count + 1
    rw [hcount]
  · show c.count < c₂.capacity
    rw [hcapacity, grown.capacity, hc.count]
    exact room
  · show c₂.read c.count = some v
    rw [read_write hwrite, if_pos hcount.symm]
  · intro i hi
    show c₂.read i = c.read i
    rw [read_write hwrite, if_neg (by omega), hkept i hi]

theorem SetIn.overwritten {c c' : Cells (Entry Value)} {s : Slots (Entry Value)} {i : Nat}
    {e : Entry Value} {v : Value} {k : Bytes} (hc : c.Holds s) (at_ : s.items[i]? = some e)
    (eq : e.key.bytes = k) (full : s.items.length ≤ s.capacity)
    (hwrite : c.write i ⟨e.key, v⟩ = some c') : SetIn c k (some v) .ok c' := by
  have hi : i < s.items.length := (List.getElem?_eq_some_iff.mp at_).1
  have hread : c.read i = some e := (hc.stored i (hc.count ▸ hi)).trans at_
  obtain ⟨-, hcapacity, hcount, -⟩ := write_room hwrite
  refine .replaced rfl (hc.count ▸ hi) hread eq hcount ?_ ?_ ?_
  · rw [hcapacity, hc.capacity]
    exact hi.trans_le full
  · rw [read_write hwrite, if_pos rfl]
  · intro j hj hne
    rw [read_write hwrite, if_neg hne]

theorem SetIn.put {c c₁ c₂ : Cells (Entry Value)} {s s₁ : Slots (Entry Value)} {i : Nat}
    {copy : KeyCopy} {v : Value} {k : Bytes} (hc : c.Holds s) (grown : c₁.Holds s₁)
    (items : s₁.items = s.items) (room : s.items.length < c₂.capacity) (le : i ≤ s.items.length)
    (key : copy.bytes = k)
    (hread : ∀ j, j ≤ c₁.count → c₂.read j =
      if j < i then c₁.read j else if j = i then some ⟨copy, v⟩ else c₁.read (j - 1)) :
    SetIn c k (some v) .ok { c₂ with count := c₁.count + 1 } := by
  obtain ⟨hcount, hkept⟩ := hc.kept grown items
  have hi : i ≤ c.count := hc.count ▸ le
  refine .inserted rfl hi key ?_ ?_ ?_ ?_ ?_
  · show c₁.count + 1 = c.count + 1
    rw [hcount]
  · show c.count < c₂.capacity
    rw [hc.count]
    exact room
  · show c₂.read i = some ⟨copy, v⟩
    rw [hread i (by omega), if_neg (Nat.lt_irrefl i), if_pos rfl]
  · intro j hj
    show c₂.read j = c.read j
    rw [hread j (by omega), if_pos hj, hkept j (by omega)]
  · intro j hj hlt
    show c₂.read (j + 1) = c.read j
    rw [hread (j + 1) (by omega), if_neg (by omega), if_neg (by omega), Nat.add_sub_cancel,
      hkept j hlt]

theorem bencodeListAppend_cells {h : Header} {c : Cells Value} {s : Slots Value} (hh : h.Sound)
    (hc : c.Holds s) (hs : s.Sound h.alloc sizeofPointer) (child : Option Value) (m : Memory) :
    ∃ st c' s' m', c.bencodeListAppend h.alloc child m = some (st, c', m') ∧
      bencodeListAppend (some (.list h s)) child m = (st, some (.list h s'), m') ∧
      c'.Holds s' ∧ s'.Sound h.alloc sizeofPointer ∧
      s'.items = s.items ++ (if st = .ok then child.toList else []) ∧
      AppendedTo c child st c' := by
  cases child with
  | none => exact ⟨_, c, s, m, rfl, rfl, hc, hs, by simp, .failed (by simp)⟩
  | some v =>
      unfold Cells.bencodeListAppend bencodeListAppend
      dsimp only
      rw [hc.count]
      generalize hgrow : growArray h.alloc s sizeofPointer ((s.items.length + 1) % sizeMod) m = r
      obtain ⟨st, s₁, m₁⟩ := r
      obtain ⟨c₁, hcells, hheld, hsame⟩ := growArray_holds hc hs (by decide) hgrow
      rw [hcells]
      cases growArray_grown hh.checked hs (by decide) (by decide) hgrow with
      | ok sound items room blocks =>
          have hroom : s₁.items.length < s₁.capacity := items ▸ room
          obtain ⟨c₂, hwrite, hheld₂⟩ := hheld.write_end v hroom
          obtain ⟨-, -, hcount₂, -⟩ := write_room hwrite
          have hwritten := Slots.write_end s₁ v m₁ hroom
          have hmod : (c₂.count + 1) % sizeMod = c₁.count + 1 := by
            rw [hcount₂, hheld.count]
            exact sound.count_mod (by decide)
          dsimp only
          rw [hwrite, ← items, hwritten]
          dsimp only
          rw [hmod]
          refine ⟨_, _, _, _, rfl, rfl, hheld₂, ⟨?_, sound.fits, sound.array⟩, ?_, ?_⟩
          · simpa using Nat.succ_le_of_lt hroom
          · rw [if_pos rfl, Option.toList_some]
          · exact .written hc hheld items room hwrite
      | nomem blocks reason =>
          rw [hsame (by simp)]
          exact ⟨_, c, s, _, rfl, rfl, hc, hs, by simp, .failed (by simp)⟩

theorem bencodeDictSet_cells {h : Header} {c : Cells (Entry Value)} {s : Slots (Entry Value)}
    (hc : c.Holds s) (hs : DictSound h s) (key : Span) (child : Option Value) (m : Memory) :
    ∃ st c' s' m', c.bencodeDictSet h.alloc key child m = some (st, c', m') ∧
      bencodeDictSet (some (.dict h s)) key child m = (st, some (.dict h s'), m') ∧
      c'.Holds s' ∧ DictSound h s' ∧ SetIn c key.bytes child st c' := by
  cases child with
  | none => exact ⟨_, c, s, m, rfl, rfl, hc, hs, .failed (by simp)⟩
  | some v =>
      by_cases hkey : key.isBad = true
      · refine ⟨.errInvalidArg, c, s, m, ?_, ?_, hc, hs, .failed (by simp)⟩
        · simp only [Cells.bencodeDictSet, hkey, if_true]
        · simp only [bencodeDictSet, hkey, if_true]
      rw [Bool.not_eq_true] at hkey
      obtain ⟨⟨i, found⟩, hsearch, hfound⟩ := dictSearch_found hkey hs.sorted
      have hsearch' : c.dictSearch key = some (i, found) := by
        rw [dictSearch_cells hc.count hc.stored, hsearch]
        rfl
      unfold Cells.bencodeDictSet bencodeDictSet
      simp only [hkey, Bool.false_eq_true, if_false, hsearch, hsearch']
      cases hfound with
      | hit e at_ eq =>
          have hi : i < s.items.length := (List.getElem?_eq_some_iff.mp at_).1
          have hread : c.read i = some e := (hc.stored i (hc.count ▸ hi)).trans at_
          obtain ⟨c', hwrite, hheld⟩ := hc.set ⟨e.key, v⟩ hi hs.slots.count
          simp only [hread, hwrite, at_]
          exact ⟨_, _, _, _, rfl, rfl, hheld, hs.set at_ v,
            .overwritten hc at_ eq hs.slots.count hwrite⟩
      | miss le below above =>
          dsimp only
          cases hcopy : copyKey h.alloc key m with
          | mk copy m₁ =>
              cases copy with
              | none => exact ⟨_, c, s, m₁, rfl, rfl, hc, hs, .failed (by simp)⟩
              | some copy =>
                  obtain ⟨hbytes, -⟩ := copyKey_some hkey hcopy
                  dsimp only
                  rw [hc.count]
                  generalize hgrow : growArray h.alloc s sizeofEntry
                    ((s.items.length + 1) % sizeMod) m₁ = r
                  obtain ⟨st, s₁, m₂⟩ := r
                  obtain ⟨c₁, hcells, hheld, hsame⟩ :=
                    growArray_holds hc hs.slots (by decide) hgrow
                  rw [hcells]
                  have grown :=
                    growArray_grown hs.header.checked hs.slots (by decide) (by decide) hgrow
                  cases grown with
                  | ok sound items room blocks =>
                      have hroom : s₁.items.length < s₁.capacity := items ▸ room
                      have hi : i ≤ s₁.items.length := items ▸ le
                      obtain ⟨c₂, c₃, hshift, hwrite, hcount₃, hread, hheld₃⟩ :=
                        hheld.insert ⟨copy, v⟩ hi hroom
                      have hmod : (c₃.count + 1) % sizeMod = c₁.count + 1 := by
                        rw [hcount₃, hheld.count]
                        exact sound.count_mod (by decide)
                      have hinserted := insertEntry_eq s₁ (⟨copy, v⟩ : Entry Value) m₂ hi hroom
                      dsimp only
                      rw [hshift, ← items, hinserted]
                      dsimp only
                      rw [hwrite]
                      dsimp only
                      rw [hmod]
                      refine ⟨_, _, _, _, rfl, rfl, hheld₃, ?_, ?_⟩
                      · rw [items]
                        exact hs.insert sound room hbytes below above
                      · have hcapacity : c₃.capacity = s₁.capacity := hheld₃.capacity
                        exact .put hc hheld items (hcapacity ▸ room) le hbytes hread
                  | nomem blocks reason =>
                      rw [hsame (by simp)]
                      exact ⟨_, c, s, _, rfl, rfl, hc, hs, .failed (by simp)⟩

theorem bencodeListAt_cells {h : Header} {c : Cells Value} {s : Slots Value} (hc : c.Holds s)
    (i : Nat) : c.bencodeListAt i = some (bencodeListAt (some (.list h s)) i) := by
  unfold Cells.bencodeListAt bencodeListAt
  rw [hc.count]
  dsimp only
  split
  · rfl
  · next hi =>
      have hlt : i < s.items.length := Nat.lt_of_not_le hi
      rw [hc.stored i (hc.count ▸ hlt), List.getElem?_eq_getElem hlt]

/-! ## What an array keeps -/

/-- An array written up to its count, with the room it says, whose size in bytes and whose next
count are sizes. -/
structure Stocked {α : Type} (elementSize : Nat) (c : Cells α) : Prop where
  count : c.count ≤ c.capacity
  room : c.slots.length = c.capacity
  fits : c.capacity * elementSize ≤ sizeMax
  next : (c.count + 1) % sizeMod = c.count + 1
  written : ∀ i, i < c.count → ∃ x, c.read i = some x

/-- Asked for any number of slots, `grow_array` computes on this array without wrapping and, when it
succeeds, gives at least that many. -/
structure GrowsExactly {α : Type} (a : AllocRef) (elementSize : Nat) (c : Cells α) : Prop where
  doubled : ∀ needed cap, Tested (fun cap => decide (needed ≤ cap))
    (if c.capacity = 0 then 4 else c.capacity) cap → cap < needed → ¬ cap > sizeMax / 2 →
      cap * 2 % sizeMod = cap * 2
  product : ∀ needed cap, doubleUntil (fun cap => decide (needed ≤ cap)) doublingFuel
    (if c.capacity = 0 then 4 else c.capacity) = .cap cap → ¬ cap > sizeMax / elementSize →
      cap * elementSize % sizeMod = cap * elementSize
  enough : ∀ needed m c' m', c.growArray a elementSize needed m = some (.ok, c', m') →
    needed ≤ c'.capacity

theorem Cells.Holds.stocked {α : Type} {a : AllocRef} {elementSize : Nat} {c : Cells α}
    {s : Slots α} (hc : c.Holds s) (hs : s.Sound a elementSize) (helem : 2 ≤ elementSize) :
    Stocked elementSize c := by
  have hcount : c.count ≤ c.capacity := by
    rw [hc.count, hc.capacity]
    exact hs.count
  refine ⟨hcount, hc.room, ?_, ?_, fun i hi => ?_⟩
  · rw [hc.capacity]
    exact hs.fits
  · rw [hc.count]
    exact hs.count_mod helem
  · have hi' : i < s.items.length := hc.count ▸ hi
    exact ⟨s.items[i], (hc.stored i hi).trans (List.getElem?_eq_getElem hi')⟩

theorem growArray_enough {α : Type} {a : AllocRef} {elementSize needed : Nat} {c c' : Cells α}
    {m m' : Memory} (h : c.growArray a elementSize needed m = some (.ok, c', m')) :
    needed ≤ c'.capacity := by
  unfold Cells.growArray at h
  split at h
  · next hroom =>
      cases h
      exact hroom
  · split at h
    · cases h
    · cases h
    · next newCap hgrowth =>
        have henough : needed ≤ newCap :=
          of_decide_eq_true (doubleUntil_tested .start hgrowth).1
        split at h
        · cases h
        · dsimp only at h
          split at h
          · cases h
          · split at h
            · split at h
              · cases h
              · cases h
                exact henough
            · cases h
              exact henough

theorem growsExactly {α : Type} (a : AllocRef) {elementSize : Nat} (helem : 0 < elementSize)
    (c : Cells α) : GrowsExactly a elementSize c :=
  ⟨fun _ _ _ _ half => (double_mod half).2, fun _ _ _ small => (size_mod helem small).2,
    fun _ _ _ _ h => growArray_enough h⟩

/-! ## Runs -/

/-- A call on the list or on the dict; any memory may be there when it is made. -/
inductive ContainerCall
  | append (child : Option Value) (mem : Memory)
  | set (key : Span) (child : Option Value) (mem : Memory)

structure Containers where
  listHeader : Header
  list : Cells Value
  dictHeader : Header
  dict : Cells (Entry Value)

namespace Containers

def call (s : Containers) : ContainerCall → Option (Status × Containers)
  | .append child m =>
      match s.list.bencodeListAppend s.listHeader.alloc child m with
      | none => none
      | some (st, list, _) => some (st, { s with list := list })
  | .set key child m =>
      match s.dict.bencodeDictSet s.dictHeader.alloc key child m with
      | none => none
      | some (st, dict, _) => some (st, { s with dict := dict })

/-- The containers after the calls, unless one of them leaves an array or reads what was not
written. -/
def run (s : Containers) : List ContainerCall → Option Containers
  | [] => some s
  | c :: cs =>
      match s.call c with
      | none => none
      | some (_, s) => s.run cs

def given : ContainerCall → List Value
  | .append child _ => child.toList
  | .set _ _ _ => []

def appended (s : Containers) : List ContainerCall → List Value
  | [] => []
  | c :: cs =>
      match s.call c with
      | none => []
      | some (st, s) => (if st = .ok then given c else []) ++ s.appended cs

inductive Fresh : Containers → Prop
  | made {listAlloc dictAlloc : AllocRef} {m₁ m₁' m₂ m₂' : Memory} {listHeader dictHeader : Header}
      {list : Slots Value} {dict : Slots (Entry Value)}
      (listNew : bencodeListNew listAlloc m₁ = (.ok, some (.list listHeader list), m₁'))
      (dictNew : bencodeDictNew dictAlloc m₂ = (.ok, some (.dict dictHeader dict), m₂')) :
      Fresh ⟨listHeader, .empty, dictHeader, .empty⟩

structure Stores (s : Containers) (items : List Value) : Prop where
  header : s.listHeader.Sound
  list : ∃ l, s.list.Holds l ∧ l.Sound s.listHeader.alloc sizeofPointer ∧ l.items = items
  dict : ∃ d, s.dict.Holds d ∧ DictSound s.dictHeader d

theorem Fresh.stores {s : Containers} (h : Fresh s) : s.Stores [] := by
  cases h with
  | @made listAlloc dictAlloc m₁ m₁' m₂ m₂' listHeader dictHeader list dict listNew dictNew =>
      have hlist := bencodeListNew_clean listAlloc m₁
      have hdict := bencodeDictNew_clean dictAlloc m₂
      rw [listNew] at hlist
      rw [dictNew] at hdict
      have hl := (hlist.sound _ rfl).header
      have hd := (hdict.sound _ rfl).header
      exact ⟨hl, ⟨_, empty_holds, slots_empty_sound _ _, rfl⟩,
        ⟨_, empty_holds, hd, slots_empty_sound _ _, .nil⟩⟩

theorem Stores.call {s : Containers} {items : List Value} (h : s.Stores items)
    (c : ContainerCall) : ∃ st s', s.call c = some (st, s') ∧
      s'.Stores (items ++ if st = .ok then given c else []) := by
  obtain ⟨l, hl, hlsound, rfl⟩ := h.list
  obtain ⟨d, hd, hdsound⟩ := h.dict
  cases c with
  | append child m =>
      obtain ⟨st, c', l', m', hcall, hrun, hl', hlsound', hitems, hdone⟩ :=
        bencodeListAppend_cells h.header hl hlsound child m
      refine ⟨st, { s with list := c' }, ?_, h.header, ⟨l', hl', hlsound', hitems⟩, h.dict⟩
      rw [Containers.call, hcall]
  | set key child m =>
      obtain ⟨st, c', d', m', hcall, hrun, hd', hdsound', hdone⟩ :=
        bencodeDictSet_cells hd hdsound key child m
      refine ⟨st, { s with dict := c' }, ?_, h.header, ⟨l, hl, hlsound, ?_⟩, ⟨d', hd', hdsound'⟩⟩
      · rw [Containers.call, hcall]
      · rw [given, ite_self, List.append_nil]

theorem Stores.run {s : Containers} {items : List Value} (h : s.Stores items)
    (calls : List ContainerCall) :
    ∃ s', s.run calls = some s' ∧ s'.Stores (items ++ s.appended calls) := by
  induction calls generalizing s items with
  | nil =>
      refine ⟨s, rfl, ?_⟩
      rw [appended, List.append_nil]
      exact h
  | cons c cs ih =>
      obtain ⟨st, s₁, hcall, hstores⟩ := h.call c
      obtain ⟨s', hrun, hstores'⟩ := ih hstores
      refine ⟨s', ?_, ?_⟩
      · rw [Containers.run, hcall]
        exact hrun
      · rw [appended, hcall, ← List.append_assoc]
        exact hstores'

end Containers

/-- A list and a dict over any run of appends and sets, whatever requests for memory are refused.
No call leaves an array or reads a slot that nothing was written to. After the run each array is
written up to its count, which is within its capacity, and the list holds the children that were
appended, in call order. A next append writes the child after them, a next set replaces one value
or moves exactly the entries from its place on up by one, in slots within the capacity, and a call
that fails changes nothing. Growing either array computes no size that wraps and yields the room
asked for. -/
theorem container_growth {start : Containers} (fresh : Containers.Fresh start)
    (calls : List ContainerCall) :
    ∃ s, start.run calls = some s ∧
      Stocked sizeofPointer s.list ∧ Stocked sizeofEntry s.dict ∧
      s.list.bencodeListSize = (start.appended calls).length ∧
      (∀ i, s.list.bencodeListAt i = some (start.appended calls)[i]?) ∧
      (∀ child m, ∃ st list m',
        s.list.bencodeListAppend s.listHeader.alloc child m = some (st, list, m') ∧
          AppendedTo s.list child st list) ∧
      (∀ key child m, ∃ st dict m',
        s.dict.bencodeDictSet s.dictHeader.alloc key child m = some (st, dict, m') ∧
          SetIn s.dict key.bytes child st dict) ∧
      GrowsExactly s.listHeader.alloc sizeofPointer s.list ∧
      GrowsExactly s.dictHeader.alloc sizeofEntry s.dict := by
  obtain ⟨s, hrun, hstores⟩ := fresh.stores.run calls
  rw [List.nil_append] at hstores
  obtain ⟨l, hl, hlsound, hitems⟩ := hstores.list
  obtain ⟨d, hd, hdsound⟩ := hstores.dict
  refine ⟨s, hrun, hl.stocked hlsound (by decide), hd.stocked hdsound.slots (by decide), ?_, ?_, ?_,
    ?_, growsExactly _ (by decide) _, growsExactly _ (by decide) _⟩
  · rw [← hitems]
    exact hl.count
  · intro i
    rw [bencodeListAt_cells (h := s.listHeader) hl, ← hitems]
    unfold bencodeListAt
    dsimp only
    split
    · next hi => rw [List.getElem?_eq_none hi]
    · rfl
  · intro child m
    obtain ⟨st, c', l', m', hcall, -, -, -, -, hdone⟩ :=
      bencodeListAppend_cells hstores.header hl hlsound child m
    exact ⟨st, c', m', hcall, hdone⟩
  · intro key child m
    obtain ⟨st, c', d', m', hcall, -, -, -, hdone⟩ := bencodeDictSet_cells hd hdsound key child m
    exact ⟨st, c', m', hcall, hdone⟩

/-- The first append finds no memory, the second does. -/
theorem container_growth_one :
    ∃ s, Containers.run ⟨⟨⟨.platform, 0, 40⟩, none⟩, .empty, ⟨⟨.platform, 1, 40⟩, none⟩, .empty⟩
        [.append (some (.int ⟨⟨.platform, 2, 40⟩, none⟩ 7)) (.empty fun _ => true),
          .append (some (.int ⟨⟨.platform, 3, 40⟩, none⟩ 8)) (.empty fun _ => false),
          .set (.mem [97]) (some (.int ⟨⟨.platform, 4, 40⟩, none⟩ 9)) (.empty fun _ => false)] =
        some s ∧
      s.list.bencodeListSize = 1 ∧
      s.list.bencodeListAt 0 = some (some (.int ⟨⟨.platform, 3, 40⟩, none⟩ 8)) ∧
      s.list.bencodeListAt 1 = some none := by
  have hlist : bencodeListNew none (.empty fun _ => false) =
      (.ok, some (.list ⟨⟨.platform, 0, 40⟩, none⟩ ⟨none, 0, []⟩),
        (bencodeListNew none (.empty fun _ => false)).2.2) := rfl
  have hdict : bencodeDictNew none (bencodeListNew none (.empty fun _ => false)).2.2 =
      (.ok, some (.dict ⟨⟨.platform, 1, 40⟩, none⟩ ⟨none, 0, []⟩),
        (bencodeDictNew none (bencodeListNew none (.empty fun _ => false)).2.2).2.2) := rfl
  obtain ⟨s, hrun, -, -, hsize, hat, -⟩ := container_growth (.made hlist hdict) _
  exact ⟨s, hrun, hsize, hat 0, hat 1⟩

end Bencode
