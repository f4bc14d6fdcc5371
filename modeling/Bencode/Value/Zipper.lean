import Bencode.Value.Ownership
import Mathlib.Data.Multiset.UnionInter
import Mathlib.Tactic.Abel

/-!
# A node inside its tree

A tree around a node is a path of layers from the node out to the root. The blocks of
a tree in memory are all different, so following a pointer finds the one node at the
end of its path, and storing through the pointer changes that node only.
-/

namespace Bencode

/-! ## Layers -/

/-- A container with a hole in the place of one of its values. -/
inductive Layer
  | list (h : Header) (block : Option MemBlock) (capacity : Nat) (front back : List Value)
  | dict (h : Header) (block : Option MemBlock) (capacity : Nat) (front : List (Entry Value))
      (key : KeyCopy) (back : List (Entry Value))

namespace Layer

def header : Layer → Header
  | list h _ _ _ _ => h
  | dict h _ _ _ _ _ => h

def fill : Layer → Value → Value
  | list h block capacity front back, v => .list h ⟨block, capacity, front ++ v :: back⟩
  | dict h block capacity front key back, v =>
      .dict h ⟨block, capacity, front ++ ⟨key, v⟩ :: back⟩

def blocks : Layer → Multiset MemBlock
  | list h block _ front back =>
      {h.self} + optionBlock block + (itemsBlocks front + itemsBlocks back)
  | dict h block _ front key back =>
      {h.self} + optionBlock block + (entriesBlocks front + optionBlock key.block +
        entriesBlocks back)

theorem blocks_fill (l : Layer) (v : Value) : (l.fill v).blocks = l.blocks + v.blocks := by
  cases l with
  | list h block capacity front back =>
      simp only [fill, Value.blocks, blocks, itemsBlocks_append, itemsBlocks]
      abel
  | dict h block capacity front key back =>
      simp only [fill, Value.blocks, blocks, entriesBlocks_append, entriesBlocks]
      abel

@[simp] theorem header_fill (l : Layer) (v : Value) : (l.fill v).header = l.header := by
  cases l <;> rfl

theorem self_mem_blocks (l : Layer) : l.header.self ∈ l.blocks := by
  cases l <;> simp [header, blocks]

theorem sound_inner {l : Layer} {v : Value} (h : (l.fill v).Sound) : v.Sound := by
  cases l with
  | list hd block capacity front back =>
      exact soundItems_iff.mp h.2.2 v (List.mem_append_right _ List.mem_cons_self)
  | dict hd block capacity front key back =>
      exact (soundEntries_iff.mp h.2.2.2 ⟨key, v⟩
        (List.mem_append_right _ List.mem_cons_self)).2

theorem sound_fill {l : Layer} {v w : Value} (h : (l.fill v).Sound) (hw : w.Sound) :
    (l.fill w).Sound := by
  cases l with
  | list hd block capacity front back =>
      obtain ⟨hhd, hslots, hitems⟩ := h
      refine ⟨hhd, ⟨?_, hslots.fits, hslots.array⟩, ?_⟩
      · simpa using hslots.count
      · rw [soundItems_iff] at hitems ⊢
        intro u hu
        rcases List.mem_append.mp hu with hu | hu
        · exact hitems u (List.mem_append_left _ hu)
        · rcases List.mem_cons.mp hu with rfl | hu
          · exact hw
          · exact hitems u (List.mem_append_right _ (List.mem_cons_of_mem _ hu))
  | dict hd block capacity front key back =>
      obtain ⟨hhd, hslots, hsorted, hentries⟩ := h
      refine ⟨hhd, ⟨?_, hslots.fits, hslots.array⟩, ?_, ?_⟩
      · simpa using hslots.count
      · simpa [storedKeys] using hsorted
      · rw [soundEntries_iff] at hentries ⊢
        intro e he
        rcases List.mem_append.mp he with he | he
        · exact hentries e (List.mem_append_left _ he)
        · rcases List.mem_cons.mp he with rfl | he
          · exact ⟨(hentries ⟨key, v⟩ (List.mem_append_right _ List.mem_cons_self)).1, hw⟩
          · exact hentries e (List.mem_append_right _ (List.mem_cons_of_mem _ he))

end Layer

/-! ## Pointers to somewhere else -/

section Elsewhere

variable {p : MemBlock}

mutual

theorem Value.find?_of_not_mem (v : Value) (h : p ∉ v.blocks) : v.find? p = none := by
  cases v with
  | int hd i =>
      rw [Value.find?, if_neg]
      rintro rfl
      exact h (Multiset.mem_singleton_self _)
  | string hd str =>
      rw [Value.find?, if_neg]
      rintro rfl
      exact h (by simp [Value.blocks])
  | list hd slots =>
      obtain ⟨block, capacity, items⟩ := slots
      simp only [Value.blocks, Multiset.mem_add, Multiset.mem_singleton, not_or] at h
      rw [Value.find?, if_neg (Ne.symm h.1.1), findItems?_of_not_mem items h.2]
  | dict hd slots =>
      obtain ⟨block, capacity, entries⟩ := slots
      simp only [Value.blocks, Multiset.mem_add, Multiset.mem_singleton, not_or] at h
      rw [Value.find?, if_neg (Ne.symm h.1.1), findEntries?_of_not_mem entries h.2]

theorem findItems?_of_not_mem (vs : List Value) (h : p ∉ itemsBlocks vs) :
    findItems? p vs = none := by
  cases vs with
  | nil => rfl
  | cons v vs =>
      simp only [itemsBlocks, Multiset.mem_add, not_or] at h
      rw [findItems?, v.find?_of_not_mem h.1, findItems?_of_not_mem vs h.2, Option.or_none]

theorem findEntries?_of_not_mem (es : List (Entry Value)) (h : p ∉ entriesBlocks es) :
    findEntries? p es = none := by
  cases es with
  | nil => rfl
  | cons e es =>
      obtain ⟨key, v⟩ := e
      simp only [entriesBlocks, Multiset.mem_add, not_or] at h
      rw [findEntries?, v.find?_of_not_mem h.1.2, findEntries?_of_not_mem es h.2, Option.or_none]

end

mutual

theorem Value.replace_of_not_mem (v new : Value) (h : p ∉ v.blocks) :
    Value.replace p new v = v := by
  cases v with
  | int hd i =>
      rw [Value.replace, if_neg]
      rintro rfl
      exact h (Multiset.mem_singleton_self _)
  | string hd str =>
      rw [Value.replace, if_neg]
      rintro rfl
      exact h (by simp [Value.blocks])
  | list hd slots =>
      obtain ⟨block, capacity, items⟩ := slots
      simp only [Value.blocks, Multiset.mem_add, Multiset.mem_singleton, not_or] at h
      rw [Value.replace, if_neg (Ne.symm h.1.1), replaceItems_of_not_mem new items h.2]
  | dict hd slots =>
      obtain ⟨block, capacity, entries⟩ := slots
      simp only [Value.blocks, Multiset.mem_add, Multiset.mem_singleton, not_or] at h
      rw [Value.replace, if_neg (Ne.symm h.1.1), replaceEntries_of_not_mem new entries h.2]

theorem replaceItems_of_not_mem (new : Value) (vs : List Value) (h : p ∉ itemsBlocks vs) :
    replaceItems p new vs = vs := by
  cases vs with
  | nil => rfl
  | cons v vs =>
      simp only [itemsBlocks, Multiset.mem_add, not_or] at h
      rw [replaceItems, v.replace_of_not_mem new h.1, replaceItems_of_not_mem new vs h.2]

theorem replaceEntries_of_not_mem (new : Value) (es : List (Entry Value))
    (h : p ∉ entriesBlocks es) : replaceEntries p new es = es := by
  cases es with
  | nil => rfl
  | cons e es =>
      obtain ⟨key, v⟩ := e
      simp only [entriesBlocks, Multiset.mem_add, not_or] at h
      rw [replaceEntries, v.replace_of_not_mem new h.1.2, replaceEntries_of_not_mem new es h.2]

end

theorem findItems?_append (p : MemBlock) (vs ws : List Value) :
    findItems? p (vs ++ ws) = (findItems? p vs).or (findItems? p ws) := by
  induction vs with
  | nil => rfl
  | cons v vs ih => rw [List.cons_append, findItems?, findItems?, ih, Option.or_assoc]

theorem findEntries?_append (p : MemBlock) (es fs : List (Entry Value)) :
    findEntries? p (es ++ fs) = (findEntries? p es).or (findEntries? p fs) := by
  induction es with
  | nil => rfl
  | cons e es ih =>
      obtain ⟨key, v⟩ := e
      rw [List.cons_append, findEntries?, findEntries?, ih, Option.or_assoc]

theorem replaceItems_append (p : MemBlock) (new : Value) (vs ws : List Value) :
    replaceItems p new (vs ++ ws) = replaceItems p new vs ++ replaceItems p new ws := by
  induction vs with
  | nil => rfl
  | cons v vs ih => rw [List.cons_append, replaceItems, replaceItems, ih, List.cons_append]

theorem replaceEntries_append (p : MemBlock) (new : Value) (es fs : List (Entry Value)) :
    replaceEntries p new (es ++ fs) = replaceEntries p new es ++ replaceEntries p new fs := by
  induction es with
  | nil => rfl
  | cons e es ih =>
      obtain ⟨key, v⟩ := e
      rw [List.cons_append, replaceEntries, replaceEntries, ih, List.cons_append]

namespace Layer

theorem find?_fill {l : Layer} (h : p ∉ l.blocks) (v : Value) :
    (l.fill v).find? p = v.find? p := by
  cases l with
  | list hd block capacity front back =>
      simp only [blocks, Multiset.mem_add, Multiset.mem_singleton, not_or] at h
      rw [fill, Value.find?, if_neg (Ne.symm h.1.1), findItems?_append,
        findItems?_of_not_mem front h.2.1, findItems?, findItems?_of_not_mem back h.2.2,
        Option.none_or, Option.or_none]
  | dict hd block capacity front key back =>
      simp only [blocks, Multiset.mem_add, Multiset.mem_singleton, not_or] at h
      rw [fill, Value.find?, if_neg (Ne.symm h.1.1), findEntries?_append,
        findEntries?_of_not_mem front h.2.1.1, findEntries?, findEntries?_of_not_mem back h.2.2,
        Option.none_or, Option.or_none]

theorem replace_fill {l : Layer} (h : p ∉ l.blocks) (new v : Value) :
    Value.replace p new (l.fill v) = l.fill (Value.replace p new v) := by
  cases l with
  | list hd block capacity front back =>
      simp only [blocks, Multiset.mem_add, Multiset.mem_singleton, not_or] at h
      rw [fill, Value.replace, if_neg (Ne.symm h.1.1), replaceItems_append,
        replaceItems_of_not_mem new front h.2.1, replaceItems,
        replaceItems_of_not_mem new back h.2.2]
      rfl
  | dict hd block capacity front key back =>
      simp only [blocks, Multiset.mem_add, Multiset.mem_singleton, not_or] at h
      rw [fill, Value.replace, if_neg (Ne.symm h.1.1), replaceEntries_append,
        replaceEntries_of_not_mem new front h.2.1.1, replaceEntries,
        replaceEntries_of_not_mem new back h.2.2]
      rfl

end Layer

end Elsewhere

/-! ## Paths -/

def plug : List Layer → Value → Value
  | [], v => v
  | l :: ls, v => plug ls (l.fill v)

def pathBlocks : List Layer → Multiset MemBlock
  | [] => 0
  | l :: ls => l.blocks + pathBlocks ls

theorem plug_append (ls ks : List Layer) (v : Value) : plug (ls ++ ks) v = plug ks (plug ls v) := by
  induction ls generalizing v with
  | nil => rfl
  | cons l ls ih => exact ih (l.fill v)

theorem blocks_plug (ls : List Layer) (v : Value) :
    (plug ls v).blocks = pathBlocks ls + v.blocks := by
  induction ls generalizing v with
  | nil => rw [plug, pathBlocks, zero_add]
  | cons l ls ih =>
      rw [plug, ih, Layer.blocks_fill, pathBlocks]
      abel

theorem sound_of_plug {ls : List Layer} {v : Value} (h : (plug ls v).Sound) : v.Sound := by
  induction ls generalizing v with
  | nil => exact h
  | cons l ls ih => exact Layer.sound_inner (ih h)

theorem sound_plug {ls : List Layer} {v w : Value} (h : (plug ls v).Sound) (hw : w.Sound) :
    (plug ls w).Sound := by
  induction ls generalizing v w with
  | nil => exact hw
  | cons l ls ih => exact ih h (Layer.sound_fill (sound_of_plug h) hw)

/-- In a tree without shared blocks a pointer into the hole is none of the path's. -/
theorem not_mem_path {ls : List Layer} {v : Value} {p : MemBlock} (nodup : (plug ls v).blocks.Nodup)
    (hp : p ∈ v.blocks) : p ∉ pathBlocks ls := by
  rw [blocks_plug, Multiset.nodup_add] at nodup
  exact fun h => Multiset.disjoint_left.mp nodup.2.2 h hp

theorem find?_plug {ls : List Layer} {p : MemBlock} (hp : p ∉ pathBlocks ls) (v : Value) :
    (plug ls v).find? p = v.find? p := by
  induction ls generalizing v with
  | nil => rfl
  | cons l ls ih =>
      rw [pathBlocks, Multiset.mem_add, not_or] at hp
      rw [plug, ih hp.2, Layer.find?_fill hp.1]

theorem replace_plug {ls : List Layer} {p : MemBlock} (hp : p ∉ pathBlocks ls) (new v : Value) :
    Value.replace p new (plug ls v) = plug ls (Value.replace p new v) := by
  induction ls generalizing v with
  | nil => rfl
  | cons l ls ih =>
      rw [pathBlocks, Multiset.mem_add, not_or] at hp
      rw [plug, ih hp.2, Layer.replace_fill hp.1, plug]

theorem Value.self_mem_blocks (v : Value) : v.self ∈ v.blocks := by
  cases v <;> simp [Value.blocks, Value.self, Value.header]

theorem Value.find?_self (v : Value) : v.find? v.self = some v := by
  cases v <;> simp [Value.find?, Value.self, Value.header]

theorem Value.replace_self (v new : Value) : Value.replace v.self new v = new := by
  cases v <;> simp [Value.replace, Value.self, Value.header]

mutual

/-- A pointer that is found leads along a path to a node at that address. -/
theorem Value.exists_path (root : Value) {p : MemBlock} {v : Value}
    (h : root.find? p = some v) : v.self = p ∧ ∃ ls, root = plug ls v := by
  cases root with
  | int hd i =>
      rw [Value.find?] at h
      split at h
      · next heq =>
          cases h
          exact ⟨heq, [], rfl⟩
      · cases h
  | string hd str =>
      rw [Value.find?] at h
      split at h
      · next heq =>
          cases h
          exact ⟨heq, [], rfl⟩
      · cases h
  | list hd slots =>
      obtain ⟨block, capacity, items⟩ := slots
      rw [Value.find?] at h
      split at h
      · next heq =>
          cases h
          exact ⟨heq, [], rfl⟩
      · obtain ⟨hself, front, ls, back, rfl⟩ := exists_itemPath items h
        refine ⟨hself, ls ++ [.list hd block capacity front back], ?_⟩
        rw [plug_append]
        rfl
  | dict hd slots =>
      obtain ⟨block, capacity, entries⟩ := slots
      rw [Value.find?] at h
      split at h
      · next heq =>
          cases h
          exact ⟨heq, [], rfl⟩
      · obtain ⟨hself, front, key, ls, back, rfl⟩ := exists_entryPath entries h
        refine ⟨hself, ls ++ [.dict hd block capacity front key back], ?_⟩
        rw [plug_append]
        rfl

theorem exists_itemPath {p : MemBlock} {v : Value} (vs : List Value)
    (h : findItems? p vs = some v) :
    v.self = p ∧ ∃ front ls back, vs = front ++ plug ls v :: back := by
  cases vs with
  | nil => cases h
  | cons w ws =>
      rw [findItems?, Option.or_eq_some_iff] at h
      rcases h with h | ⟨-, h⟩
      · obtain ⟨hself, ls, rfl⟩ := w.exists_path h
        exact ⟨hself, [], ls, ws, rfl⟩
      · obtain ⟨hself, front, ls, back, rfl⟩ := exists_itemPath ws h
        exact ⟨hself, w :: front, ls, back, rfl⟩

theorem exists_entryPath {p : MemBlock} {v : Value} (es : List (Entry Value))
    (h : findEntries? p es = some v) :
    v.self = p ∧ ∃ front key ls back, es = front ++ ⟨key, plug ls v⟩ :: back := by
  cases es with
  | nil => cases h
  | cons e es =>
      obtain ⟨key, w⟩ := e
      rw [findEntries?, Option.or_eq_some_iff] at h
      rcases h with h | ⟨-, h⟩
      · obtain ⟨hself, ls, rfl⟩ := w.exists_path h
        exact ⟨hself, [], key, ls, es, rfl⟩
      · obtain ⟨hself, front, key', ls, back, rfl⟩ := exists_entryPath es h
        exact ⟨hself, ⟨key, w⟩ :: front, key', ls, back, rfl⟩

end

/-! ## Changing a node in place -/

/-- Storing `new` through a pointer: the rest of the tree keeps its nodes and its blocks. -/
theorem Value.replace_found {root old : Value} {p : MemBlock} (nodup : root.blocks.Nodup)
    (found : root.find? p = some old) (new : Value) :
    ∃ ls, root = plug ls old ∧ Value.replace p new root = plug ls new := by
  obtain ⟨rfl, ls, rfl⟩ := root.exists_path found
  refine ⟨ls, rfl, ?_⟩
  rw [replace_plug (not_mem_path nodup old.self_mem_blocks), Value.replace_self]

end Bencode
