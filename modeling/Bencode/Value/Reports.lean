import Bencode.Library.KeyedList
import Bencode.Value.Dict
import Bencode.Value.Shape

/-!
# What the accessors report

A dict is a finite map from keys to nodes, and the accessors read the map. Asked for
all that can be reached from a sound node, they report the tree that the node stands
for.
-/

namespace Bencode

open KeyedList

/-! ## The map a dict stands for -/

def storedValue {α : Type} (entries : List (Entry α)) (k : Bytes) : Option α :=
  (lookup (·.key.bytes) entries k).map (·.value)

theorem storedValue_eq_none {α : Type} {entries : List (Entry α)} {k : Bytes} :
    storedValue entries k = none ↔ k ∉ storedKeys entries :=
  Option.map_eq_none_iff.trans lookup_eq_none

theorem storedKeys_nodup {α : Type} {entries : List (Entry α)}
    (sorted : (storedKeys entries).Pairwise (· < ·)) : (storedKeys entries).Nodup :=
  sorted.imp ne_of_lt

/-- The entry that a search hits is the one stored under the key. -/
theorem storedValue_at {α : Type} {entries : List (Entry α)} {i : Nat} {e : Entry α}
    (sorted : (storedKeys entries).Pairwise (· < ·)) (at_ : entries[i]? = some e) :
    storedValue entries e.key.bytes = some e.value := by
  have hmem := (lookup_mem (storedKeys_nodup sorted)).mpr (List.mem_of_getElem? at_)
  rw [storedValue, hmem]
  rfl

theorem bencodeDictGet_eq {h : Header} {s : Slots (Entry Value)} (sound : DictSound h s)
    (key : Span) : bencodeDictGet (some (.dict h s)) key =
      .ok (if key.isBad = true then none else storedValue s.items key.bytes) := by
  rw [bencodeDictGet]
  split
  · rfl
  · next hbad =>
      rw [Bool.not_eq_true] at hbad
      obtain ⟨r, hsearch, hfound⟩ := dictSearch_found hbad sound.sorted
      rw [hsearch]
      cases hfound with
      | hit e at_ eq =>
          dsimp only
          rw [at_, ← eq, storedValue_at sound.sorted at_]
      | miss le below above =>
          have habsent : key.bytes ∉ storedKeys s.items := fun hmem =>
            Bool.false_ne_true ((Found.miss le below above).mem_iff.mp hmem)
          rw [storedValue_eq_none.mpr habsent]

theorem bencodeDictAt_eq {h : Header} {s : Slots (Entry Value)} (sound : DictSound h s) {i : Nat}
    {k : Bytes} (hk : (storedKeys s.items)[i]? = some k) :
    ∃ key v, bencodeDictAt (some (.dict h s)) i = (.ok, some (key, v)) ∧ key.isBad = false ∧
      key.bytes = k ∧ bencodeDictGet (some (.dict h s)) key = .ok (some v) := by
  rw [storedKeys_getElem?, Option.map_eq_some_iff] at hk
  obtain ⟨e, hat, rfl⟩ := hk
  have hbad : e.key.span.isBad = false := by cases e.key <;> rfl
  have hbytes : e.key.span.bytes = e.key.bytes := by cases e.key <;> rfl
  refine ⟨e.key.span, e.value, ?_, hbad, hbytes, ?_⟩
  · rw [bencodeDictAt, hat]
  · rw [bencodeDictGet_eq sound, hbad, if_neg Bool.false_ne_true, hbytes,
      storedValue_at sound.sorted hat]

/-! ## Reports -/

mutual

/-- The accessors say of the node, and of every node they lead to, what the tree says. -/
def Reports (bufs : Buffers) : Tree → Value → Prop
  | .int i, v => bencodeValueType (some v) = .int ∧ bencodeValueInt (some v) = (.ok, some i)
  | .string bytes, v =>
      bencodeValueType (some v) = .string ∧ bencodeValueString bufs (some v) = (.ok, some bytes)
  | .list ts, v =>
      bencodeValueType (some v) = .list ∧ bencodeListSize (some v) = ts.length ∧
        (∀ i, ts.length ≤ i → bencodeListAt (some v) i = none) ∧ ItemsReport bufs ts v 0
  | .dict es, v =>
      bencodeValueType (some v) = .dict ∧ bencodeDictSize (some v) = es.length ∧
        (∀ i, es.length ≤ i → bencodeDictAt (some v) i = (.errInvalidArg, none)) ∧
        (∀ key, key.isBad = true ∨ key.bytes ∉ entryKeys es →
          bencodeDictGet (some v) key = .ok none) ∧ EntriesReport bufs es v 0

def ItemsReport (bufs : Buffers) : List Tree → Value → Nat → Prop
  | [], _, _ => True
  | t :: ts, v, i =>
      (∃ item, bencodeListAt (some v) i = some item ∧ Reports bufs t item) ∧
        ItemsReport bufs ts v (i + 1)

/-- The entries of the dict `v` from the index `i` on; a key leads to the same node. -/
def EntriesReport (bufs : Buffers) : List (Bytes × Tree) → Value → Nat → Prop
  | [], _, _ => True
  | (k, t) :: es, v, i =>
      (∃ key value, bencodeDictAt (some v) i = (.ok, some (key, value)) ∧ key.bytes = k ∧
        (∀ key', key'.isBad = false → key'.bytes = k →
          bencodeDictGet (some v) key' = .ok (some value)) ∧ Reports bufs t value) ∧
        EntriesReport bufs es v (i + 1)

end

theorem length_itemTrees (bufs : Buffers) (vs : List Value) :
    (itemTrees bufs vs).length = vs.length := by
  induction vs with
  | nil => rfl
  | cons v vs ih => simp [itemTrees, ih]

theorem length_entryTrees (bufs : Buffers) (es : List (Entry Value)) :
    (entryTrees bufs es).length = es.length := by
  induction es with
  | nil => rfl
  | cons e es ih =>
      obtain ⟨key, v⟩ := e
      simp [entryTrees, ih]

mutual

theorem Value.Sound.reports (bufs : Buffers) (v : Value) (h : v.Sound) :
    Reports bufs (v.tree bufs) v := by
  cases v with
  | int hd i => exact ⟨rfl, rfl⟩
  | string hd str => exact ⟨rfl, rfl⟩
  | list hd slots =>
      obtain ⟨block, capacity, items⟩ := slots
      refine ⟨rfl, (length_itemTrees bufs items).symm, ?_, ?_⟩
      · intro i hi
        rw [length_itemTrees] at hi
        exact if_pos hi
      · apply SoundItems.reports bufs items h.2.2
        intro j item hitem
        rw [Nat.zero_add, bencodeListAt, if_neg]
        · exact hitem
        · exact Nat.not_le_of_lt (List.getElem?_eq_some_iff.mp hitem).1
  | dict hd slots =>
      obtain ⟨block, capacity, entries⟩ := slots
      obtain ⟨sound, hentries⟩ := sound_dict_iff.mp h
      refine ⟨rfl, (length_entryTrees bufs entries).symm, ?_, ?_, ?_⟩
      · intro i hi
        rw [length_entryTrees] at hi
        rw [bencodeDictAt, List.getElem?_eq_none hi]
      · intro key absent
        rw [bencodeDictGet_eq sound]
        split
        · rfl
        · next hbad =>
            have habsent := absent.resolve_left hbad
            rw [entryKeys_entryTrees] at habsent
            rw [storedValue_eq_none.mpr habsent]
      · apply SoundEntries.reports bufs hd.alloc entries hentries
        intro j e he
        refine ⟨?_, ?_⟩
        · rw [Nat.zero_add, bencodeDictAt, he]
        · intro key hbad hbytes
          rw [bencodeDictGet_eq sound, hbad, if_neg Bool.false_ne_true, hbytes,
            storedValue_at sound.sorted he]

theorem SoundItems.reports (bufs : Buffers) (vs : List Value) (h : SoundItems vs) {list : Value}
    {i : Nat} (at_ : ∀ j item, vs[j]? = some item →
      bencodeListAt (some list) (i + j) = some item) :
    ItemsReport bufs (itemTrees bufs vs) list i := by
  cases vs with
  | nil => trivial
  | cons v vs =>
      refine ⟨⟨v, at_ 0 v rfl, h.1.reports bufs v⟩, ?_⟩
      apply SoundItems.reports bufs vs h.2
      intro j item hitem
      rw [Nat.add_assoc, Nat.add_comm 1]
      exact at_ (j + 1) item hitem

theorem SoundEntries.reports (bufs : Buffers) (a : AllocRef) (es : List (Entry Value))
    (h : SoundEntries a es) {dict : Value} {i : Nat}
    (at_ : ∀ j (e : Entry Value), es[j]? = some e →
      bencodeDictAt (some dict) (i + j) = (.ok, some (e.key.span, e.value)) ∧
        ∀ key, key.isBad = false → key.bytes = e.key.bytes →
          bencodeDictGet (some dict) key = .ok (some e.value)) :
    EntriesReport bufs (entryTrees bufs es) dict i := by
  cases es with
  | nil => trivial
  | cons e es =>
      obtain ⟨key, v⟩ := e
      obtain ⟨hat, hget⟩ := at_ 0 ⟨key, v⟩ rfl
      have hbytes : key.span.bytes = key.bytes := by cases key <;> rfl
      refine ⟨⟨key.span, v, hat, hbytes, hget, h.2.1.reports bufs v⟩, ?_⟩
      apply SoundEntries.reports bufs a es h.2.2
      intro j e he
      rw [Nat.add_assoc, Nat.add_comm 1]
      exact at_ (j + 1) e he

end

end Bencode
