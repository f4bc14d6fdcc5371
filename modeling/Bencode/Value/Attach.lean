import Bencode.Value.Build
import Mathlib.Tactic.Abel

/-!
# Handing a child to a container

Appending to a list and setting a key of a dict have one effect on the heap: on
success the container owns the child and nothing else has changed hands; otherwise
a request was refused and both are as before. An array can only be too large to
grow when its items do not fit in memory.
-/

namespace Bencode

/-! ## Weight -/

def weight (bs : Multiset MemBlock) : Nat := (bs.map Block.size).sum

@[simp] theorem weight_zero : weight 0 = 0 := rfl

@[simp] theorem weight_add (bs cs : Multiset MemBlock) :
    weight (bs + cs) = weight bs + weight cs := by
  simp [weight]

@[simp] theorem weight_singleton (b : MemBlock) : weight {b} = b.size := by simp [weight]

theorem weight_le {bs : Multiset MemBlock} {m : Memory} (h : bs ≤ m.live) :
    weight bs ≤ sizeMax := BlockLedger.sum_size_le h

theorem weight_value {v : Value} (h : v.Sound) : sizeofValue ≤ weight v.blocks := by
  have hnode := h.header.node.size
  cases v with
  | int hd i =>
      simp only [Value.blocks, weight_singleton]
      exact hnode.ge
  | string hd str =>
      simp only [Value.blocks, weight_add, weight_singleton]
      exact hnode.ge.trans (Nat.le_add_right _ _)
  | list hd slots =>
      simp only [Value.blocks, weight_add, weight_singleton, Nat.add_assoc]
      exact hnode.ge.trans (Nat.le_add_right _ _)
  | dict hd slots =>
      simp only [Value.blocks, weight_add, weight_singleton, Nat.add_assoc]
      exact hnode.ge.trans (Nat.le_add_right _ _)

theorem weight_items {vs : List Value} (h : SoundItems vs) :
    vs.length * sizeofValue ≤ weight (itemsBlocks vs) := by
  induction vs with
  | nil => simp
  | cons v vs ih =>
      have hv := weight_value h.1
      have hvs := ih h.2
      simp only [itemsBlocks, weight_add, List.length_cons, Nat.succ_mul]
      omega

theorem weight_entries {a : AllocRef} {es : List (Entry Value)} (h : SoundEntries a es) :
    es.length * sizeofValue ≤ weight (entriesBlocks es) := by
  induction es with
  | nil => simp
  | cons e es ih =>
      obtain ⟨key, v⟩ := e
      have hv := weight_value h.2.1
      have hes := ih h.2.2
      simp only [entriesBlocks, weight_add, List.length_cons, Nat.succ_mul]
      omega

theorem weight_array {a : AllocRef} {elementSize capacity : Nat} {block : Option MemBlock}
    (h : ArraySound a elementSize capacity block) :
    weight (optionBlock block) = capacity * elementSize := by
  cases block with
  | none =>
      have hzero : capacity = 0 := h
      simp [optionBlock, hzero]
  | some b => simpa [optionBlock] using h.2.size

theorem list_can_grow {h : Header} {s : Slots Value} {m : Memory} (sound : (Value.list h s).Sound)
    (live : (Value.list h s).blocks ≤ m.live) : s.items.length * 2 * sizeofPointer ≤ sizeMax := by
  obtain ⟨block, capacity, items⟩ := s
  have hle := weight_le live
  have hitems := weight_items sound.2.2
  simp only [Value.blocks, weight_add, sizeofValue, sizeofPointer] at hle hitems ⊢
  omega

theorem dict_can_grow {h : Header} {s : Slots (Entry Value)} {m : Memory}
    (sound : (Value.dict h s).Sound) (live : (Value.dict h s).blocks ≤ m.live) :
    s.items.length * 2 * sizeofEntry ≤ sizeMax := by
  obtain ⟨block, capacity, entries⟩ := s
  have hle := weight_le live
  obtain ⟨-, hslots, -, hentries⟩ := sound
  have hweight := weight_entries hentries
  have harray := weight_array hslots.array
  have hcount := hslots.count
  simp only [Value.blocks, weight_add, sizeofValue, sizeofEntry] at hle hweight harray hcount ⊢
  omega

/-! ## Attaching -/

/-- What handing `child` to the container `old` may do; `made` describes the container after
success. -/
inductive Attached (old child : Value) (made : Value → Prop) (m : Memory) :
    Status → Option Value → Memory → Prop
  | ok {new : Value} {m' : Memory} (sound : new.Sound) (header : new.header = old.header)
      (content : made new) (blocks : m.Exchange m' (old.blocks + child.blocks) new.blocks)
      (granted : m'.refused = m.refused) : Attached old child made m .ok (some new) m'
  | nomem {m' : Memory} (blocks : m.Exchange m' 0 0) (refused : m.refused < m'.refused) :
      Attached old child made m .errNomem (some old) m'

def WithItem (h : Header) (s : Slots Value) (child : Value) (v : Value) : Prop :=
  ∃ s', v = .list h s' ∧ s'.items = s.items ++ [child]

/-- A dict that now ends with the entry `k`, `child`, when `k` was above all its keys. -/
def WithLastEntry (h : Header) (s : Slots (Entry Value)) (k : Bytes) (child : Value) (v : Value) :
    Prop :=
  ∃ s', v = .dict h s' ∧ ((∀ l ∈ storedKeys s.items, l < k) →
    ∃ copy : KeyCopy, copy.bytes = k ∧ s'.items = s.items ++ [⟨copy, child⟩])

theorem Appended.attached {h : Header} {s : Slots Value} {child : Value} {m m' : Memory}
    {st : Status} {out : Option Value} (hrun : Appended h s child m st out m')
    (sound : (Value.list h s).Sound) (live : (Value.list h s).blocks ≤ m.live) :
    Attached (.list h s) child (WithItem h s child) m st out m' := by
  cases hrun with
  | @ok s' m' sound' items blocks =>
      obtain ⟨hex, hrefused⟩ := blocks live
      refine .ok sound' rfl ⟨s', rfl, items⟩ ?_ hrefused
      obtain ⟨block, capacity, items₀⟩ := s
      obtain ⟨block', capacity', items'⟩ := s'
      have hitems : items' = items₀ ++ [child] := items
      refine (hex.frame ({h.self} + itemsBlocks items₀ + child.blocks)).congr ?_ ?_
      · simp only [Value.blocks]
        abel
      · simp only [Value.blocks, hitems, itemsBlocks_append, itemsBlocks, add_zero]
        abel
  | nomem blocks reason =>
      refine .nomem blocks (reason.resolve_right ?_)
      exact Nat.not_lt_of_le (list_can_grow sound live)

/-! ## Dict entries in place -/

theorem soundEntries_insert {a : AllocRef} {es : List (Entry Value)} {i : Nat} {e : Entry Value}
    (h : SoundEntries a es) (hkey : e.key.Sound a) (hvalue : e.value.Sound) :
    SoundEntries a (es.take i ++ e :: es.drop i) := by
  rw [soundEntries_iff] at h ⊢
  intro e' he'
  rcases List.mem_append.mp he' with he' | he'
  · exact h e' (List.mem_of_mem_take he')
  · rcases List.mem_cons.mp he' with rfl | he'
    · exact ⟨hkey, hvalue⟩
    · exact h e' (List.mem_of_mem_drop he')

theorem entriesBlocks_insert (es : List (Entry Value)) (i : Nat) (copy : KeyCopy) (child : Value) :
    entriesBlocks (es.take i ++ ⟨copy, child⟩ :: es.drop i) =
      entriesBlocks es + (optionBlock copy.block + child.blocks) := by
  have hsplit : entriesBlocks es = entriesBlocks (es.take i) + entriesBlocks (es.drop i) := by
    rw [← entriesBlocks_append, List.take_append_drop]
  rw [entriesBlocks_append, entriesBlocks, hsplit]
  abel

theorem entry_blocks_le {h : Header} {s : Slots (Entry Value)} {e : Entry Value}
    (he : e ∈ s.items) : e.value.blocks ≤ (Value.dict h s).blocks := by
  obtain ⟨block, capacity, entries⟩ := s
  obtain ⟨front, back, rfl⟩ := List.append_of_mem he
  obtain ⟨key, v⟩ := e
  rw [Multiset.le_iff_exists_add]
  refine ⟨{h.self} + optionBlock block + entriesBlocks front + optionBlock key.block +
    entriesBlocks back, ?_⟩
  simp only [Value.blocks, entriesBlocks_append, entriesBlocks]
  abel

theorem entries_split {es : List (Entry Value)} {i : Nat} {e : Entry Value} (h : es[i]? = some e) :
    ∃ front back, es = front ++ e :: back ∧ front.length = i ∧
      ∀ e', es.set i e' = front ++ e' :: back := by
  obtain ⟨hi, he⟩ := List.getElem?_eq_some_iff.mp h
  refine ⟨es.take i, es.drop (i + 1), ?_, by rw [List.length_take]; omega, fun e' => ?_⟩
  · rw [← he, ← List.drop_eq_getElem_cons hi, List.take_append_drop]
  · rw [List.set_eq_take_append_cons_drop, if_pos hi]

theorem insert_index {entries : List (Entry Value)} {i : Nat} {k : Bytes}
    (le : i ≤ entries.length) (above : ∀ l ∈ (storedKeys entries).drop i, k < l)
    (last : ∀ l ∈ storedKeys entries, l < k) : i = entries.length := by
  have hnil : (storedKeys entries).drop i = [] := by
    rw [List.eq_nil_iff_forall_not_mem]
    intro l hl
    exact lt_asymm (above l hl) (last l (List.mem_of_mem_drop hl))
  have hlen := List.drop_eq_nil_iff.mp hnil
  rw [storedKeys, List.length_map] at hlen
  omega

/-- A key above all keys of a sorted dict is searched for at its end. -/
theorem dictSearch_last {entries : List (Entry Value)} {key : Span} (hkey : key.isBad = false)
    (sorted : (storedKeys entries).Pairwise (· < ·))
    (last : ∀ l ∈ storedKeys entries, l < key.bytes) :
    dictSearch entries key = .ok (entries.length, false) := by
  obtain ⟨⟨i, found⟩, hsearch, hfound⟩ := dictSearch_found hkey sorted
  rw [hsearch]
  cases hfound with
  | hit e hat heq =>
      have hmem : key.bytes ∈ storedKeys entries :=
        List.mem_map.mpr ⟨e, List.mem_of_getElem? hat, heq⟩
      exact absurd (last _ hmem) (lt_irrefl _)
  | miss le below above => rw [insert_index le above last]

theorem WasSet.attached {h : Header} {s : Slots (Entry Value)} {k : Bytes} {child : Value}
    {m m' : Memory} {st : Status} {out : Option Value} (hrun : WasSet h s k child m st out m')
    (sound : (Value.dict h s).Sound) (hchild : child.Sound)
    (live : (Value.dict h s).blocks ≤ m.live) :
    Attached (.dict h s) child (WithLastEntry h s k child) m st out m' := by
  cases hrun with
  | @replaced i e hat heq =>
      have hold := (entry_blocks_le (h := h) (List.mem_of_getElem? hat)).trans live
      obtain ⟨block, capacity, entries⟩ := s
      obtain ⟨key, old⟩ := e
      obtain ⟨front, back, rfl, -, hset⟩ := entries_split hat
      have hentries := (sound_dict_iff.mp sound).2
      have hmem := soundEntries_iff.mp hentries ⟨key, old⟩ (by simp)
      obtain ⟨hfree, hrefused⟩ := frees_value old hmem.2 m hold
      refine .ok ?_ rfl ⟨_, rfl, fun hlast => ?_⟩ ?_ hrefused
      · simp only [hset]
        have hdict : DictSound h ⟨block, capacity, front ++ ⟨key, child⟩ :: back⟩ := by
          rw [← hset]
          exact (sound_dict_iff.mp sound).1.set hat child
        refine sound_dict_iff.mpr ⟨hdict, ?_⟩
        rw [soundEntries_iff] at hentries ⊢
        intro e' he'
        rcases List.mem_append.mp he' with he' | he'
        · exact hentries e' (List.mem_append_left _ he')
        · rcases List.mem_cons.mp he' with rfl | he'
          · exact ⟨hmem.1, hchild⟩
          · exact hentries e' (List.mem_append_right _ (List.mem_cons_of_mem _ he'))
      · have hlt := hlast k (by simp [storedKeys, ← heq])
        exact absurd hlt (lt_irrefl k)
      · simp only [hset]
        refine (hfree.frame ({h.self} + optionBlock block + entriesBlocks front +
          optionBlock key.block + entriesBlocks back + child.blocks)).congr ?_ ?_
        · simp only [Value.blocks, entriesBlocks_append, entriesBlocks]
          abel
        · simp only [Value.blocks, entriesBlocks_append, entriesBlocks]
          abel
  | @inserted i copy s' m' le below above key copied items sound' blocks =>
      obtain ⟨hex, hrefused⟩ := blocks ((array_le_dict h s).trans live)
      obtain ⟨block, capacity, entries⟩ := s
      obtain ⟨block', capacity', entries'⟩ := s'
      have hitems : entries' = entries.take i ++ ⟨copy, child⟩ :: entries.drop i := items
      refine .ok (sound_dict_iff.mpr ⟨sound', ?_⟩) rfl ⟨_, rfl, fun hlast => ?_⟩ ?_ hrefused
      · rw [show (⟨block', capacity', entries'⟩ : Slots (Entry Value)).items = _ from hitems]
        exact soundEntries_insert (sound_dict_iff.mp sound).2 copied hchild
      · refine ⟨copy, key, ?_⟩
        have hi := insert_index le above hlast
        dsimp only at hi ⊢
        rw [hitems, hi, List.take_length, List.drop_length]
      · refine (hex.frame ({h.self} + entriesBlocks entries + child.blocks)).congr ?_ ?_
        · simp only [Value.blocks]
          abel
        · simp only [Value.blocks, hitems, entriesBlocks_insert]
          abel
  | nomem blocks reason =>
      refine .nomem blocks (reason.resolve_right ?_)
      exact Nat.not_lt_of_le (dict_can_grow sound live)

end Bencode
