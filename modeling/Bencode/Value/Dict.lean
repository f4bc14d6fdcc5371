import Bencode.Spec.KeyOrder
import Bencode.Value.Growth

/-!
# Sorted dicts

Binary search in a sorted dict finds the key or the one place where it belongs.
Setting a key therefore replaces one value in place, or inserts one entry and keeps
the dict sorted; when memory runs out the dict is as before.
-/

namespace Bencode

/-! ## Binary search -/

/-- What a search for `k` reports: its entry, or where the keys pass from below to above. -/
inductive Found {α : Type} (entries : List (Entry α)) (k : Bytes) : Nat × Bool → Prop
  | hit {i : Nat} (e : Entry α) (at_ : entries[i]? = some e) (eq : e.key.bytes = k) :
      Found entries k (i, true)
  | miss {i : Nat} (le : i ≤ entries.length) (below : ∀ l ∈ (storedKeys entries).take i, l < k)
      (above : ∀ l ∈ (storedKeys entries).drop i, k < l) : Found entries k (i, false)

section Search

variable {α : Type} {entries : List (Entry α)}

theorem storedKeys_getElem? (i : Nat) :
    (storedKeys entries)[i]? = entries[i]?.map (·.key.bytes) := by
  rw [storedKeys, List.getElem?_map]

theorem sorted_take {i : Nat} {e : Entry α} (sorted : (storedKeys entries).Pairwise (· < ·))
    (hi : entries[i]? = some e) {k : Bytes} (hk : e.key.bytes < k) :
    ∀ l ∈ (storedKeys entries).take (i + 1), l < k := by
  have hget : (storedKeys entries)[i]? = some e.key.bytes := by rw [storedKeys_getElem?, hi]; rfl
  rw [List.take_add_one, hget]
  intro l hl
  rcases List.mem_append.mp hl with hl | hl
  · rw [← List.take_append_drop i (storedKeys entries)] at sorted
    have hmem : e.key.bytes ∈ (storedKeys entries).drop i := by
      apply List.mem_of_getElem? (i := 0)
      rwa [List.getElem?_drop, Nat.add_zero]
    exact ((List.pairwise_append.mp sorted).2.2 l hl _ hmem).trans hk
  · rw [List.mem_singleton.mp hl]
    exact hk

theorem sorted_drop {i : Nat} {e : Entry α} (sorted : (storedKeys entries).Pairwise (· < ·))
    (hi : entries[i]? = some e) {k : Bytes} (hk : k < e.key.bytes) :
    ∀ l ∈ (storedKeys entries).drop i, k < l := by
  have hget : (storedKeys entries)[i]? = some e.key.bytes := by rw [storedKeys_getElem?, hi]; rfl
  have hcons := List.drop_eq_getElem_cons (List.getElem?_eq_some_iff.mp hget).1
  rw [(List.getElem?_eq_some_iff.mp hget).2] at hcons
  have hsub := sorted.sublist (List.drop_sublist i _)
  rw [hcons] at hsub ⊢
  intro l hl
  rcases List.mem_cons.mp hl with rfl | hl
  · exact hk
  · exact hk.trans ((List.pairwise_cons.mp hsub).1 l hl)

theorem dictSearchLoop_found {key : Span} (hkey : key.isBad = false)
    (sorted : (storedKeys entries).Pairwise (· < ·)) (fuel lo hi : Nat) (hfuel : hi - lo ≤ fuel)
    (hle : lo ≤ hi) (hhi : hi ≤ entries.length)
    (below : ∀ l ∈ (storedKeys entries).take lo, l < key.bytes)
    (above : ∀ l ∈ (storedKeys entries).drop hi, key.bytes < l) :
    ∃ r, dictSearchLoop entries key fuel lo hi = .ok r ∧ Found entries key.bytes r := by
  induction fuel generalizing lo hi with
  | zero =>
      have heq : lo = hi := by omega
      subst heq
      refine ⟨(lo, false), ?_, .miss hhi below above⟩
      rw [dictSearchLoop, if_neg (Nat.lt_irrefl lo)]
  | succ fuel ih =>
      rw [dictSearchLoop]
      split
      swap
      · next hge =>
          have heq : lo = hi := by omega
          subst heq
          exact ⟨(lo, false), rfl, .miss hhi below above⟩
      next hlt =>
      have hmid : lo + (hi - lo) / 2 < entries.length := by omega
      have hget : entries[lo + (hi - lo) / 2]? = some entries[lo + (hi - lo) / 2] :=
        List.getElem?_eq_getElem hmid
      obtain ⟨hneg, hzero⟩ :=
        prefixCompare_compares entries[lo + (hi - lo) / 2].key.bytes key.bytes
      simp only [hget, dictCompare_eq _ hkey]
      split
      · next hc => exact ⟨_, rfl, .hit _ hget (hzero.mp hc)⟩
      · next hc =>
          split
          · next hc' =>
              exact ih _ _ (by omega) (by omega) hhi (sorted_take sorted hget (hneg.mp hc')) above
          · next hc' =>
              have hgt := (Compares.pos_iff ⟨hneg, hzero⟩).mp (by omega)
              exact ih _ _ (by omega) (by omega) (by omega) below (sorted_drop sorted hget hgt)

/-- The search ends, reads only stored entries and reports the key or its place. -/
theorem dictSearch_found {key : Span} (hkey : key.isBad = false)
    (sorted : (storedKeys entries).Pairwise (· < ·)) :
    ∃ r, dictSearch entries key = .ok r ∧ Found entries key.bytes r :=
  dictSearchLoop_found hkey sorted _ _ _ (by omega) (Nat.zero_le _) (Nat.le_refl _)
    (by simp) (by
      rw [List.drop_eq_nil_of_le (by simp [storedKeys])]
      simp)

/-- The place for a new key keeps the keys sorted. -/
theorem sorted_insert {keys : List Bytes} {i : Nat} {k : Bytes} (sorted : keys.Pairwise (· < ·))
    (below : ∀ l ∈ keys.take i, l < k) (above : ∀ l ∈ keys.drop i, k < l) :
    (keys.take i ++ k :: keys.drop i).Pairwise (· < ·) := by
  rw [← List.take_append_drop i keys] at sorted
  obtain ⟨htake, hdrop, hcross⟩ := List.pairwise_append.mp sorted
  refine List.pairwise_append.mpr ⟨htake, List.pairwise_cons.mpr ⟨above, hdrop⟩, ?_⟩
  intro l hl l' hl'
  rcases List.mem_cons.mp hl' with rfl | hl'
  · exact below l hl
  · exact hcross l hl l' hl'

end Search

/-! ## `bencode_dict_set` -/

/-- What the dict itself guarantees, whatever its values are. -/
structure DictSound (h : Header) (s : Slots (Entry Value)) : Prop where
  header : h.Sound
  slots : s.Sound h.alloc sizeofEntry
  sorted : (storedKeys s.items).Pairwise (· < ·)

theorem sound_dict_iff {h : Header} {s : Slots (Entry Value)} :
    (Value.dict h s).Sound ↔ DictSound h s ∧ SoundEntries h.alloc s.items :=
  ⟨fun ⟨hh, hs, hsorted, hentries⟩ => ⟨⟨hh, hs, hsorted⟩, hentries⟩,
    fun ⟨⟨hh, hs, hsorted⟩, hentries⟩ => ⟨hh, hs, hsorted, hentries⟩⟩

theorem storedKeys_insert {α : Type} (entries : List (Entry α)) (i : Nat) (copy : KeyCopy)
    (child : α) : storedKeys (entries.take i ++ ⟨copy, child⟩ :: entries.drop i) =
      (storedKeys entries).take i ++ copy.bytes :: (storedKeys entries).drop i := by
  simp [storedKeys, List.map_take, List.map_drop]

theorem storedKeys_set {α : Type} {entries : List (Entry α)} {i : Nat} {e : Entry α}
    (at_ : entries[i]? = some e) (child : α) :
    storedKeys (entries.set i ⟨e.key, child⟩) = storedKeys entries := by
  obtain ⟨hi, he⟩ := List.getElem?_eq_some_iff.mp at_
  have hlt : i < (storedKeys entries).length := by simpa [storedKeys] using hi
  have hkey : e.key.bytes = (storedKeys entries)[i] := by simp [storedKeys, he]
  rw [storedKeys, List.map_set, ← storedKeys]
  dsimp only
  rw [hkey, List.set_getElem_self]

theorem DictSound.set {h : Header} {s : Slots (Entry Value)} {i : Nat} {e : Entry Value}
    (hs : DictSound h s) (at_ : s.items[i]? = some e) (child : Value) :
    DictSound h { s with items := s.items.set i ⟨e.key, child⟩ } := by
  refine ⟨hs.header, ⟨?_, hs.slots.fits, hs.slots.array⟩, ?_⟩
  · simpa using hs.slots.count
  · show (storedKeys (s.items.set i ⟨e.key, child⟩)).Pairwise (· < ·)
    rw [storedKeys_set at_]
    exact hs.sorted

theorem DictSound.insert {h : Header} {s s' : Slots (Entry Value)} {i : Nat} {copy : KeyCopy}
    {child : Value} {k : Bytes} (hs : DictSound h s) (sound : s'.Sound h.alloc sizeofEntry)
    (room : s.items.length < s'.capacity) (key : copy.bytes = k)
    (below : ∀ l ∈ (storedKeys s.items).take i, l < k)
    (above : ∀ l ∈ (storedKeys s.items).drop i, k < l) :
    DictSound h { s' with items := s.items.take i ++ ⟨copy, child⟩ :: s.items.drop i } := by
  refine ⟨hs.header, ⟨?_, sound.fits, sound.array⟩, ?_⟩
  · simp only [List.length_append, List.length_cons, List.length_take, List.length_drop]
    omega
  · dsimp only
    rw [storedKeys_insert, key]
    exact sorted_insert hs.sorted below above

inductive WasSet (h : Header) (s : Slots (Entry Value)) (k : Bytes) (child : Value) (m : Memory) :
    Status → Option Value → Memory → Prop
  | replaced {i : Nat} (e : Entry Value) (at_ : s.items[i]? = some e) (eq : e.key.bytes = k) :
      WasSet h s k child m .ok
        (some (.dict h { s with items := s.items.set i ⟨e.key, child⟩ })) (valueFree e.value m)
  | inserted {i : Nat} {copy : KeyCopy} {s' : Slots (Entry Value)} {m' : Memory}
      (le : i ≤ s.items.length) (below : ∀ l ∈ (storedKeys s.items).take i, l < k)
      (above : ∀ l ∈ (storedKeys s.items).drop i, k < l) (key : copy.bytes = k)
      (copied : copy.Sound h.alloc)
      (items : s'.items = s.items.take i ++ ⟨copy, child⟩ :: s.items.drop i)
      (sound : DictSound h s')
      (blocks : optionBlock s.block ≤ m.live →
        m.Exchange m' (optionBlock s.block) (optionBlock s'.block + optionBlock copy.block) ∧
          m'.refused = m.refused) :
      WasSet h s k child m .ok (some (.dict h s')) m'
  | nomem {m' : Memory} (blocks : m.Exchange m' 0 0)
      (reason : m.refused < m'.refused ∨ sizeMax < s.items.length * 2 * sizeofEntry) :
      WasSet h s k child m .errNomem (some (.dict h s)) m'

/-- The private copy of a key, made in a block of its own unless the key is empty. -/
theorem copyKey_some {a : AllocRef} {key : Span} {m m' : Memory} {copy : KeyCopy}
    (hkey : key.isBad = false) (h : copyKey a key m = (some copy, m')) :
    copy.bytes = key.bytes ∧ copy.Sound a ∧ m.Exchange m' 0 (optionBlock copy.block) ∧
      m'.refused = m.refused := by
  have hlen := Span.length_bytes hkey
  unfold copyKey at h
  split at h
  · next hpos =>
      split at h
      · cases h
      · next b m₁ halloc =>
          cases h
          obtain ⟨hb, hmax, hex, hrefused⟩ := bencodeAlloc_some halloc hpos
          rw [← hlen] at hb hmax hpos
          exact ⟨rfl, ⟨List.ne_nil_of_length_pos hpos, hmax, hb⟩, hex, hrefused⟩
  · next hzero =>
      cases h
      refine ⟨?_, trivial, .refl _, rfl⟩
      have hnil : key.bytes = [] := List.length_eq_zero_iff.mp (by omega)
      rw [hnil]
      rfl

theorem copyKey_none {a : AllocRef} {key : Span} {m m' : Memory}
    (h : copyKey a key m = (none, m')) : m.Exchange m' 0 0 ∧ m.refused < m'.refused := by
  unfold copyKey at h
  split at h
  · next hpos =>
      split at h
      · next halloc =>
          cases h
          exact bencodeAlloc_none halloc hpos
      · cases h
  · cases h

/-- Freeing what was just granted leaves the ledger as it was. -/
theorem free_key_again {a : AllocRef} {copy : KeyCopy} {m m₁ : Memory}
    (checked : bencodeAllocatorCheck a = .ok) (hcopy : copy.Sound a)
    (hex : m.Exchange m₁ 0 (optionBlock copy.block)) {m₂ : Memory} (hmid : m₁.Exchange m₂ 0 0) :
    m.Exchange (bencodeFree a copy.block m₂) 0 0 ∧
      (bencodeFree a copy.block m₂).refused = m₂.refused := by
  have hall := hex.trans hmid
  rw [add_zero, add_zero] at hall
  have hlive : optionBlock copy.block ≤ m₂.live := by
    exact hall.came_live (Multiset.zero_le _)
  obtain ⟨hfree, hrefused⟩ := frees_key checked hcopy m₂ hlive
  exact ⟨((hall.trans hfree).congr rfl (add_comm _ _)).cancel _, hrefused⟩

theorem insertEntry_eq {α : Type} (s : Slots α) {i : Nat} (x : α) (m : Memory)
    (hi : i ≤ s.items.length) (room : s.items.length < s.capacity) :
    Slots.write (if i < s.items.length then s.shiftUp i m else (s, m)).1 i x
        (if i < s.items.length then s.shiftUp i m else (s, m)).2 =
      ({ s with items := s.items.take i ++ x :: s.items.drop i }, m) := by
  by_cases hlt : i < s.items.length
  · simp only [if_pos hlt]
    exact s.insert_eq x m hlt room
  · have heq : i = s.items.length := by omega
    simp only [if_neg hlt]
    rw [heq, s.write_end x m room, List.take_length, List.drop_length]

theorem bencodeDictSet_wasSet {h : Header} {s : Slots (Entry Value)} {key : Span} {child : Value}
    {m m' : Memory} {st : Status} {out : Option Value} (hdict : DictSound h s)
    (hkey : key.isBad = false)
    (hrun : bencodeDictSet (some (.dict h s)) key (some child) m = (st, out, m')) :
    WasSet h s key.bytes child m st out m' := by
  obtain ⟨⟨index, found⟩, hsearch, hfound⟩ := dictSearch_found hkey hdict.sorted
  simp only [bencodeDictSet, hkey, Bool.false_eq_true, if_false, hsearch] at hrun
  cases hfound with
  | hit e hat heq =>
      simp only [hat] at hrun
      cases hrun
      exact .replaced e hat heq
  | miss le below above =>
      dsimp only at hrun
      generalize hcopy : copyKey h.alloc key m = r at hrun
      obtain ⟨copy, m₁⟩ := r
      cases copy with
      | none =>
          cases hrun
          obtain ⟨hex, hrefused⟩ := copyKey_none hcopy
          exact .nomem hex (.inl hrefused)
      | some copy =>
          obtain ⟨hbytes, hsound, hex, hrefused⟩ := copyKey_some hkey hcopy
          dsimp only at hrun
          generalize hgrow : growArray h.alloc s sizeofEntry ((s.items.length + 1) % sizeMod) m₁ = r
            at hrun
          obtain ⟨st₁, s₁, m₂⟩ := r
          cases growArray_grown hdict.header.checked hdict.slots (by decide) (by decide) hgrow with
          | nomem blocks reason =>
              cases hrun
              obtain ⟨hnet, hsame⟩ := free_key_again hdict.header.checked hsound hex blocks
              refine .nomem hnet ?_
              rcases reason with hmore | hlarge
              · exact .inl (by omega)
              · exact .inr hlarge
          | ok sound same room blocks =>
              dsimp only at hrun
              rw [← same] at hrun le
              rw [insertEntry_eq s₁ _ m₂ le (by rwa [same])] at hrun
              cases hrun
              rw [same] at le
              refine .inserted le below above hbytes hsound (by rw [same]) ?_ fun hlive => ?_
              · rw [same]
                exact hdict.insert sound room hbytes below above
              · have hlive₁ := (Multiset.le_add_right _ _).trans (hex.still_live hlive)
                obtain ⟨hex₂, hrefused₂⟩ := blocks hlive₁
                exact ⟨(hex.trans hex₂).congr (zero_add _) (add_comm _ _),
                  hrefused₂.trans hrefused⟩

theorem sorted_index {α : Type} {entries : List (Entry α)} {i j : Nat} {e f : Entry α}
    (sorted : (storedKeys entries).Pairwise (· < ·)) (hi : entries[i]? = some e)
    (hj : entries[j]? = some f) (same : e.key.bytes = f.key.bytes) : i = j := by
  have hi' : (storedKeys entries)[i]? = some e.key.bytes := by rw [storedKeys_getElem?, hi]; rfl
  have hj' : (storedKeys entries)[j]? = some e.key.bytes := by
    rw [storedKeys_getElem?, hj, same]
    rfl
  exact (List.getElem?_inj (List.getElem?_eq_some_iff.mp hi').1 (sorted.imp ne_of_lt)).mp
    (hi'.trans hj'.symm)

theorem Found.mem_iff {α : Type} {entries : List (Entry α)} {k : Bytes} {r : Nat × Bool}
    (h : Found entries k r) : k ∈ storedKeys entries ↔ r.2 = true := by
  cases h with
  | hit e at_ eq =>
      refine iff_of_true ?_ rfl
      rw [← eq]
      exact List.mem_map_of_mem (List.mem_of_getElem? at_)
  | miss le below above =>
      refine iff_of_false (fun hmem => ?_) Bool.false_ne_true
      rw [← List.take_append_drop _ (storedKeys entries), List.mem_append] at hmem
      rcases hmem with hmem | hmem
      · exact lt_irrefl _ (below _ hmem)
      · exact lt_irrefl _ (above _ hmem)

/-- Setting a stored key stores the child in place of the old value, which is freed. -/
theorem bencodeDictSet_replaces {h : Header} {s : Slots (Entry Value)} {key : Span}
    {child : Value} {i : Nat} {e : Entry Value} (hdict : DictSound h s)
    (hkey : key.isBad = false) (at_ : s.items[i]? = some e) (eq : e.key.bytes = key.bytes)
    (m : Memory) :
    bencodeDictSet (some (.dict h s)) key (some child) m =
      (.ok, some (.dict h { s with items := s.items.set i ⟨e.key, child⟩ }),
        valueFree e.value m) := by
  obtain ⟨⟨j, found⟩, hsearch, hfound⟩ := dictSearch_found hkey hdict.sorted
  have hmem : key.bytes ∈ storedKeys s.items := by
    rw [← eq]
    exact List.mem_map_of_mem (List.mem_of_getElem? at_)
  obtain rfl : found = true := hfound.mem_iff.mp hmem
  cases hfound with
  | hit f at' eq' =>
      obtain rfl := sorted_index hdict.sorted at_ at' (eq.trans eq'.symm)
      simp only [bencodeDictSet, hkey, Bool.false_eq_true, if_false, hsearch, at_]

end Bencode
