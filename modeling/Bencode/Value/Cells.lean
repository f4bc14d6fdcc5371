import Bencode.Source.Cells
import Bencode.Value.Dict

/-!
# Arrays and their slots

An array that holds given items has written all slots below its count. Growing,
appending and setting go through on such an array without leaving it, do what they do to
the items, and tell which slots have changed.
-/

namespace Bencode

namespace Cells

variable {α : Type} {c c' : Cells α}

/-! ## Reading what was written -/

theorem read_write {i : Nat} {x : α} (h : c.write i x = some c') (j : Nat) :
    c'.read j = if j = i then some x else c.read j := by
  unfold write at h
  split at h
  · next hi =>
      cases h
      unfold read
      rw [List.getElem?_set]
      by_cases hj : j = i
      · simp [hj, hi]
      · have hj' : ¬ i = j := fun heq => hj heq.symm
        rw [if_neg hj, if_neg hj']
  · cases h

theorem write_room {i : Nat} {x : α} (h : c.write i x = some c') :
    c'.block = c.block ∧ c'.capacity = c.capacity ∧ c'.count = c.count ∧
      c'.slots.length = c.slots.length := by
  unfold write at h
  split at h
  · cases h
    exact ⟨rfl, rfl, rfl, List.length_set⟩
  · cases h

theorem write_inside {i : Nat} (x : α) (hi : i < c.slots.length) :
    ∃ c', c.write i x = some c' := ⟨_, if_pos hi⟩

theorem read_shiftUp {i : Nat} (h : c.shiftUp i = some c') (hi : i < c.count) (j : Nat) :
    c'.read j = if i < j ∧ j ≤ c.count then c.read (j - 1) else c.read j := by
  unfold shiftUp at h
  split at h
  · next hroom =>
      cases h
      unfold read
      have hfront : (c.slots.take (i + 1)).length = i + 1 := by
        rw [List.length_take]
        omega
      have hmoved : ((c.slots.drop i).take (c.count - i)).length = c.count - i := by
        rw [List.length_take, List.length_drop]
        omega
      rw [List.append_assoc]
      by_cases hj : j ≤ i
      · rw [if_neg (by omega), List.getElem?_append_left (by omega),
          List.getElem?_take_of_lt (by omega)]
      · rw [List.getElem?_append_right (by omega), hfront]
        by_cases hj' : j ≤ c.count
        · rw [if_pos ⟨by omega, hj'⟩, List.getElem?_append_left (by omega),
            List.getElem?_take_of_lt (by omega), List.getElem?_drop]
          congr 2
          omega
        · rw [if_neg (by omega), List.getElem?_append_right (by omega), hmoved,
            List.getElem?_drop]
          congr 2
          omega
  · cases h

theorem shiftUp_room {i : Nat} (h : c.shiftUp i = some c') (hi : i < c.count) :
    c'.block = c.block ∧ c'.capacity = c.capacity ∧ c'.count = c.count ∧
      c'.slots.length = c.slots.length := by
  unfold shiftUp at h
  split at h
  · next hroom =>
      cases h
      refine ⟨rfl, rfl, rfl, ?_⟩
      simp only [List.length_append, List.length_take, List.length_drop]
      omega
  · cases h

theorem shiftUp_inside {i : Nat} (hroom : c.count + 1 ≤ c.slots.length) :
    ∃ c', c.shiftUp i = some c' := ⟨_, if_pos hroom⟩

structure Holds (c : Cells α) (s : Slots α) : Prop where
  block : c.block = s.block
  capacity : c.capacity = s.capacity
  count : c.count = s.items.length
  room : c.slots.length = c.capacity
  stored : ∀ i, i < c.count → c.read i = s.items[i]?

theorem empty_holds : (empty : Cells α).Holds ⟨none, 0, []⟩ :=
  ⟨rfl, rfl, rfl, rfl, fun _ hi => absurd hi (Nat.not_lt_zero _)⟩

/-! ## `grow_array` -/

theorem Holds.copyInto {s : Slots α} {newCap : Nat} (hc : c.Holds s)
    (count : s.items.length ≤ s.capacity) (larger : s.capacity ≤ newCap) (fresh : MemBlock) :
    ∃ slots, c.copyInto newCap = some slots ∧
      (⟨some fresh, newCap, c.count, slots⟩ : Cells α).Holds
        ⟨some fresh, newCap, s.items.take s.capacity⟩ := by
  have hcapacity := hc.capacity
  have hroom := hc.room
  have hcount := hc.count
  refine ⟨_, if_pos ⟨hroom.ge, hcapacity.trans_le larger⟩, rfl, rfl, ?_, ?_, ?_⟩
  · rw [List.take_of_length_le count]
    exact hcount
  · simp only [List.length_append, List.length_take, List.length_replicate]
    omega
  · intro i hi
    have hi' : i < c.capacity := by
      dsimp only at hi
      omega
    have hstored := hc.stored i hi
    unfold read at hstored ⊢
    dsimp only
    rw [List.take_of_length_le count, ← hstored, List.getElem?_append_left,
      List.getElem?_take_of_lt hi']
    rw [List.length_take, hroom]
    omega

theorem items_nil {a : AllocRef} {elementSize : Nat} {s : Slots α} (hs : s.Sound a elementSize)
    (noArray : ¬ (s.block ≠ none ∧ s.capacity > 0)) : s.items.length = 0 := by
  have hcount := hs.count
  have harray := hs.array
  cases hblock : s.block with
  | none =>
      rw [hblock] at harray
      have hzero : s.capacity = 0 := harray
      omega
  | some b =>
      rw [hblock] at harray noArray
      exact absurd ⟨by simp, harray.1⟩ noArray

theorem growArray_holds {a : AllocRef} {elementSize needed : Nat} {s s' : Slots α}
    {m m' : Memory} {st : Status} (hc : c.Holds s) (hs : s.Sound a elementSize)
    (helem : 0 < elementSize)
    (hrun : Bencode.growArray a s elementSize needed m = (st, s', m')) :
    ∃ c', c.growArray a elementSize needed m = some (st, c', m') ∧ c'.Holds s' ∧
      (st ≠ .ok → c' = c) := by
  have hcap : s.capacity ≤ sizeMax := (Nat.le_mul_of_pos_right _ helem).trans hs.fits
  obtain ⟨hpos, hle, hmax⟩ := start_bounds hcap (by decide : 0 < 4) (by decide)
  unfold Bencode.growArray at hrun
  unfold growArray
  rw [hc.capacity]
  by_cases hroom : needed ≤ s.capacity
  · rw [if_pos hroom] at hrun ⊢
    cases hrun
    exact ⟨c, rfl, hc, fun _ => rfl⟩
  rw [if_neg hroom] at hrun ⊢
  cases hgrowth : doubleUntil (fun cap => decide (needed ≤ cap)) doublingFuel
      (if s.capacity = 0 then 4 else s.capacity) with
  | overflow =>
      simp only [hgrowth] at hrun ⊢
      cases hrun
      exact ⟨c, rfl, hc, fun _ => rfl⟩
  | diverged => exact absurd hgrowth (doubleUntil_ends hpos (doublingFuel_suffices hpos) hmax)
  | cap newCap =>
      have hnew : s.capacity ≤ newCap :=
        hle.trans ((doubleUntil_tested .start hgrowth).2.bounds hmax).1
      simp only [hgrowth] at hrun ⊢
      by_cases hbig : newCap > sizeMax / elementSize
      · rw [if_pos hbig] at hrun ⊢
        cases hrun
        exact ⟨c, rfl, hc, fun _ => rfl⟩
      rw [if_neg hbig] at hrun ⊢
      have hroom' : newCap * elementSize % sizeMod / elementSize = newCap := by
        rw [(size_mod helem hbig).2, Nat.mul_div_cancel _ helem]
      rw [hroom']
      cases halloc : bencodeAlloc a (newCap * elementSize % sizeMod) m with
      | mk fresh m₁ =>
          rw [halloc] at hrun
          cases fresh with
          | none =>
              cases hrun
              exact ⟨c, rfl, hc, fun _ => rfl⟩
          | some fresh =>
              dsimp only at hrun ⊢
              rw [hc.block]
              by_cases hold : s.block ≠ none ∧ s.capacity > 0
              · rw [if_pos hold] at hrun ⊢
                cases hrun
                obtain ⟨slots, hcopy, hheld⟩ := hc.copyInto hs.count hnew fresh
                rw [hcopy]
                exact ⟨_, rfl, hheld, fun hbad => absurd rfl hbad⟩
              · rw [if_neg hold] at hrun ⊢
                cases hrun
                refine ⟨_, rfl, ⟨rfl, rfl, ?_, ?_, ?_⟩, fun hbad => absurd rfl hbad⟩
                · exact hc.count.trans (items_nil hs hold)
                · exact List.length_replicate
                · intro i hi
                  have hcount : c.count = 0 := hc.count.trans (items_nil hs hold)
                  dsimp only at hi
                  omega

/-! ## Writing an item -/

section Items

variable {s : Slots α}

theorem Holds.write_end (hc : c.Holds s) (x : α) (room : s.items.length < s.capacity) :
    ∃ c', c.write c.count x = some c' ∧
      ({ c' with count := c.count + 1 } : Cells α).Holds { s with items := s.items ++ [x] } := by
  have hinside : c.count < c.slots.length := by
    have := hc.count
    have := hc.room
    have := hc.capacity
    omega
  obtain ⟨c', hwrite⟩ := write_inside x hinside
  obtain ⟨hblock, hcapacity, -, hlength⟩ := write_room hwrite
  refine ⟨c', hwrite, hblock.trans hc.block, hcapacity.trans hc.capacity, ?_, ?_, ?_⟩
  · simp only [List.length_append, List.length_singleton, hc.count]
  · exact hlength.trans (hc.room.trans hcapacity.symm)
  · intro i hi
    have hread : c'.read i = if i = c.count then some x else c.read i := read_write hwrite i
    show c'.read i = (s.items ++ [x])[i]?
    rw [hread]
    by_cases hlast : i = c.count
    · rw [if_pos hlast, hlast, hc.count, List.getElem?_concat_length]
    · have hi' : i < c.count := by
        dsimp only at hi
        omega
      rw [if_neg hlast, hc.stored i hi', List.getElem?_append_left (hc.count ▸ hi')]

theorem Holds.set (hc : c.Holds s) {i : Nat} (x : α) (hi : i < s.items.length)
    (count : s.items.length ≤ s.capacity) :
    ∃ c', c.write i x = some c' ∧ c'.Holds { s with items := s.items.set i x } := by
  have hinside : i < c.slots.length := by
    have := hc.room
    have := hc.capacity
    omega
  obtain ⟨c', hwrite⟩ := write_inside x hinside
  obtain ⟨hblock, hcapacity, hcount, hlength⟩ := write_room hwrite
  refine ⟨c', hwrite, hblock.trans hc.block, hcapacity.trans hc.capacity, ?_, ?_, ?_⟩
  · rw [List.length_set]
    exact hcount.trans hc.count
  · exact hlength.trans (hc.room.trans hcapacity.symm)
  · intro j hj
    rw [read_write hwrite, List.getElem?_set]
    by_cases hij : j = i
    · rw [if_pos hij, if_pos hij.symm, if_pos hi]
    · have hij' : ¬ i = j := fun heq => hij heq.symm
      rw [if_neg hij, if_neg hij']
      exact hc.stored j (hcount ▸ hj)

/-- Making room at `i`, which is skipped at the end. -/
theorem moved_up {i : Nat} (room : c.count + 1 ≤ c.slots.length) :
    ∃ c₁, (if i < c.count then c.shiftUp i else some c) = some c₁ ∧
      c₁.block = c.block ∧ c₁.capacity = c.capacity ∧ c₁.count = c.count ∧
      c₁.slots.length = c.slots.length ∧
      ∀ j, j ≤ c.count → c₁.read j = if i < j then c.read (j - 1) else c.read j := by
  by_cases hlt : i < c.count
  · obtain ⟨c₁, hshift⟩ := shiftUp_inside (i := i) room
    obtain ⟨hblock, hcapacity, hcount, hlength⟩ := shiftUp_room hshift hlt
    refine ⟨c₁, (if_pos hlt).trans hshift, hblock, hcapacity, hcount, hlength, ?_⟩
    intro j hj
    rw [read_shiftUp hshift hlt]
    simp only [hj, and_true]
  · refine ⟨c, if_neg hlt, rfl, rfl, rfl, rfl, ?_⟩
    intro j hj
    rw [if_neg (by omega)]

theorem getElem?_put {l : List α} {i : Nat} (hi : i ≤ l.length) (x : α) (j : Nat) :
    (l.take i ++ x :: l.drop i)[j]? =
      if j < i then l[j]? else if j = i then some x else l[j - 1]? := by
  have hfront : (l.take i).length = i := by
    rw [List.length_take]
    omega
  by_cases hlt : j < i
  · rw [if_pos hlt, List.getElem?_append_left (by omega), List.getElem?_take_of_lt hlt]
  · rw [if_neg hlt, List.getElem?_append_right (by omega), hfront]
    by_cases hji : j = i
    · simp [hji]
    · have hback : j - i = (j - 1 - i) + 1 := by omega
      rw [if_neg hji, hback, List.getElem?_cons_succ, List.getElem?_drop]
      congr 1
      omega

theorem Holds.insert (hc : c.Holds s) {i : Nat} (x : α) (hi : i ≤ s.items.length)
    (room : s.items.length < s.capacity) :
    ∃ c₁ c₂, (if i < c.count then c.shiftUp i else some c) = some c₁ ∧
      c₁.write i x = some c₂ ∧ c₂.count = c.count ∧
      (∀ j, j ≤ c.count → c₂.read j =
        if j < i then c.read j else if j = i then some x else c.read (j - 1)) ∧
      ({ c₂ with count := c.count + 1 } : Cells α).Holds
        { s with items := s.items.take i ++ x :: s.items.drop i } := by
  have hroom : c.count + 1 ≤ c.slots.length := by
    have := hc.count
    have := hc.room
    have := hc.capacity
    omega
  have hi' : i ≤ c.count := hc.count ▸ hi
  obtain ⟨c₁, hshift, hblock, hcapacity, hcount, hlength, hread⟩ := moved_up (i := i) hroom
  obtain ⟨c₂, hwrite⟩ := write_inside (c := c₁) x (hlength.symm ▸ (by omega : i < c.slots.length))
  obtain ⟨hblock₂, hcapacity₂, hcount₂, hlength₂⟩ := write_room hwrite
  have hread₂ : ∀ j, j ≤ c.count → c₂.read j =
      if j < i then c.read j else if j = i then some x else c.read (j - 1) := by
    intro j hj
    rw [read_write hwrite, hread j hj]
    by_cases hji : j = i
    · simp [hji]
    · by_cases hlt : j < i
      · rw [if_neg hji, if_neg (by omega), if_pos hlt]
      · rw [if_neg hji, if_pos (by omega), if_neg hlt, if_neg hji]
  refine ⟨c₁, c₂, hshift, hwrite, hcount₂.trans hcount, hread₂, ?_, ?_, ?_, ?_, ?_⟩
  · exact (hblock₂.trans hblock).trans hc.block
  · exact (hcapacity₂.trans hcapacity).trans hc.capacity
  · simp only [List.length_append, List.length_cons, List.length_take, List.length_drop, hc.count]
    omega
  · exact (hlength₂.trans hlength).trans
      (hc.room.trans (hcapacity₂.trans hcapacity).symm)
  · intro j hj
    have hj' : j ≤ c.count := Nat.le_of_lt_succ hj
    show c₂.read j = (s.items.take i ++ x :: s.items.drop i)[j]?
    rw [hread₂ j hj', getElem?_put hi]
    by_cases hlt : j < i
    · rw [if_pos hlt, if_pos hlt, hc.stored j (by omega)]
    · rw [if_neg hlt, if_neg hlt]
      by_cases hji : j = i
      · rw [if_pos hji, if_pos hji]
      · rw [if_neg hji, if_neg hji, hc.stored (j - 1) (by omega)]

end Items

end Cells

end Bencode
