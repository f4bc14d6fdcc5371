import Bencode.Value.Ownership

/-!
# Growing arrays

Doubling never wraps and ends with a capacity that is large enough, or reports an
overflow. Growing an array keeps its items, leaves room for one more and trades the
old block for the new one; on failure nothing has changed.
-/

namespace Bencode

/-! ## Doubling -/

theorem double_mod {k : Nat} (half : ¬ k > sizeMax / 2) :
    k * 2 ≤ sizeMax ∧ k * 2 % sizeMod = k * 2 := by
  unfold sizeMax sizeMod at half
  constructor
  · unfold sizeMax sizeMod
    omega
  · apply Nat.mod_eq_of_lt
    unfold sizeMod
    omega

inductive Tested (enough : Nat → Bool) (cap : Nat) : Nat → Prop
  | start : Tested enough cap cap
  | doubled {k : Nat} (before : Tested enough cap k) (short : enough k = false)
      (half : ¬ k > sizeMax / 2) : Tested enough cap (k * 2 % sizeMod)

theorem Tested.bounds {enough : Nat → Bool} {cap k : Nat} (h : Tested enough cap k)
    (hcap : cap ≤ sizeMax) : cap ≤ k ∧ k ≤ sizeMax := by
  induction h with
  | start => exact ⟨Nat.le_refl _, hcap⟩
  | doubled before short half ih =>
      obtain ⟨hmax, hmod⟩ := double_mod half
      rw [hmod]
      exact ⟨by omega, hmax⟩

theorem doubleUntil_tested {enough : Nat → Bool} {fuel cap k n : Nat} (tested : Tested enough cap k)
    (h : doubleUntil enough fuel k = .cap n) : enough n = true ∧ Tested enough cap n := by
  induction fuel generalizing k with
  | zero =>
      simp only [doubleUntil] at h
      split at h
      · next hen =>
          cases h
          exact ⟨hen, tested⟩
      · cases h
  | succ fuel ih =>
      simp only [doubleUntil] at h
      split at h
      · next hen =>
          cases h
          exact ⟨hen, tested⟩
      · next hen =>
          split at h
          · cases h
          · next half => exact ih (.doubled tested (by simpa using hen) half) h

/-- A capacity other than the first is twice one that was too small. -/
theorem Tested.last {enough : Nat → Bool} {cap n : Nat} (h : Tested enough cap n)
    (hcap : cap ≤ sizeMax) : n = cap ∨ ∃ k, enough k = false ∧ cap ≤ k ∧ n = k * 2 := by
  cases h with
  | start => exact .inl rfl
  | doubled before short half =>
      exact .inr ⟨_, short, (before.bounds hcap).1, (double_mod half).2⟩

theorem doubleUntil_overflow {enough : Nat → Bool} {fuel cap k : Nat} (tested : Tested enough cap k)
    (h : doubleUntil enough fuel k = .overflow) :
    ∃ n, Tested enough cap n ∧ enough n = false ∧ sizeMax / 2 < n := by
  induction fuel generalizing k with
  | zero =>
      simp only [doubleUntil] at h
      split at h <;> cases h
  | succ fuel ih =>
      simp only [doubleUntil] at h
      split at h
      · cases h
      · next hen =>
          have hshort : enough k = false := by simpa using hen
          split at h
          · next hhalf => exact ⟨k, tested, hshort, hhalf⟩
          · next half => exact ih (.doubled tested hshort half) h

/-- With enough rounds for the capacity to pass the largest size the loop ends. -/
theorem doubleUntil_ends {enough : Nat → Bool} {fuel cap : Nat} (hpos : 0 < cap)
    (hfuel : sizeMod ≤ cap * 2 ^ fuel) (hcap : cap ≤ sizeMax) :
    doubleUntil enough fuel cap ≠ .diverged := by
  induction fuel generalizing cap with
  | zero =>
      unfold sizeMax at hcap
      have : 0 < sizeMod := by decide
      omega
  | succ fuel ih =>
      simp only [doubleUntil]
      split
      · simp
      · split
        · simp
        · next hhalf =>
            obtain ⟨hmax, hmod⟩ := double_mod hhalf
            rw [hmod]
            refine ih (by omega) ?_ hmax
            rwa [Nat.mul_assoc, ← Nat.pow_succ']

/-- The start capacity of the code doubles past the largest size within its rounds. -/
theorem doublingFuel_suffices {cap : Nat} (hpos : 0 < cap) : sizeMod ≤ cap * 2 ^ doublingFuel :=
  Nat.le_mul_of_pos_left _ hpos

/-- The doubling starts from the old capacity, or from `first` without one. -/
theorem start_bounds {capacity first : Nat} (hcap : capacity ≤ sizeMax) (hfirst : 0 < first)
    (hmax : first ≤ sizeMax) :
    0 < (if capacity = 0 then first else capacity) ∧
      capacity ≤ (if capacity = 0 then first else capacity) ∧
      (if capacity = 0 then first else capacity) ≤ sizeMax := by
  split <;> omega

/-! ## Requests -/

theorem bencodeAlloc_some {a : AllocRef} {size : Nat} {m m' : Memory} {b : MemBlock}
    (h : bencodeAlloc a size m = (some b, m')) (hpos : 0 < size) :
    FromAlloc a b size ∧ size ≤ sizeMax ∧ m.Exchange m' 0 {b} ∧ m'.refused = m.refused := by
  obtain ⟨hpool, hsize, hgrants, hrefused, hex⟩ := BlockLedger.request_some h
  exact ⟨⟨hpool, hsize⟩, (Nat.le_add_left _ _).trans hgrants.2, hex hpos, hrefused⟩

theorem bencodeAlloc_none {a : AllocRef} {size : Nat} {m m' : Memory}
    (h : bencodeAlloc a size m = (none, m')) (hpos : 0 < size) :
    m.Exchange m' 0 0 ∧ m.refused < m'.refused := by
  obtain ⟨hrefused, hex⟩ := BlockLedger.request_none h
  exact ⟨hex hpos, by omega⟩

theorem bencodeFree_refused (a : AllocRef) (ptr : Option MemBlock) (m : Memory) :
    (bencodeFree a ptr m).refused = m.refused := by
  cases ptr with
  | none => rfl
  | some b =>
      unfold bencodeFree BlockLedger.release
      dsimp only
      split <;> rfl

/-! ## `grow_array` -/

/-- One more than the count of a sound array is a size. -/
theorem Slots.Sound.count_mod {α : Type} {a : AllocRef} {elementSize : Nat} {s : Slots α}
    (hs : s.Sound a elementSize) (helem : 2 ≤ elementSize) :
    (s.items.length + 1) % sizeMod = s.items.length + 1 := by
  have hcount := hs.count
  have hcap : s.capacity * 2 ≤ sizeMax := (Nat.mul_le_mul_left _ helem).trans hs.fits
  apply Nat.mod_eq_of_lt
  unfold sizeMax at hcap
  have : 2 < sizeMod := by decide
  omega

section Grow

variable {α : Type} {a : AllocRef} {elementSize : Nat} {s s' : Slots α} {m m' : Memory}
  {st : Status}

inductive Grown (a : AllocRef) (elementSize : Nat) (s : Slots α) (m : Memory) :
    Status → Slots α → Memory → Prop
  | ok {s' : Slots α} {m' : Memory} (sound : s'.Sound a elementSize) (items : s'.items = s.items)
      (room : s.items.length < s'.capacity)
      (blocks : optionBlock s.block ≤ m.live →
        m.Exchange m' (optionBlock s.block) (optionBlock s'.block) ∧ m'.refused = m.refused) :
      Grown a elementSize s m .ok s' m'
  | nomem {m' : Memory} (blocks : m.Exchange m' 0 0)
      (reason : m.refused < m'.refused ∨ sizeMax < s.items.length * 2 * elementSize) :
      Grown a elementSize s m .errNomem s m'

theorem size_mod {n : Nat} (helem : 0 < elementSize) (small : ¬ n > sizeMax / elementSize) :
    n * elementSize ≤ sizeMax ∧ n * elementSize % sizeMod = n * elementSize := by
  have hproduct : n * elementSize ≤ sizeMax :=
    (Nat.le_div_iff_mul_le helem).mp (Nat.le_of_not_lt small)
  refine ⟨hproduct, Nat.mod_eq_of_lt ?_⟩
  unfold sizeMax at hproduct
  have : 0 < sizeMod := by decide
  omega

/-- The guard before the request only stops an array whose old size was out of reach of twice its
items. -/
theorem size_guard {n : Nat} (helem : 0 < elementSize) (helem' : elementSize ≤ 24)
    (full : s.items.length = s.capacity)
    (tested : Tested (fun cap => decide (s.items.length + 1 ≤ cap))
      (if s.capacity = 0 then 4 else s.capacity) n)
    (hmax : (if s.capacity = 0 then 4 else s.capacity) ≤ sizeMax)
    (henough : s.items.length + 1 ≤ n) (large : n > sizeMax / elementSize) :
    sizeMax < s.items.length * 2 * elementSize := by
  have hlarge : sizeMax < n * elementSize := (Nat.div_lt_iff_lt_mul helem).mp large
  refine hlarge.trans_le (Nat.mul_le_mul_right _ ?_)
  rcases tested.last hmax with rfl | ⟨k, hk, -, rfl⟩
  · split at henough
    · next hzero =>
        exfalso
        have h4 : (4 : Nat) * 24 ≤ sizeMax := by decide
        rw [if_pos hzero] at hlarge
        have := Nat.mul_le_mul_left 4 helem'
        omega
    · omega
  · simp only [decide_eq_false_iff_not] at hk
    omega

theorem fresh_grown (checked : bencodeAllocatorCheck a = .ok) (hs : s.Sound a elementSize)
    (full : s.items.length = s.capacity) {newCap : Nat} {fresh : MemBlock} {m₁ : Memory}
    (henough : s.items.length + 1 ≤ newCap) (hproduct : newCap * elementSize ≤ sizeMax)
    (hfresh : FromAlloc a fresh (newCap * elementSize)) (hex : m.Exchange m₁ 0 {fresh})
    (hrefused : m₁.refused = m.refused)
    (h : (if s.block ≠ none ∧ s.capacity > 0 then
        (.ok, ⟨some fresh, newCap, s.items.take s.capacity⟩, bencodeFree a s.block m₁)
      else (.ok, ⟨some fresh, newCap, []⟩, m₁)) = (st, s', m')) :
    Grown a elementSize s m st s' m' := by
  have hcap : 0 < newCap := by omega
  have harray := hs.array
  cases hblock : s.block with
  | none =>
      rw [hblock] at harray
      have hzero : s.capacity = 0 := harray
      have hnil : s.items = [] := List.length_eq_zero_iff.mp (by omega)
      rw [if_neg (by simp [hblock])] at h
      cases h
      refine .ok ⟨Nat.zero_le _, hproduct, hcap, hfresh⟩ hnil.symm
        (Nat.lt_of_succ_le henough) fun _ => ?_
      rw [hblock]
      exact ⟨hex, hrefused⟩
  | some b =>
      rw [hblock] at harray
      obtain ⟨hpos, hb⟩ := harray
      rw [if_pos ⟨by simp [hblock], hpos⟩, ← full, List.take_length] at h
      cases h
      refine .ok ⟨by dsimp only; omega, hproduct, hcap, hfresh⟩ rfl
        (Nat.lt_of_succ_le henough) fun hlive => ?_
      rw [hblock] at hlive ⊢
      have hmid := hex.still_live hlive
      obtain ⟨hfree, hfree'⟩ := bencodeFree_sound checked hb
        (Multiset.mem_of_le hmid (Multiset.mem_add.mpr (.inl (Multiset.mem_singleton_self b))))
      exact ⟨(hex.trans hfree).congr (zero_add _) (add_zero _), hfree'.trans hrefused⟩

theorem growArray_grown (checked : bencodeAllocatorCheck a = .ok) (hs : s.Sound a elementSize)
    (helem : 2 ≤ elementSize) (helem' : elementSize ≤ 24)
    (h : growArray a s elementSize ((s.items.length + 1) % sizeMod) m = (st, s', m')) :
    Grown a elementSize s m st s' m' := by
  have hcount := hs.count
  have hcap : s.capacity ≤ sizeMax := (Nat.le_mul_of_pos_right _ (by omega)).trans hs.fits
  rw [hs.count_mod helem, growArray] at h
  split at h
  · next hroom =>
      cases h
      exact .ok hs rfl hroom fun _ => ⟨⟨rfl, rfl, Nat.le_refl _⟩, rfl⟩
  · next hfull =>
      have full : s.items.length = s.capacity := by omega
      obtain ⟨hpos, -, hmax⟩ := start_bounds hcap (by decide : 0 < 4) (by decide)
      split at h
      · next hover =>
          cases h
          obtain ⟨k, -, hk, hhalf⟩ := doubleUntil_overflow .start hover
          refine .nomem (.refl _) (.inr ?_)
          have hlarge : sizeMax < s.items.length * 2 := by
            simp only [decide_eq_false_iff_not] at hk
            omega
          exact hlarge.trans_le (Nat.le_mul_of_pos_right _ (by omega))
      · next hdiv => exact absurd hdiv (doubleUntil_ends hpos (doublingFuel_suffices hpos) hmax)
      · next newCap hnew =>
          obtain ⟨henough, htested⟩ := doubleUntil_tested .start hnew
          have henough : s.items.length + 1 ≤ newCap := of_decide_eq_true henough
          split at h
          · next hbig =>
              cases h
              exact .nomem (.refl _)
                (.inr (size_guard (by omega) helem' full htested hmax henough hbig))
          · next hsmall =>
              obtain ⟨hproduct, hmul⟩ := size_mod (by omega) hsmall
              have hsize : 0 < newCap * elementSize := Nat.mul_pos (by omega) (by omega)
              rw [hmul] at h
              split at h
              · next halloc =>
                  cases h
                  obtain ⟨hex, hrefused⟩ := bencodeAlloc_none halloc hsize
                  exact .nomem hex (.inl hrefused)
              · next fresh m₁ halloc =>
                  obtain ⟨hfresh, -, hex, hrefused⟩ := bencodeAlloc_some halloc hsize
                  exact fresh_grown checked hs full henough hproduct hfresh hex hrefused h

theorem Slots.write_end (s : Slots α) (x : α) (m : Memory) (room : s.items.length < s.capacity) :
    s.write s.items.length x m = ({ s with items := s.items ++ [x] }, m) := by
  rw [Slots.write, if_pos ⟨room, Nat.le_refl _⟩]
  simp

theorem Slots.insert_eq (s : Slots α) {i : Nat} (x : α) (m : Memory)
    (hi : i < s.items.length) (room : s.items.length < s.capacity) :
    (s.shiftUp i m).1.write i x (s.shiftUp i m).2 =
      ({ s with items := s.items.take i ++ x :: s.items.drop i }, m) := by
  rw [Slots.shiftUp, if_pos (Nat.succ_le_of_lt room)]
  dsimp only
  have hlen : (s.items.take (i + 1) ++ s.items.drop i).length = s.items.length + 1 := by
    simp only [List.length_append, List.length_take, List.length_drop]
    omega
  rw [Slots.write, if_pos ⟨by dsimp only; omega, by rw [hlen]; omega⟩]
  dsimp only
  rw [List.take_append_of_le_length (by rw [List.length_take]; omega), List.take_take,
    Nat.min_eq_left (Nat.le_succ i),
    List.drop_append_of_le_length (by rw [List.length_take]; omega),
    List.drop_of_length_le (by rw [List.length_take]; omega), List.nil_append]

end Grow

/-! ## `bencode_list_append` -/

inductive Appended (h : Header) (s : Slots Value) (child : Value) (m : Memory) :
    Status → Option Value → Memory → Prop
  | ok {s' : Slots Value} {m' : Memory} (sound : (Value.list h s').Sound)
      (items : s'.items = s.items ++ [child])
      (blocks : (Value.list h s).blocks ≤ m.live →
        m.Exchange m' (optionBlock s.block) (optionBlock s'.block) ∧ m'.refused = m.refused) :
      Appended h s child m .ok (some (.list h s')) m'
  | nomem {m' : Memory} (blocks : m.Exchange m' 0 0)
      (reason : m.refused < m'.refused ∨ sizeMax < s.items.length * 2 * sizeofPointer) :
      Appended h s child m .errNomem (some (.list h s)) m'

theorem array_le_list (h : Header) (s : Slots Value) :
    optionBlock s.block ≤ (Value.list h s).blocks :=
  (Multiset.le_add_left _ _).trans (Multiset.le_add_right _ _)

theorem array_le_dict (h : Header) (s : Slots (Entry Value)) :
    optionBlock s.block ≤ (Value.dict h s).blocks :=
  (Multiset.le_add_left _ _).trans (Multiset.le_add_right _ _)

theorem bencodeListAppend_appended {h : Header} {s : Slots Value} {child : Value} {m m' : Memory}
    {st : Status} {out : Option Value} (hlist : (Value.list h s).Sound) (hchild : child.Sound)
    (hrun : bencodeListAppend (some (.list h s)) (some child) m = (st, out, m')) :
    Appended h s child m st out m' := by
  obtain ⟨block, capacity, items⟩ := s
  obtain ⟨hh, hs, hitems⟩ := hlist
  have hle := array_le_list h ⟨block, capacity, items⟩
  rw [bencodeListAppend] at hrun
  generalize hgrow : growArray h.alloc ⟨block, capacity, items⟩ sizeofPointer
    ((items.length + 1) % sizeMod) m = r at hrun
  obtain ⟨st₁, s₁, m₁⟩ := r
  cases growArray_grown hh.checked hs (by decide) (by decide) hgrow with
  | ok sound same room blocks =>
      obtain ⟨block', capacity', items'⟩ := s₁
      cases (same : items' = items)
      have hwrite := Slots.write_end ⟨block', capacity', items⟩ child m₁ room
      dsimp only at hrun hwrite room
      rw [hwrite] at hrun
      cases hrun
      refine .ok ⟨hh, ⟨?_, sound.fits, sound.array⟩, ?_⟩ rfl fun hlive => blocks (hle.trans hlive)
      · simpa using Nat.succ_le_of_lt room
      · rw [soundItems_iff] at hitems ⊢
        intro v hv
        rcases List.mem_append.mp hv with hv | hv
        · exact hitems v hv
        · rw [List.mem_singleton.mp hv]
          exact hchild
  | nomem blocks reason =>
      cases hrun
      exact .nomem blocks reason

end Bencode
