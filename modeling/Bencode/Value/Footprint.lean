import Bencode.Library.Doubling
import Bencode.Spec.Tree
import Bencode.Value.Clone
import Bencode.Value.Zipper

/-!
# How much memory a tree takes

An array that grows by doubling, from four slots on, has a capacity that depends on the
number of its elements only, and never more than four slots for each. The blocks of a tree
whose arrays are all like that are bounded by the length of its encoding.
-/

namespace Bencode

/-! ## Arrays without spare room -/

def firstCapacity : Nat := 4

/-- The array has been doubled as often as its elements need it. -/
def Slots.Tight {α : Type} (s : Slots α) : Prop :=
  s.capacity = Doubling.capacity firstCapacity s.items.length

theorem Slots.Tight.le {α : Type} {s : Slots α} (h : s.Tight) :
    s.capacity ≤ 4 * s.items.length :=
  (Nat.le_of_eq h).trans (Doubling.capacity_le (show 2 ≤ firstCapacity by decide) _)

mutual

def Value.Tight : Value → Prop
  | .int _ _ => True
  | .string _ _ => True
  | .list _ ⟨block, capacity, items⟩ =>
      Slots.Tight (⟨block, capacity, items⟩ : Slots Value) ∧ TightItems items
  | .dict _ ⟨block, capacity, entries⟩ =>
      Slots.Tight (⟨block, capacity, entries⟩ : Slots (Entry Value)) ∧ TightEntries entries

def TightItems : List Value → Prop
  | [] => True
  | v :: vs => v.Tight ∧ TightItems vs

def TightEntries : List (Entry Value) → Prop
  | [] => True
  | ⟨_, v⟩ :: es => v.Tight ∧ TightEntries es

end

theorem tightItems_iff {vs : List Value} : TightItems vs ↔ ∀ v ∈ vs, v.Tight := by
  induction vs with
  | nil => simp [TightItems]
  | cons v vs ih => simp [TightItems, ih]

theorem tightEntries_iff {es : List (Entry Value)} : TightEntries es ↔ ∀ e ∈ es, e.value.Tight := by
  induction es with
  | nil => simp [TightEntries]
  | cons e es ih =>
      obtain ⟨key, v⟩ := e
      simp [TightEntries, ih]

theorem tight_list_iff {h : Header} {s : Slots Value} :
    (Value.list h s).Tight ↔ s.Tight ∧ ∀ v ∈ s.items, v.Tight := by
  obtain ⟨block, capacity, items⟩ := s
  rw [Value.Tight, tightItems_iff]

theorem tight_dict_iff {h : Header} {s : Slots (Entry Value)} :
    (Value.dict h s).Tight ↔ s.Tight ∧ ∀ e ∈ s.items, e.value.Tight := by
  obtain ⟨block, capacity, entries⟩ := s
  rw [Value.Tight, tightEntries_iff]

theorem tight_inner {l : Layer} {v : Value} (h : (l.fill v).Tight) : v.Tight := by
  cases l with
  | list hd block capacity front back =>
      exact (tight_list_iff.mp h).2 v (List.mem_append_right _ List.mem_cons_self)
  | dict hd block capacity front key back =>
      exact (tight_dict_iff.mp h).2 ⟨key, v⟩ (List.mem_append_right _ List.mem_cons_self)

theorem tight_fill {l : Layer} {v w : Value} (h : (l.fill v).Tight) (hw : w.Tight) :
    (l.fill w).Tight := by
  cases l with
  | list hd block capacity front back =>
      obtain ⟨hroom, hitems⟩ := tight_list_iff.mp h
      refine tight_list_iff.mpr ⟨by simpa [Slots.Tight] using hroom, ?_⟩
      intro u hu
      rcases List.mem_append.mp hu with hu | hu
      · exact hitems u (List.mem_append_left _ hu)
      · rcases List.mem_cons.mp hu with rfl | hu
        · exact hw
        · exact hitems u (List.mem_append_right _ (List.mem_cons_of_mem _ hu))
  | dict hd block capacity front key back =>
      obtain ⟨hroom, hentries⟩ := tight_dict_iff.mp h
      refine tight_dict_iff.mpr ⟨by simpa [Slots.Tight] using hroom, ?_⟩
      intro e he
      rcases List.mem_append.mp he with he | he
      · exact hentries e (List.mem_append_left _ he)
      · rcases List.mem_cons.mp he with rfl | he
        · exact hw
        · exact hentries e (List.mem_append_right _ (List.mem_cons_of_mem _ he))

theorem tight_of_plug {ls : List Layer} {v : Value} (h : (plug ls v).Tight) : v.Tight := by
  induction ls generalizing v with
  | nil => exact h
  | cons l ls ih => exact tight_inner (ih h)

theorem tight_plug {ls : List Layer} {v w : Value} (h : (plug ls v).Tight) (hw : w.Tight) :
    (plug ls w).Tight := by
  induction ls generalizing v w with
  | nil => exact hw
  | cons l ls ih => exact ih h (tight_fill (tight_of_plug h) hw)

/-! ## The bound -/

/-- Bytes of memory for each byte of an encoding. -/
def bytesPerByte : Nat := 36

theorem length_encodeString_ge (bytes : Bytes) :
    bytes.length + 2 ≤ (encodeString bytes).length := by
  have hdigits := List.length_pos_iff.mpr (Decimal.format_ne_nil bytes.length)
  simp only [encodeString, formatNat, List.length_append, List.length_cons]
  omega

theorem weight_payload {a : AllocRef} {str : Payload} (bufs : Buffers) (h : str.Sound a) :
    weight (optionBlock str.block) ≤ (str.read bufs).length := by
  cases str with
  | literal => exact Nat.le_refl 0
  | borrowed ptr len => exact Nat.zero_le _
  | owned b bytes =>
      rw [Payload.block, optionBlock, weight_singleton, h.block.size]
      exact Nat.le_refl _

theorem weight_key {a : AllocRef} {key : KeyCopy} (h : key.Sound a) :
    weight (optionBlock key.block) ≤ key.bytes.length := by
  cases key with
  | null => exact Nat.le_refl 0
  | owned b bytes =>
      rw [KeyCopy.block, optionBlock, weight_singleton, h.block.size]
      exact Nat.le_refl _

mutual

/-- A tree takes at most 36 bytes for each byte of its encoding, less 32. -/
theorem Value.weight_le (bufs : Buffers) (v : Value) (sound : v.Sound) (tight : v.Tight) :
    weight v.blocks + 32 ≤ bytesPerByte * (v.tree bufs).encode.length := by
  have hnode := sound.header.node.size
  cases v with
  | int h i =>
      have hself : h.self.size = 40 := hnode
      have hlen : 2 ≤ (encodeInt i).length := by simp [encodeInt]
      simp only [Value.blocks, weight_singleton, Value.tree, Tree.encode, bytesPerByte]
      omega
  | string h str =>
      have hself : h.self.size = 40 := hnode
      have hpayload := weight_payload bufs sound.2
      have hlen := length_encodeString_ge (str.read bufs)
      simp only [Value.blocks, weight_add, weight_singleton, Value.tree, Tree.encode, bytesPerByte]
      omega
  | list h slots =>
      obtain ⟨block, capacity, items⟩ := slots
      obtain ⟨-, hslots, hitems⟩ := sound
      have hself : h.self.size = 40 := hnode
      have harray : weight (optionBlock block) = capacity * sizeofPointer :=
        weight_array hslots.array
      have hroom : capacity ≤ 4 * items.length := tight.1.le
      have hall := weightItems_le bufs items hitems tight.2
      simp only [Value.blocks, weight_add, weight_singleton, Value.tree, Tree.encode, bytesPerByte,
        sizeofPointer, List.length_cons, List.length_append, List.length_nil] at harray hall ⊢
      omega
  | dict h slots =>
      obtain ⟨block, capacity, entries⟩ := slots
      obtain ⟨-, hslots, -, hentries⟩ := sound
      have hself : h.self.size = 40 := hnode
      have harray : weight (optionBlock block) = capacity * sizeofEntry :=
        weight_array hslots.array
      have hroom : capacity ≤ 4 * entries.length := tight.1.le
      have hall := weightEntries_le bufs h.alloc entries hentries tight.2
      simp only [Value.blocks, weight_add, weight_singleton, Value.tree, Tree.encode, bytesPerByte,
        sizeofEntry, List.length_cons, List.length_append, List.length_nil] at harray hall ⊢
      omega

theorem weightItems_le (bufs : Buffers) (vs : List Value) (sound : SoundItems vs)
    (tight : TightItems vs) :
    weight (itemsBlocks vs) + 32 * vs.length ≤
      bytesPerByte * (encodeItems (itemTrees bufs vs)).length := by
  cases vs with
  | nil => exact Nat.le_refl 0
  | cons v vs =>
      have hv := v.weight_le bufs sound.1 tight.1
      have hvs := weightItems_le bufs vs sound.2 tight.2
      simp only [itemsBlocks, weight_add, itemTrees, encodeItems, List.length_append,
        List.length_cons, bytesPerByte] at hv hvs ⊢
      omega

theorem weightEntries_le (bufs : Buffers) (a : AllocRef) (es : List (Entry Value))
    (sound : SoundEntries a es) (tight : TightEntries es) :
    weight (entriesBlocks es) + 96 * es.length ≤
      bytesPerByte * (encodeEntries (entryTrees bufs es)).length := by
  cases es with
  | nil => exact Nat.le_refl 0
  | cons e es =>
      obtain ⟨key, v⟩ := e
      have hkey := weight_key sound.1
      have hlen := length_encodeString_ge key.bytes
      have hv := v.weight_le bufs sound.2.1 tight.1
      have hes := weightEntries_le bufs a es sound.2.2 tight.2
      simp only [entriesBlocks, weight_add, entryTrees, encodeEntries, List.length_append,
        List.length_cons, bytesPerByte] at hv hes ⊢
      omega

end

/-! ## Growing -/

/-- The capacities that are tested are the first one, doubled. -/
theorem Tested.pow {enough : Nat → Bool} {cap n : Nat} (h : Tested enough cap n) :
    ∃ r, n = cap * 2 ^ r := by
  induction h with
  | start => exact ⟨0, (Nat.mul_one cap).symm⟩
  | doubled before short half ih =>
      obtain ⟨r, rfl⟩ := ih
      exact ⟨r + 1, by rw [(double_mod half).2, pow_succ, Nat.mul_assoc]⟩

/-- Growing an array that is too small gives it the capacity it needs. -/
theorem doubleUntil_capacity {enough : Nat → Bool} {fuel first n needed cap start : Nat}
    (pos : 0 < first) (begins : start = if Doubling.capacity first n = 0 then first
      else Doubling.capacity first n) (hmax : start ≤ sizeMax)
    (test : ∀ k, Tested enough start k → (enough k = true ↔ needed ≤ k))
    (full : Doubling.capacity first n < needed) (h : doubleUntil enough fuel start = .cap cap) :
    cap = Doubling.capacity first needed := by
  obtain ⟨henough, htested⟩ := doubleUntil_tested .start h
  have hstart : ∃ r, start = first * 2 ^ r ∧ (needed ≤ start → r = 0) := by
    by_cases hzero : Doubling.capacity first n = 0
    · rw [if_pos hzero] at begins
      exact ⟨0, by rw [begins, pow_zero, Nat.mul_one], fun _ => rfl⟩
    · rw [if_neg hzero] at begins
      have hn : n ≠ 0 := fun hn => hzero (if_pos hn)
      exact ⟨Doubling.rounds first n, by rw [begins, Doubling.capacity, if_neg hn],
        fun hle => absurd full (Nat.not_lt_of_le (begins ▸ hle))⟩
  obtain ⟨r, hr, hfirst⟩ := hstart
  have hneeded := (test cap htested).mp henough
  have hne : needed ≠ 0 := by omega
  cases htested with
  | start =>
      rw [hr] at hneeded ⊢
      obtain rfl := hfirst (hr ▸ hneeded)
      exact (Doubling.capacity_eq pos hne hneeded fun q hq => (by omega)).symm
  | @doubled k before short half =>
      obtain ⟨q, hq⟩ := before.pow
      have hshort : ¬ needed ≤ k := fun hle => by
        rw [(test k before).mpr hle] at short
        cases short
      have hk : k = first * 2 ^ (r + q) := by rw [hq, hr, pow_add, Nat.mul_assoc]
      have hcap : k * 2 % sizeMod = first * 2 ^ (r + q + 1) := by
        rw [(double_mod half).2, hk, pow_succ, Nat.mul_assoc]
      rw [hcap] at hneeded ⊢
      refine (Doubling.capacity_eq pos hne hneeded fun q' hq' => ?_).symm
      rw [Nat.succ.inj hq', ← hk]
      exact Nat.lt_of_not_le hshort

section Grow

variable {α : Type} {a : AllocRef} {elementSize : Nat} {s s' : Slots α} {m m' : Memory}

theorem growArray_tight (sound : s.Sound a elementSize) (helem : 2 ≤ elementSize)
    (tight : s.Tight)
    (h : growArray a s elementSize ((s.items.length + 1) % sizeMod) m = (.ok, s', m')) :
    s'.capacity = Doubling.capacity firstCapacity (s.items.length + 1) := by
  have hfirst : 0 < firstCapacity := by decide
  have hcap : s.capacity ≤ sizeMax := (Nat.le_mul_of_pos_right _ (by omega)).trans sound.fits
  rw [sound.count_mod helem, growArray] at h
  split at h
  · next hroom =>
      cases h
      rw [tight] at hroom ⊢
      exact (Doubling.capacity_succ_of_le hfirst hroom).symm
  · next hfull =>
      obtain ⟨-, -, hmax⟩ := start_bounds hcap hfirst (by decide)
      split at h
      · cases h
      · cases h
      · next newCap hnew =>
          have hbegins : (if s.capacity = 0 then firstCapacity else s.capacity) =
              if Doubling.capacity firstCapacity s.items.length = 0 then firstCapacity
                else Doubling.capacity firstCapacity s.items.length := by
            rw [← tight]
          have hnewCap := doubleUntil_capacity hfirst hbegins hmax
            (fun k _ => decide_eq_true_iff) (tight ▸ Nat.lt_of_not_le hfull) hnew
          split at h
          · cases h
          · split at h
            · cases h
            · split at h
              · cases h
                exact hnewCap
              · cases h
                exact hnewCap

theorem Slots.write_capacity (s : Slots α) (i : Nat) (x : α) (m : Memory) :
    (s.write i x m).1.capacity = s.capacity := by
  unfold write
  split <;> rfl

theorem Slots.shiftUp_capacity (s : Slots α) (i : Nat) (m : Memory) :
    (s.shiftUp i m).1.capacity = s.capacity := by
  unfold shiftUp
  split <;> rfl

end Grow

section Calls

variable {h : Header} {child new : Value} {m m' : Memory}

theorem listSlots_sound {s : Slots Value} (sound : (Value.list h s).Sound) :
    s.Sound h.alloc sizeofPointer := by
  obtain ⟨block, capacity, items⟩ := s
  exact sound.2.1

theorem bencodeListAppend_capacity {s s' : Slots Value} (sound : s.Sound h.alloc sizeofPointer)
    (tight : s.Tight)
    (hrun : bencodeListAppend (some (.list h s)) (some child) m = (.ok, some (.list h s'), m')) :
    s'.capacity = Doubling.capacity firstCapacity (s.items.length + 1) := by
  rw [bencodeListAppend] at hrun
  generalize hgrow : growArray h.alloc s sizeofPointer ((s.items.length + 1) % sizeMod) m = r
    at hrun
  obtain ⟨st, s₁, m₁⟩ := r
  cases st with
  | ok =>
      cases hrun
      rw [Slots.write_capacity]
      exact growArray_tight sound (by decide) tight hgrow
  | _ => cases hrun

theorem bencodeListAppend_tight {s : Slots Value} (sound : (Value.list h s).Sound)
    (hchild : child.Sound) (tight : (Value.list h s).Tight) (tightChild : child.Tight)
    (hrun : bencodeListAppend (some (.list h s)) (some child) m = (.ok, some new, m')) :
    new.Tight := by
  obtain ⟨hroom, hitems⟩ := tight_list_iff.mp tight
  cases bencodeListAppend_appended sound hchild hrun with
  | @ok s' _ sound' items blocks =>
      have hcap := bencodeListAppend_capacity (listSlots_sound sound) hroom hrun
      refine tight_list_iff.mpr ⟨?_, ?_⟩
      · rw [Slots.Tight, items, List.length_append]
        exact hcap
      · intro v hv
        rw [items] at hv
        rcases List.mem_append.mp hv with hv | hv
        · exact hitems v hv
        · rw [List.mem_singleton.mp hv]
          exact tightChild

theorem bencodeDictSet_capacity {s s' : Slots (Entry Value)} {key : Span}
    (sound : s.Sound h.alloc sizeofEntry) (tight : s.Tight)
    (hrun : bencodeDictSet (some (.dict h s)) key (some child) m =
      (.ok, some (.dict h s'), m')) :
    s'.items.length = s.items.length ∨
      s'.capacity = Doubling.capacity firstCapacity (s.items.length + 1) := by
  unfold bencodeDictSet at hrun
  dsimp only at hrun
  split at hrun
  · cases hrun
  · split at hrun
    · cases hrun
    · split at hrun
      · cases hrun
      · cases hrun
        exact .inl List.length_set
    · split at hrun
      · cases hrun
      · split at hrun
        · next s₁ m₁ hgrow =>
            cases hrun
            right
            rw [Slots.write_capacity]
            have hcap := growArray_tight sound (by decide) tight hgrow
            split
            · rwa [Slots.shiftUp_capacity]
            · exact hcap
        · next hne _ =>
            cases hrun
            exact (hne rfl).elim

theorem bencodeDictSet_key {s : Slots (Entry Value)} {key : Span}
    {r : Option Value × Memory}
    (hrun : bencodeDictSet (some (.dict h s)) key (some child) m = (.ok, r)) :
    key.isBad = false := by
  by_contra hbad
  rw [bencodeDictSet, if_pos (by simpa using hbad)] at hrun
  cases hrun

theorem bencodeDictSet_tight {s : Slots (Entry Value)} {key : Span} (sound : DictSound h s)
    (tight : (Value.dict h s).Tight) (tightChild : child.Tight)
    (hrun : bencodeDictSet (some (.dict h s)) key (some child) m = (.ok, some new, m')) :
    new.Tight := by
  obtain ⟨hroom, hentries⟩ := tight_dict_iff.mp tight
  have hkey := bencodeDictSet_key hrun
  cases bencodeDictSet_wasSet sound hkey hrun with
  | @replaced i e at_ eq =>
      refine tight_dict_iff.mpr ⟨?_, ?_⟩
      · rw [Slots.Tight, List.length_set]
        exact hroom
      · intro e' he'
        rcases List.mem_or_eq_of_mem_set he' with he' | rfl
        · exact hentries e' he'
        · exact tightChild
  | @inserted i copy s' _ le below above _ copied items sound' blocks =>
      have hlen : s'.items.length = s.items.length + 1 := by
        rw [items]
        simp only [List.length_append, List.length_cons, List.length_take, List.length_drop]
        omega
      have hcap : s'.capacity = Doubling.capacity firstCapacity (s.items.length + 1) := by
        rcases bencodeDictSet_capacity sound.slots hroom hrun with heq | hcap
        · omega
        · exact hcap
      refine tight_dict_iff.mpr ⟨?_, ?_⟩
      · rw [Slots.Tight, hlen]
        exact hcap
      · intro e he
        rw [items] at he
        rcases List.mem_append.mp he with he | he
        · exact hentries e (List.mem_of_mem_take he)
        · rcases List.mem_cons.mp he with rfl | he
          · exact tightChild
          · exact hentries e (List.mem_of_mem_drop he)

end Calls

/-! ## Clones -/

section Clones

variable {bufs : Buffers} {a : AllocRef}

mutual

theorem valueClone_tight (checked : bencodeAllocatorCheck a = .ok) (v : Value) {m m' : Memory}
    {new : Value} (hrun : valueClone bufs v a m = (.ok, some new, m')) : new.Tight := by
  cases v with
  | int h i =>
      have hnew := bencodeIntNew_built checked m i
      rw [valueClone] at hrun
      rw [hrun] at hnew
      cases hnew with
      | ok sound content alloc blocks granted =>
          obtain ⟨h', rfl⟩ := content
          trivial
  | string h str =>
      have hvalid : (Span.mem (str.read bufs)).isBad = false := rfl
      have hnew := bencodeStringNew_built checked m hvalid
      rw [valueClone] at hrun
      rw [hrun] at hnew
      cases hnew with
      | ok sound content alloc blocks granted =>
          obtain ⟨h', str', rfl, -⟩ := content
          trivial
  | list h slots =>
      obtain ⟨block, capacity, items⟩ := slots
      have hnew := bencodeListNew_built checked m
      rw [valueClone, checked] at hrun
      generalize bencodeListNew a m = r at hnew hrun
      cases hnew with
      | nomem blocks refused => cases hrun
      | ok sound content alloc blocks granted =>
          obtain ⟨h', rfl⟩ := content
          exact cloneItems_tight checked items sound (tight_list_iff.mpr ⟨rfl, by simp⟩)
            hrun
  | dict h slots =>
      obtain ⟨block, capacity, entries⟩ := slots
      have hnew := bencodeDictNew_built checked m
      rw [valueClone, checked] at hrun
      generalize bencodeDictNew a m = r at hnew hrun
      cases hnew with
      | nomem blocks refused => cases hrun
      | ok sound content alloc blocks granted =>
          obtain ⟨h', rfl⟩ := content
          exact cloneEntries_tight checked entries (sound_dict_iff.mp sound).1
            (tight_dict_iff.mpr ⟨rfl, by simp⟩) hrun
termination_by structural v

theorem cloneItems_tight (checked : bencodeAllocatorCheck a = .ok) (vs : List Value) {h : Header}
    {s : Slots Value} (sound : (Value.list h s).Sound) (tight : (Value.list h s).Tight)
    {m m' : Memory} {new : Value}
    (hrun : cloneItems bufs vs a (some (.list h s)) m = (.ok, some new, m')) : new.Tight := by
  cases vs with
  | nil =>
      cases hrun
      exact tight
  | cons v vs =>
      have hchild := @valueClone_built bufs a checked v m
      rw [cloneItems] at hrun
      generalize hclone : valueClone bufs v a m = r at hchild hrun
      cases hchild with
      | nomem blocks refused => cases hrun
      | @ok child m₁ soundChild clone alloc built granted =>
          have tightChild := valueClone_tight checked v hclone
          dsimp only at hrun
          generalize happend : bencodeListAppend (some (.list h s)) (some child) m₁ = r at hrun
          obtain ⟨st, out, m₂⟩ := r
          cases bencodeListAppend_appended sound soundChild happend with
          | nomem blocks reason => cases hrun
          | ok sound' items blocks =>
              have tight' := bencodeListAppend_tight sound soundChild tight tightChild happend
              exact cloneItems_tight checked vs sound' tight' hrun
termination_by structural vs

theorem cloneEntries_tight (checked : bencodeAllocatorCheck a = .ok) (es : List (Entry Value))
    {h : Header} {s : Slots (Entry Value)} (sound : DictSound h s) (tight : (Value.dict h s).Tight)
    {m m' : Memory} {new : Value}
    (hrun : cloneEntries bufs es a (some (.dict h s)) m = (.ok, some new, m')) : new.Tight := by
  cases es with
  | nil =>
      cases hrun
      exact tight
  | cons e es =>
      obtain ⟨key, v⟩ := e
      have hkey : key.span.isBad = false := by cases key <;> rfl
      have hchild := @valueClone_built bufs a checked v m
      rw [cloneEntries] at hrun
      generalize hclone : valueClone bufs v a m = r at hchild hrun
      cases hchild with
      | nomem blocks refused => cases hrun
      | @ok child m₁ soundChild clone alloc built granted =>
          have tightChild := valueClone_tight checked v hclone
          dsimp only at hrun
          generalize hset : bencodeDictSet (some (.dict h s)) key.span (some child) m₁ = r at hrun
          obtain ⟨st, out, m₂⟩ := r
          cases bencodeDictSet_wasSet sound hkey hset with
          | nomem blocks reason => cases hrun
          | replaced e at_ eq =>
              have tight' := bencodeDictSet_tight sound tight tightChild hset
              exact cloneEntries_tight checked es (sound.set at_ child) tight' hrun
          | inserted le below above _ copied items sound' blocks =>
              have tight' := bencodeDictSet_tight sound tight tightChild hset
              exact cloneEntries_tight checked es sound' tight' hrun
termination_by structural es

end

end Clones

end Bencode
