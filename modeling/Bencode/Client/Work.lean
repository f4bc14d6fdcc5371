import Bencode.Client.DictRuns
import Mathlib.Data.Nat.Log

/-!
# The work of a run of sets

`bencode_dict_set` and the functions below it once more, with counters. A search compares
logarithmically many keys, the entries moved make the sets of a run quadratic unless the
keys come in order, and doubling copies at most two entries for each one stored.
-/

namespace Bencode

/-! ## Counters -/

/-- What is done in a call: keys compared, entries moved up in the array, and entries copied from an
array into a larger one. -/
structure Work where
  compared : Nat
  moved : Nat
  copied : Nat
deriving DecidableEq

namespace Work

def none : Work := ⟨0, 0, 0⟩

def add (w w' : Work) : Work :=
  ⟨w.compared + w'.compared, w.moved + w'.moved, w.copied + w'.copied⟩

end Work

/-- `dict_search`'s loop, counting on from `n` comparisons. -/
def countedSearchLoop {α : Type} (entries : List (Entry α)) (key : Span) :
    Nat → Nat → Nat → Nat → Except Fault ((Nat × Bool) × Nat)
  | fuel, lo, hi, n =>
    if lo < hi then
      match fuel with
      | 0 => .error .outOfFuel
      | fuel + 1 =>
          let mid := lo + (hi - lo) / 2
          match entries[mid]? with
          | none => .error .badRead
          | some e =>
              match dictCompare e.key key with
              | .error f => .error f
              | .ok c =>
                  if c = 0 then .ok ((mid, true), n + 1)
                  else if c < 0 then countedSearchLoop entries key fuel (mid + 1) hi (n + 1)
                  else countedSearchLoop entries key fuel lo mid (n + 1)
    else .ok ((lo, false), n)

def countedSearch {α : Type} (entries : List (Entry α)) (key : Span) :
    Except Fault ((Nat × Bool) × Nat) :=
  countedSearchLoop entries key entries.length 0 entries.length 0

/-- `grow_array`, with the number of elements that its `memcpy` copies. -/
def countedGrow {α : Type} (alloc : AllocRef) (s : Slots α) (elementSize needed : Nat)
    (m : Memory) : (Status × Slots α × Memory) × Nat :=
  if needed ≤ s.capacity then ((.ok, s, m), 0)
  else
    match doubleUntil (fun cap => decide (needed ≤ cap)) doublingFuel
        (if s.capacity = 0 then 4 else s.capacity) with
    | .overflow => ((.errNomem, s, m), 0)
    | .diverged => ((.errNomem, s, m.misuse), 0)
    | .cap newCap =>
        if newCap > sizeMax / elementSize then ((.errNomem, s, m), 0)
        else
          match bencodeAlloc alloc (newCap * elementSize % sizeMod) m with
          | (none, m) => ((.errNomem, s, m), 0)
          | (some fresh, m) =>
              if s.block ≠ none ∧ s.capacity > 0 then
                ((.ok, ⟨some fresh, newCap, s.items.take s.capacity⟩,
                  bencodeFree alloc s.block m), s.capacity)
              else ((.ok, ⟨some fresh, newCap, []⟩, m), 0)

def countedSet (dict : Option Value) (key : Span) (child : Option Value) (m : Memory) :
    (Status × Option Value × Memory) × Work :=
  match dict, child with
  | some (.dict h s), some child =>
      if key.isBad then ((.errInvalidArg, dict, m), .none)
      else
        match countedSearch s.items key with
        | .error _ => ((.errInvalidArg, dict, m.misuse), .none)
        | .ok ((index, true), n) =>
            match s.items[index]? with
            | none => ((.errInvalidArg, dict, m.misuse), ⟨n, 0, 0⟩)
            | some e =>
                ((.ok, some (.dict h { s with items := s.items.set index ⟨e.key, child⟩ }),
                  valueFree e.value m), ⟨n, 0, 0⟩)
        | .ok ((index, false), n) =>
            match copyKey h.alloc key m with
            | (none, m) => ((.errNomem, dict, m), ⟨n, 0, 0⟩)
            | (some keyCopy, m) =>
                match countedGrow h.alloc s sizeofEntry ((s.items.length + 1) % sizeMod) m with
                | ((.ok, s', m), copied) =>
                    let moved := if index < s.items.length then s'.shiftUp index m else (s', m)
                    let r := moved.1.write index ⟨keyCopy, child⟩ moved.2
                    -- `memmove` takes `count - index` entries, and is not called for none.
                    ((.ok, some (.dict h r.1), r.2), ⟨n, s.items.length - index, copied⟩)
                | ((st, s', m), copied) =>
                    ((st, some (.dict h s'), bencodeFree h.alloc keyCopy.block m), ⟨n, 0, copied⟩)
  | _, _ => ((.errInvalidArg, dict, m), .none)

def countedSets (dict : Option Value) : List SetCall → Option Value × Work
  | [] => (dict, .none)
  | c :: cs =>
      let r := countedSet dict c.key c.child c.mem
      let rest := countedSets r.1.2.1 cs
      (rest.1, r.2.add rest.2)

/-! ## Counting changes nothing -/

section Erasure

variable {α : Type}

theorem countedSearchLoop_erased (entries : List (Entry α)) (key : Span) (fuel lo hi n : Nat) :
    (countedSearchLoop entries key fuel lo hi n).map Prod.fst =
      dictSearchLoop entries key fuel lo hi := by
  induction fuel generalizing lo hi n with
  | zero =>
      rw [countedSearchLoop, dictSearchLoop]
      split <;> rfl
  | succ fuel ih =>
      rw [countedSearchLoop, dictSearchLoop]
      split
      swap
      · rfl
      · dsimp only
        cases entries[lo + (hi - lo) / 2]? with
        | none => rfl
        | some e =>
            dsimp only
            cases dictCompare e.key key with
            | error f => rfl
            | ok c =>
                dsimp only
                split
                · rfl
                · split
                  · exact ih _ _ _
                  · exact ih _ _ _

theorem countedGrow_erased (alloc : AllocRef) (s : Slots α) (elementSize needed : Nat)
    (m : Memory) :
    (countedGrow alloc s elementSize needed m).1 = growArray alloc s elementSize needed m := by
  unfold countedGrow growArray
  split
  · rfl
  · cases doubleUntil (fun cap => decide (needed ≤ cap)) doublingFuel
        (if s.capacity = 0 then 4 else s.capacity) with
    | overflow => rfl
    | diverged => rfl
    | cap newCap =>
        dsimp only
        split
        · rfl
        · cases bencodeAlloc alloc (newCap * elementSize % sizeMod) m with
          | mk fresh m₁ =>
              cases fresh with
              | none => rfl
              | some fresh =>
                  dsimp only
                  split <;> rfl

theorem countedSet_erased (dict : Option Value) (key : Span) (child : Option Value) (m : Memory) :
    (countedSet dict key child m).1 = bencodeDictSet dict key child m := by
  cases dict with
  | none => rfl
  | some v =>
      cases child with
      | none => cases v <;> rfl
      | some child =>
          cases v with
          | int h i => rfl
          | string h str => rfl
          | list h s => rfl
          | dict h s =>
              have hsearch : (countedSearch s.items key).map Prod.fst = dictSearch s.items key :=
                countedSearchLoop_erased s.items key _ _ _ _
              unfold countedSet bencodeDictSet
              dsimp only
              rw [← hsearch]
              split
              · rfl
              · cases countedSearch s.items key with
                | error f => rfl
                | ok r =>
                    obtain ⟨⟨index, found⟩, n⟩ := r
                    cases found with
                    | true =>
                        dsimp only [Except.map]
                        cases s.items[index]? <;> rfl
                    | false =>
                        dsimp only [Except.map]
                        cases copyKey h.alloc key m with
                        | mk copy m₁ =>
                            cases copy with
                            | none => rfl
                            | some copy =>
                                dsimp only
                                rw [← countedGrow_erased]
                                generalize countedGrow h.alloc s sizeofEntry
                                  ((s.items.length + 1) % sizeMod) m₁ = grown
                                obtain ⟨⟨st, s', m₂⟩, copied⟩ := grown
                                cases st <;> rfl

theorem countedSets_erased (dict : Option Value) (calls : List SetCall) :
    (countedSets dict calls).1 = setAll dict calls := by
  induction calls generalizing dict with
  | nil => rfl
  | cons c cs ih =>
      rw [countedSets, setAll, SetCall.run, ← countedSet_erased]
      exact ih _

end Erasure

/-! ## The search -/

/-- Searching fewer than `2 ^ k` entries takes at most `k` comparisons. -/
theorem countedSearchLoop_le {α : Type} {entries : List (Entry α)} {key : Span}
    {fuel lo hi n k : Nat} {r : Nat × Bool} {n' : Nat} (hlt : hi - lo < 2 ^ k)
    (run : countedSearchLoop entries key fuel lo hi n = .ok (r, n')) : n' ≤ n + k := by
  induction fuel generalizing lo hi n k with
  | zero =>
      rw [countedSearchLoop] at run
      split at run
      · cases run
      · cases run
        exact Nat.le_add_right _ _
  | succ fuel ih =>
      rw [countedSearchLoop] at run
      split at run
      swap
      · cases run
        exact Nat.le_add_right _ _
      · next hne =>
          cases k with
          | zero =>
              rw [Nat.pow_zero] at hlt
              omega
          | succ k =>
              have hhalf : (hi - lo) / 2 < 2 ^ k := by
                rw [Nat.pow_succ] at hlt
                omega
              dsimp only at run
              cases hmid : entries[lo + (hi - lo) / 2]? with
              | none =>
                  rw [hmid] at run
                  cases run
              | some e =>
                  rw [hmid] at run
                  dsimp only at run
                  cases hcmp : dictCompare e.key key with
                  | error f =>
                      rw [hcmp] at run
                      cases run
                  | ok c =>
                      rw [hcmp] at run
                      dsimp only at run
                      split at run
                      · cases run
                        omega
                      · split at run
                        · have := ih (k := k) (by omega) run
                          omega
                        · have := ih (k := k) (by omega) run
                          omega

theorem countedSearch_le {α : Type} {entries : List (Entry α)} {key : Span} {r : Nat × Bool}
    {n : Nat} (run : countedSearch entries key = .ok (r, n)) :
    n ≤ Nat.log 2 entries.length + 1 := by
  have hlt : entries.length - 0 < 2 ^ (Nat.log 2 entries.length + 1) := by
    rw [Nat.sub_zero]
    exact Nat.lt_pow_succ_log_self (by decide) _
  rw [← Nat.zero_add (Nat.log 2 entries.length + 1)]
  exact countedSearchLoop_le hlt run

/-! ## Growing -/

section Grow

variable {α : Type} {a : AllocRef} {elementSize : Nat} {s s' : Slots α} {m m' : Memory}

/-- An array that was only doubled when it was full. -/
def Slots.HalfFull (s : Slots α) : Prop :=
  s.capacity = 0 ∨ 4 ≤ s.capacity ∧ s.capacity ≤ max 4 (2 * s.items.length)

/-- The elements copied by the time an array has its capacity: 4, 8, 16 and so on. -/
def Slots.copies (s : Slots α) : Nat := s.capacity - 4

theorem Slots.HalfFull.copies_le (h : s.HalfFull) : s.copies ≤ 2 * s.items.length := by
  unfold copies
  rcases h with h | ⟨-, h⟩ <;> omega

/-- What is copied is paid for by the capacity gained. -/
theorem countedGrow_work (hs : s.Sound a elementSize) (half : s.HalfFull) (helem : 2 ≤ elementSize)
    {n : Nat} (run : countedGrow a s elementSize ((s.items.length + 1) % sizeMod) m =
      ((.ok, s', m'), n)) :
    n + s.copies = s'.copies ∧ 4 ≤ s'.capacity ∧
      s'.capacity ≤ max 4 (2 * (s.items.length + 1)) := by
  have hcount := hs.count
  have hcap : s.capacity ≤ sizeMax := (Nat.le_mul_of_pos_right _ (by omega)).trans hs.fits
  have harray := hs.array
  unfold Slots.copies
  rw [hs.count_mod helem, countedGrow] at run
  split at run
  · next hroom =>
      cases run
      rcases half with hzero | hhalf <;> omega
  · next hfull =>
      have full : s.items.length = s.capacity := by omega
      obtain ⟨hpos, -, hmax⟩ := start_bounds hcap (by decide : 0 < 4) (by decide)
      split at run
      · cases run
      · cases run
      · next newCap hnew =>
          obtain ⟨henough, htested⟩ := doubleUntil_tested .start hnew
          have henough : s.items.length + 1 ≤ newCap := of_decide_eq_true henough
          -- The new capacity is 4 for an array without one, and twice the old one otherwise.
          have hdouble : newCap = if s.capacity = 0 then 4 else 2 * s.capacity := by
            rcases htested.last hmax with rfl | ⟨k, hk, hle, rfl⟩
            · split at henough
              · next hzero => rw [if_pos hzero, if_pos hzero]
              · omega
            · simp only [decide_eq_false_iff_not] at hk
              split at hle
              · omega
              · next hne =>
                  rw [if_neg hne]
                  omega
          split at run
          · cases run
          · split at run
            · cases run
            · split at run
              · next hold =>
                  cases run
                  rw [if_neg (by omega)] at hdouble
                  rcases half with hzero | hhalf <;> dsimp only <;> omega
              · next hnone =>
                  cases run
                  have hzero : s.capacity = 0 := by
                    cases hblock : s.block with
                    | none =>
                        rw [hblock] at harray
                        exact harray
                    | some b =>
                        rw [hblock] at hnone
                        by_contra hne
                        exact hnone ⟨by simp, by omega⟩
                  rw [if_pos hzero] at hdouble
                  dsimp only
                  omega

theorem countedGrow_failed {needed n : Nat} {st : Status} (bad : st ≠ .ok)
    (run : countedGrow a s elementSize needed m = ((st, s', m'), n)) : s' = s ∧ n = 0 := by
  unfold countedGrow at run
  split at run
  · cases run
    exact absurd rfl bad
  · split at run
    · cases run
      exact ⟨rfl, rfl⟩
    · cases run
      exact ⟨rfl, rfl⟩
    · split at run
      · cases run
        exact ⟨rfl, rfl⟩
      · split at run
        · cases run
          exact ⟨rfl, rfl⟩
        · split at run
          · cases run
            exact absurd rfl bad
          · cases run
            exact absurd rfl bad

end Grow

/-! ## One set -/

/-- The dict `⟨h, s⟩` after a set of the key `k`, and the work it has made. -/
inductive SetWork (h : Header) (s : Slots (Entry Value)) (k : Bytes) :
    Option Value × Work → Prop
  | inserted {s' : Slots (Entry Value)} {w : Work} {i : Nat} (sound : DictSound h s')
      (half : s'.HalfFull) (le : i ≤ s.items.length)
      (below : ∀ l ∈ (storedKeys s.items).take i, l < k)
      (above : ∀ l ∈ (storedKeys s.items).drop i, k < l)
      (keys : storedKeys s'.items = (storedKeys s.items).take i ++ k :: (storedKeys s.items).drop i)
      (compared : w.compared ≤ Nat.log 2 s.items.length + 1)
      (moved : w.moved = s.items.length - i) (copied : w.copied + s.copies = s'.copies) :
      SetWork h s k (some (.dict h s'), w)
  | kept {s' : Slots (Entry Value)} {w : Work} (sound : DictSound h s') (half : s'.HalfFull)
      (keys : storedKeys s'.items = storedKeys s.items)
      (compared : w.compared ≤ Nat.log 2 s.items.length + 1) (moved : w.moved = 0)
      (copied : w.copied + s.copies = s'.copies) : SetWork h s k (some (.dict h s'), w)

section Set

variable {h : Header} {s : Slots (Entry Value)}

theorem countedSearch_found {key : Span} (hkey : key.isBad = false)
    (sorted : (storedKeys s.items).Pairwise (· < ·)) :
    ∃ r n, countedSearch s.items key = .ok (r, n) ∧ Found s.items key.bytes r ∧
      n ≤ Nat.log 2 s.items.length + 1 := by
  obtain ⟨r, hsearch, hfound⟩ := dictSearch_found hkey sorted
  have herased : (countedSearch s.items key).map Prod.fst = .ok r :=
    (countedSearchLoop_erased s.items key _ _ _ _).trans hsearch
  cases hcounted : countedSearch s.items key with
  | error f =>
      rw [hcounted] at herased
      cases herased
  | ok p =>
      obtain ⟨r', n⟩ := p
      rw [hcounted] at herased
      cases herased
      exact ⟨r', n, rfl, hfound, countedSearch_le hcounted⟩

theorem SetWork.unchanged {k : Bytes} {n : Nat} (sound : DictSound h s) (half : s.HalfFull)
    (compared : n ≤ Nat.log 2 s.items.length + 1) :
    SetWork h s k (some (.dict h s), ⟨n, 0, 0⟩) :=
  .kept sound half rfl compared rfl (Nat.zero_add _)

theorem countedSet_work (sound : DictSound h s) (half : s.HalfFull) (key : Span)
    (child : Option Value) (m : Memory) :
    SetWork h s key.bytes ((countedSet (some (.dict h s)) key child m).1.2.1,
      (countedSet (some (.dict h s)) key child m).2) := by
  cases child with
  | none => exact .unchanged sound half (Nat.zero_le _)
  | some child =>
      unfold countedSet
      dsimp only
      by_cases hkey : key.isBad = true
      · rw [if_pos hkey]
        exact .unchanged sound half (Nat.zero_le _)
      · rw [if_neg hkey]
        rw [Bool.not_eq_true] at hkey
        obtain ⟨r, n, hsearch, hfound, hcompared⟩ := countedSearch_found hkey sound.sorted
        rw [hsearch]
        cases hfound with
        | @hit i e at_ eq =>
            dsimp only
            rw [at_]
            refine .kept (sound.set at_ child) ?_ (storedKeys_set at_ child) hcompared rfl
              (Nat.zero_add _)
            simpa [Slots.HalfFull] using half
        | @miss i le below above =>
            dsimp only
            cases hcopy : copyKey h.alloc key m with
            | mk copy m₁ =>
                cases copy with
                | none => exact .unchanged sound half hcompared
                | some copy =>
                    obtain ⟨hbytes, -⟩ := copyKey_some hkey hcopy
                    dsimp only
                    generalize hgrow : countedGrow h.alloc s sizeofEntry
                      ((s.items.length + 1) % sizeMod) m₁ = grown
                    obtain ⟨⟨st, s₁, m₂⟩, copied⟩ := grown
                    have herased := countedGrow_erased h.alloc s sizeofEntry
                      ((s.items.length + 1) % sizeMod) m₁
                    rw [hgrow] at herased
                    cases growArray_grown sound.header.checked sound.slots (by decide) (by decide)
                      herased.symm with
                    | nomem blocks reason =>
                        obtain ⟨-, hnone⟩ := countedGrow_failed (by simp) hgrow
                        rw [hnone]
                        exact .unchanged sound half hcompared
                    | ok sound₁ items room blocks =>
                        obtain ⟨hpaid, hleast, hmost⟩ :=
                          countedGrow_work sound.slots half (by decide) hgrow
                        have hinserted := insertEntry_eq s₁ (⟨copy, child⟩ : Entry Value) m₂
                          (items ▸ le) (items ▸ room)
                        dsimp only
                        rw [← items, hinserted, items]
                        refine .inserted (sound.insert sound₁ room hbytes below above)
                          (.inr ⟨hleast, ?_⟩) le below above ?_ hcompared rfl hpaid
                        · have hlength : (s.items.take i ++
                              (⟨copy, child⟩ : Entry Value) :: s.items.drop i).length =
                              s.items.length + 1 := by
                            simp only [List.length_append, List.length_cons, List.length_take,
                              List.length_drop]
                            omega
                          dsimp only
                          rw [hlength]
                          exact hmost
                        · dsimp only
                          rw [storedKeys_insert, hbytes]

end Set

/-! ## Runs -/

theorem pairs_succ (n : Nat) : (n + 1) * (n + 1 - 1) = n * (n - 1) + 2 * n := by
  cases n with
  | zero => rfl
  | succ n =>
      simp only [Nat.add_sub_cancel]
      ring

structure Ascending (s : Slots (Entry Value)) (calls : List SetCall) : Prop where
  ordered : calls.Pairwise fun c c' => c.key.bytes < c'.key.bytes
  above : ∀ c ∈ calls, ∀ l ∈ storedKeys s.items, l < c.key.bytes

structure Descending (s : Slots (Entry Value)) (calls : List SetCall) : Prop where
  ordered : calls.Pairwise fun c c' => c'.key.bytes < c.key.bytes
  below : ∀ c ∈ calls, ∀ l ∈ storedKeys s.items, c.key.bytes < l

section Step

variable {s s₁ : Slots (Entry Value)} {c : SetCall} {cs : List SetCall}

theorem Ascending.tail (h : Ascending s (c :: cs))
    (keys : ∀ l ∈ storedKeys s₁.items, l = c.key.bytes ∨ l ∈ storedKeys s.items) :
    Ascending s₁ cs := by
  obtain ⟨hfirst, hrest⟩ := List.pairwise_cons.mp h.ordered
  refine ⟨hrest, ?_⟩
  intro c' hc' l hl
  rcases keys l hl with rfl | hl
  · exact hfirst c' hc'
  · exact h.above c' (List.mem_cons_of_mem c hc') l hl

theorem Descending.tail (h : Descending s (c :: cs))
    (keys : ∀ l ∈ storedKeys s₁.items, l = c.key.bytes ∨ l ∈ storedKeys s.items) :
    Descending s₁ cs := by
  obtain ⟨hfirst, hrest⟩ := List.pairwise_cons.mp h.ordered
  refine ⟨hrest, ?_⟩
  intro c' hc' l hl
  rcases keys l hl with rfl | hl
  · exact hfirst c' hc'
  · exact h.below c' (List.mem_cons_of_mem c hc') l hl

theorem Ascending.place {i : Nat} (h : Ascending s (c :: cs)) (le : i ≤ s.items.length)
    (above : ∀ l ∈ (storedKeys s.items).drop i, c.key.bytes < l) : i = s.items.length := by
  by_contra hne
  have hcount : (storedKeys s.items).length = s.items.length := List.length_map _
  have hi : i < (storedKeys s.items).length := by omega
  have hmem : (storedKeys s.items)[i] ∈ (storedKeys s.items).drop i :=
    List.mem_drop_iff_getElem.mpr ⟨0, by omega, by simp⟩
  exact lt_asymm (above _ hmem) (h.above c List.mem_cons_self _ (List.mem_of_mem_drop hmem))

theorem Descending.place {i : Nat} (h : Descending s (c :: cs)) (le : i ≤ s.items.length)
    (below : ∀ l ∈ (storedKeys s.items).take i, l < c.key.bytes) : i = 0 := by
  by_contra hne
  have hcount : (storedKeys s.items).length = s.items.length := List.length_map _
  have hpos : 0 < (storedKeys s.items).length := by omega
  have hmem : (storedKeys s.items)[0] ∈ (storedKeys s.items).take i :=
    List.mem_take_iff_getElem.mpr ⟨0, by omega, rfl⟩
  exact lt_asymm (below _ hmem) (h.below c List.mem_cons_self _ (List.mem_of_mem_take hmem))

end Step

/-- The work of a run of sets that leaves the entries of `s'` in a dict with those of `s`. -/
structure RunWork (s s' : Slots (Entry Value)) (calls : List SetCall) (w : Work) : Prop where
  grown : s.items.length ≤ s'.items.length
  compared : w.compared ≤ calls.length * (Nat.log 2 s'.items.length + 1)
  moved : 2 * w.moved + s.items.length * (s.items.length - 1) ≤
    s'.items.length * (s'.items.length - 1)
  copied : w.copied + s.copies = s'.copies
  ascending : Ascending s calls → w.moved = 0
  descending : Descending s calls → 2 * w.moved + s.items.length * (s.items.length - 1) =
    s'.items.length * (s'.items.length - 1)

theorem compared_step {n len len' first rest : Nat} (hfirst : first ≤ Nat.log 2 len + 1)
    (hle : len ≤ len') (hrest : rest ≤ n * (Nat.log 2 len' + 1)) :
    first + rest ≤ (n + 1) * (Nat.log 2 len' + 1) := by
  have hlog : Nat.log 2 len ≤ Nat.log 2 len' := Nat.log_mono_right hle
  rw [Nat.add_mul, Nat.one_mul]
  omega

theorem SetWork.run {h : Header} {s s₁ s' : Slots (Entry Value)} {c : SetCall} {cs : List SetCall}
    {w w' : Work} (first : SetWork h s c.key.bytes (some (.dict h s₁), w))
    (rest : RunWork s₁ s' cs w') : RunWork s s' (c :: cs) (w.add w') := by
  cases first with
  | @inserted _ _ i sound half le below above keys compared moved copied =>
      have hlength : s₁.items.length = s.items.length + 1 := by
        have hlen := congrArg List.length keys
        simp only [storedKeys, List.length_map, List.length_append, List.length_cons,
          List.length_take, List.length_drop] at hlen
        omega
      have hkeys : ∀ l ∈ storedKeys s₁.items, l = c.key.bytes ∨ l ∈ storedKeys s.items := by
        intro l hl
        rw [keys, List.mem_append, List.mem_cons] at hl
        rcases hl with hl | rfl | hl
        · exact .inr (List.mem_of_mem_take hl)
        · exact .inl rfl
        · exact .inr (List.mem_of_mem_drop hl)
      have hpairs := pairs_succ s.items.length
      obtain ⟨hgrown, hcompared, hmoved, hcopied, hascending, hdescending⟩ := rest
      rw [hlength] at hgrown hmoved hdescending
      refine ⟨by omega, compared_step compared (by omega) hcompared, ?_, ?_, ?_, ?_⟩
      · dsimp only [Work.add]
        omega
      · dsimp only [Work.add]
        omega
      · intro hasc
        have hend := hasc.place le above
        have := hascending (hasc.tail hkeys)
        dsimp only [Work.add]
        omega
      · intro hdesc
        have hstart := hdesc.place le below
        have := hdescending (hdesc.tail hkeys)
        dsimp only [Work.add]
        omega
  | kept sound half keys compared moved copied =>
      have hlength : s₁.items.length = s.items.length := by
        have hlen := congrArg List.length keys
        simpa only [storedKeys, List.length_map] using hlen
      have hkeys : ∀ l ∈ storedKeys s₁.items, l = c.key.bytes ∨ l ∈ storedKeys s.items := by
        intro l hl
        exact .inr (keys ▸ hl)
      obtain ⟨hgrown, hcompared, hmoved, hcopied, hascending, hdescending⟩ := rest
      rw [hlength] at hgrown hmoved hdescending
      refine ⟨hgrown, compared_step compared hgrown hcompared, ?_, ?_, ?_, ?_⟩
      · dsimp only [Work.add]
        omega
      · dsimp only [Work.add]
        omega
      · intro hasc
        have := hascending (hasc.tail hkeys)
        dsimp only [Work.add]
        omega
      · intro hdesc
        have := hdescending (hdesc.tail hkeys)
        dsimp only [Work.add]
        omega

theorem countedSets_work {h : Header} (calls : List SetCall) {s : Slots (Entry Value)}
    (sound : DictSound h s) (half : s.HalfFull) :
    ∃ s', (countedSets (some (.dict h s)) calls).1 = some (.dict h s') ∧ DictSound h s' ∧
      s'.HalfFull ∧ RunWork s s' calls (countedSets (some (.dict h s)) calls).2 := by
  induction calls generalizing s with
  | nil =>
      refine ⟨s, rfl, sound, half, Nat.le_refl _, Nat.zero_le _, ?_, Nat.zero_add _, fun _ => rfl,
        ?_⟩
      · exact Nat.le_of_eq (Nat.zero_add _)
      · exact fun _ => Nat.zero_add _
  | cons c cs ih =>
      have hfirst := countedSet_work sound half c.key c.child c.mem
      rw [countedSets]
      dsimp only
      generalize (countedSet (some (.dict h s)) c.key c.child c.mem).1.2.1 = dict at hfirst
      generalize (countedSet (some (.dict h s)) c.key c.child c.mem).2 = w at hfirst
      have hnext : ∃ s₁, dict = some (.dict h s₁) ∧ DictSound h s₁ ∧ s₁.HalfFull := by
        cases hfirst with
        | inserted sound₁ half₁ => exact ⟨_, rfl, sound₁, half₁⟩
        | kept sound₁ half₁ => exact ⟨_, rfl, sound₁, half₁⟩
      obtain ⟨s₁, rfl, sound₁, half₁⟩ := hnext
      obtain ⟨s', hrun, sound', half', hrest⟩ := ih sound₁ half₁
      exact ⟨s', hrun, sound', half', hfirst.run hrest⟩

theorem SetWork.compared_le {h : Header} {s : Slots (Entry Value)} {k : Bytes}
    {r : Option Value × Work} (work : SetWork h s k r) :
    r.2.compared ≤ Nat.log 2 s.items.length + 1 := by
  cases work with
  | inserted sound half le below above keys compared moved copied => exact compared
  | kept sound half keys compared moved copied => exact compared

theorem countedSets_compared {h : Header} {s : Slots (Entry Value)} (sound : DictSound h s)
    (half : s.HalfFull) (before after : List SetCall) (c : SetCall) :
    (countedSet (setAll (some (.dict h s)) before) c.key c.child c.mem).2.compared ≤
        Nat.log 2 (bencodeDictSize (setAll (some (.dict h s)) before)) + 1 ∧
      bencodeDictSize (setAll (some (.dict h s)) before) ≤
        bencodeDictSize (setAll (some (.dict h s)) (before ++ c :: after)) := by
  obtain ⟨s₁, hbefore, sound₁, half₁, -⟩ := countedSets_work before sound half
  obtain ⟨s', hrest, -, -, hwork⟩ := countedSets_work (c :: after) sound₁ half₁
  rw [countedSets_erased] at hbefore hrest
  rw [setAll_append, hbefore, hrest]
  exact ⟨(countedSet_work sound₁ half₁ c.key c.child c.mem).compared_le, hwork.grown⟩

/-- Any calls of `bencode_dict_set` on a new dict, failed ones included, that leave it with `n`
entries. Every call makes at most `log₂ n + 1` comparisons. The entries moved are at most
`n(n-1)/2`, none when the keys come in increasing order and just as many when they come in
decreasing order. Growing the array copies at most `2n` entries. -/
theorem dictSet_costs {a : AllocRef} {m m' : Memory} {start : Value}
    (fresh : bencodeDictNew a m = (.ok, some start, m')) (calls : List SetCall) :
    (countedSets (some start) calls).1 = setAll (some start) calls ∧
      (∀ before c after, calls = before ++ c :: after →
        (countedSet (setAll (some start) before) c.key c.child c.mem).1 =
            c.run (setAll (some start) before) ∧
          (countedSet (setAll (some start) before) c.key c.child c.mem).2.compared ≤
            Nat.log 2 (bencodeDictSize (setAll (some start) before)) + 1 ∧
          bencodeDictSize (setAll (some start) before) ≤
            bencodeDictSize (setAll (some start) calls)) ∧
      (countedSets (some start) calls).2.compared ≤
        calls.length * (Nat.log 2 (bencodeDictSize (setAll (some start) calls)) + 1) ∧
      2 * (countedSets (some start) calls).2.moved ≤
        bencodeDictSize (setAll (some start) calls) *
          (bencodeDictSize (setAll (some start) calls) - 1) ∧
      (countedSets (some start) calls).2.copied ≤
        2 * bencodeDictSize (setAll (some start) calls) ∧
      ((calls.Pairwise fun c c' => c.key.bytes < c'.key.bytes) →
        (countedSets (some start) calls).2.moved = 0) ∧
      ((calls.Pairwise fun c c' => c'.key.bytes < c.key.bytes) →
        2 * (countedSets (some start) calls).2.moved =
          bencodeDictSize (setAll (some start) calls) *
            (bencodeDictSize (setAll (some start) calls) - 1)) := by
  have hempty : ∃ h, start = .dict h ⟨none, 0, []⟩ ∧ DictSound h ⟨none, 0, []⟩ := by
    obtain ⟨h, s, rfl, sound⟩ := (StartDict.fresh fresh).exists_dict
    by_cases checked : bencodeAllocatorCheck a = .ok
    · have hbuilt := bencodeDictNew_built checked m
      rw [fresh] at hbuilt
      cases hbuilt with
      | ok _ content =>
          obtain ⟨h', heq⟩ := content
          cases heq
          exact ⟨h, rfl, sound⟩
    · simp [bencodeDictNew, checked] at fresh
  obtain ⟨h, rfl, sound⟩ := hempty
  obtain ⟨s', hrun, -, half, hwork⟩ := countedSets_work calls sound (.inl rfl)
  have herased := countedSets_erased (some (.dict h ⟨none, 0, []⟩)) calls
  have hsize : bencodeDictSize (setAll (some (.dict h ⟨none, 0, []⟩)) calls) = s'.items.length := by
    rw [← herased, hrun]
    rfl
  have hmoved := hwork.moved
  have hcopied := hwork.copied
  have hcopies := half.copies_le
  refine ⟨herased, fun before c after hsplit => ?_, ?_⟩
  · obtain ⟨hcompared, hle⟩ := countedSets_compared sound (.inl rfl) before after c
    exact ⟨countedSet_erased _ c.key c.child c.mem, hcompared, hsplit ▸ hle⟩
  rw [hsize]
  refine ⟨hwork.compared, by simpa using hmoved, by omega, fun hasc => ?_, fun hdesc => ?_⟩
  · exact hwork.ascending ⟨hasc, fun _ _ l hl => by cases hl⟩
  · simpa using hwork.descending ⟨hdesc, fun _ _ l hl => by cases hl⟩

/-- Three keys in decreasing order. -/
theorem dictSet_costs_three :
    2 * (countedSets (some (.dict ⟨⟨.platform, 0, 40⟩, none⟩ ⟨none, 0, []⟩))
      [⟨.mem [99], some (.int ⟨⟨.platform, 1, 40⟩, none⟩ 1), .empty fun _ => false⟩,
        ⟨.mem [98], some (.int ⟨⟨.platform, 2, 40⟩, none⟩ 2), .empty fun _ => false⟩,
        ⟨.mem [97], some (.int ⟨⟨.platform, 3, 40⟩, none⟩ 3), .empty fun _ => false⟩]).2.moved =
      3 * (3 - 1) :=
  (dictSet_costs (a := none) (m := .empty fun _ => false) rfl _).2.2.2.2.2.2 (by decide)

end Bencode
