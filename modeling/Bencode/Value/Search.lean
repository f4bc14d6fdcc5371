import Bencode.Value.Cells

/-!
# Searching a dict slot by slot

The comparison in `dict_search` has the sign of `bytes_cmp`, so a dict that is sorted for
the parser is sorted for the search. The search then reads stored entries only and ends at
the entry of the key, or at the one place where the keys pass from below it to above it.
-/

namespace Bencode

/-! ## The order of the parser -/

/-- `bytes_cmp` reports that `k` is less than `l`. -/
def CmpLt (k l : Bytes) : Prop := ∃ c, bytesCmp k k.length l l.length = .ok c ∧ c < 0

theorem cmpLt_iff {k l : Bytes} : CmpLt k l ↔ k < l := by
  have hcmp := bytesCmp_eq (List.prefix_refl k) (List.prefix_refl l)
  have hsign := (prefixCompare_compares k l).1
  constructor
  · rintro ⟨c, hc, hneg⟩
    cases hcmp.symm.trans hc
    exact hsign.mp hneg
  · intro hlt
    exact ⟨_, hcmp, hsign.mpr hlt⟩

theorem cmpLt_eq : CmpLt = (· < ·) := funext fun _ => funext fun _ => propext cmpLt_iff

theorem cmpLt_strictTotalOrder : IsStrictTotalOrder Bytes CmpLt := by
  rw [cmpLt_eq]
  infer_instance

/-- The comparison in `dict_search` agrees with `bytes_cmp`, wherever the bytes of the two keys
stand. -/
theorem dictCompare_sign (e : KeyCopy) {key : Span} (hkey : key.isBad = false) {a b : Bytes}
    (ha : e.bytes <+: a) (hb : key.bytes <+: b) :
    ∃ c c', dictCompare e key = .ok c ∧ bytesCmp a e.len b key.len = .ok c' ∧
      c.sign = c'.sign := by
  refine ⟨_, _, dictCompare_eq e hkey, ?_, rfl⟩
  rw [← KeyCopy.length_bytes, ← Span.length_bytes hkey]
  exact bytesCmp_eq ha hb

/-! ## Slots and entries -/

section Cells

variable {α : Type} {c : Cells (Entry α)} {entries : List (Entry α)}

theorem dictSearchLoop_cells (stored : ∀ i, i < c.count → c.read i = entries[i]?) (key : Span)
    (fuel lo hi : Nat) (hhi : hi ≤ c.count) :
    c.dictSearchLoop key fuel lo hi = (dictSearchLoop entries key fuel lo hi).toOption := by
  induction fuel generalizing lo hi with
  | zero =>
      rw [Cells.dictSearchLoop, dictSearchLoop]
      split <;> rfl
  | succ fuel ih =>
      rw [Cells.dictSearchLoop, dictSearchLoop]
      split
      swap
      · rfl
      · next hlt =>
          have hmid : lo + (hi - lo) / 2 < c.count := by omega
          dsimp only
          rw [stored _ hmid]
          cases entries[lo + (hi - lo) / 2]? with
          | none => rfl
          | some e =>
              dsimp only
              cases dictCompare e.key key with
              | error f => rfl
              | ok r =>
                  dsimp only
                  split
                  · rfl
                  · split
                    · exact ih _ _ hhi
                    · exact ih _ _ (by omega)

/-- Searching the slots below the count is searching the entries stored there. -/
theorem dictSearch_cells (count : c.count = entries.length)
    (stored : ∀ i, i < c.count → c.read i = entries[i]?) (key : Span) :
    c.dictSearch key = (dictSearch entries key).toOption := by
  unfold Cells.dictSearch dictSearch
  rw [← count]
  exact dictSearchLoop_cells stored key _ _ _ (Nat.le_refl _)

/-- The slots below the count are written, and what they hold increases under `bytes_cmp`. -/
structure Increasing (c : Cells (Entry α)) : Prop where
  written : ∀ i, i < c.count → ∃ e, c.read i = some e
  increasing : ∀ i e f, i + 1 < c.count → c.read i = some e → c.read (i + 1) = some f →
    CmpLt e.key.bytes f.key.bytes

/-- The entries before `i` are below the key, and those from there on are above it. -/
structure Splits (c : Cells (Entry α)) (k : Bytes) (i : Nat) : Prop where
  le : i ≤ c.count
  below : ∀ j e, j < i → c.read j = some e → CmpLt e.key.bytes k
  above : ∀ j e, i ≤ j → j < c.count → c.read j = some e → CmpLt k e.key.bytes

theorem Increasing.items (h : Increasing c) :
    ∃ entries : List (Entry α), c.count = entries.length ∧
      (∀ i, i < c.count → c.read i = entries[i]?) ∧ (storedKeys entries).Pairwise (· < ·) := by
  choose item hitem using h.written
  have hget : ∀ i, (hi : i < c.count) →
      (List.ofFn fun i : Fin c.count => item i i.isLt)[i]? = some (item i hi) := by
    intro i hi
    rw [List.getElem?_ofFn, dif_pos hi]
  refine ⟨List.ofFn fun i : Fin c.count => item i i.isLt, List.length_ofFn.symm, ?_, ?_⟩
  · intro i hi
    rw [hitem i hi, hget i hi]
  · rw [← List.isChain_iff_pairwise, List.isChain_iff_getElem]
    intro i hi
    have hi' : i + 1 < c.count := by simpa [storedKeys] using hi
    have hlt := h.increasing i _ _ hi' (hitem i (by omega)) (hitem (i + 1) hi')
    simpa [storedKeys] using cmpLt_iff.mp hlt

theorem Splits.unique (h : Increasing c) {k : Bytes} {i j : Nat} (hi : Splits c k i)
    (hj : Splits c k j) : j = i := by
  have hle : ∀ {i j : Nat}, Splits c k i → Splits c k j → i ≤ j := by
    intro i j hi hj
    by_contra hlt
    have hcount : j < c.count := by
      have := hi.le
      omega
    obtain ⟨e, he⟩ := h.written j hcount
    have hbelow := cmpLt_iff.mp (hi.below j e (by omega) he)
    have habove := cmpLt_iff.mp (hj.above j e (Nat.le_refl j) hcount he)
    exact lt_asymm hbelow habove
  exact Nat.le_antisymm (hle hj hi) (hle hi hj)

/-- What a search reports, told from the slots. -/
inductive Located (c : Cells (Entry α)) (k : Bytes) : Nat × Bool → Prop
  | hit {i : Nat} (e : Entry α) (inside : i < c.count) (at_ : c.read i = some e)
      (eq : e.key.bytes = k) : Located c k (i, true)
  | miss {i : Nat} (absent : ∀ j e, j < c.count → c.read j = some e → e.key.bytes ≠ k)
      (splits : Splits c k i) (unique : ∀ j, Splits c k j → j = i) : Located c k (i, false)

theorem Found.located (h : Increasing c) (count : c.count = entries.length)
    (stored : ∀ i, i < c.count → c.read i = entries[i]?) {k : Bytes} {r : Nat × Bool}
    (found : Found entries k r) : Located c k r := by
  cases found with
  | @hit i e at_ eq =>
      have hi : i < c.count := count ▸ (List.getElem?_eq_some_iff.mp at_).1
      exact .hit e hi ((stored i hi).trans at_) eq
  | @miss i le below above =>
      have hkey : ∀ j e, j < c.count → c.read j = some e →
          (storedKeys entries)[j]? = some e.key.bytes := by
        intro j e hj he
        rw [storedKeys_getElem?, ← stored j hj, he]
        rfl
      have hbelow : ∀ j e, j < i → c.read j = some e → e.key.bytes < k := by
        intro j e hj he
        apply below
        apply List.mem_of_getElem? (i := j)
        rw [List.getElem?_take_of_lt hj]
        exact hkey j e (by omega) he
      have habove : ∀ j e, i ≤ j → j < c.count → c.read j = some e → k < e.key.bytes := by
        intro j e hij hj he
        apply above
        apply List.mem_of_getElem? (i := j - i)
        rw [List.getElem?_drop, Nat.add_sub_cancel' hij]
        exact hkey j e hj he
      have hsplits : Splits c k i :=
        ⟨count ▸ le, fun j e hj he => cmpLt_iff.mpr (hbelow j e hj he),
          fun j e hij hj he => cmpLt_iff.mpr (habove j e hij hj he)⟩
      refine .miss ?_ hsplits fun j hj => hsplits.unique h hj
      intro j e hj he
      rcases Nat.lt_or_ge j i with hlt | hge
      · exact (hbelow j e hlt he).ne
      · exact (habove j e hge hj he).ne'

end Cells

/-- The order of `bytes_cmp` is a strict total order, the comparison in `dict_search` has its
sign, and a search in a dict that increases under it ends with the entry of the key or with the
only place where the key belongs, whatever the slots from the count on hold. -/
theorem dictSearch_agrees :
    IsStrictTotalOrder Bytes CmpLt ∧
    (∀ (e : KeyCopy) (key : Span), key.isBad = false → ∀ a b : Bytes, e.bytes <+: a →
      key.bytes <+: b → ∃ c c', dictCompare e key = .ok c ∧
        bytesCmp a e.len b key.len = .ok c' ∧ c.sign = c'.sign) ∧
    ∀ (α : Type) (c : Cells (Entry α)) (key : Span), Increasing c → key.isBad = false →
      ∃ r, Located c key.bytes r ∧ ∀ c' : Cells (Entry α), c'.count = c.count →
        (∀ i, i < c.count → c'.read i = c.read i) → c'.dictSearch key = some r := by
  refine ⟨cmpLt_strictTotalOrder, fun e key hkey a b ha hb => dictCompare_sign e hkey ha hb, ?_⟩
  intro α c key hinc hkey
  obtain ⟨entries, count, stored, sorted⟩ := hinc.items
  obtain ⟨r, hsearch, hfound⟩ := dictSearch_found hkey sorted
  refine ⟨r, hfound.located hinc count stored, ?_⟩
  intro c' hcount hsame
  rw [dictSearch_cells (hcount.trans count) (fun i hi => by rw [hsame i (hcount ▸ hi),
    stored i (hcount ▸ hi)]), hsearch]
  rfl

/-- The keys `""`, `"a"` and `"ab"` with one slot to spare, probed with `"aa"`. -/
theorem dictSearch_agrees_gap :
    ∃ r, Located (α := Nat) ⟨none, 4, 3, [some ⟨.null, 0⟩, some ⟨.owned ⟨.platform, 0, 1⟩ [97], 1⟩,
        some ⟨.owned ⟨.platform, 1, 2⟩ [97, 98], 2⟩, none]⟩ [97, 97] r ∧
      Cells.dictSearch (α := Nat) ⟨none, 4, 3, [some ⟨.null, 0⟩,
        some ⟨.owned ⟨.platform, 0, 1⟩ [97], 1⟩,
        some ⟨.owned ⟨.platform, 1, 2⟩ [97, 98], 2⟩, none]⟩ (.mem [97, 97]) = some r := by
  have hinc : Increasing (α := Nat) ⟨none, 4, 3, [some ⟨.null, 0⟩,
      some ⟨.owned ⟨.platform, 0, 1⟩ [97], 1⟩,
      some ⟨.owned ⟨.platform, 1, 2⟩ [97, 98], 2⟩, none]⟩ := by
    constructor
    · intro i hi
      have hi' : i < 3 := hi
      have hcases : i = 0 ∨ i = 1 ∨ i = 2 := by omega
      rcases hcases with rfl | rfl | rfl <;> exact ⟨_, rfl⟩
    · intro i e f hi he hf
      have hi' : i + 1 < 3 := hi
      have hcases : i = 0 ∨ i = 1 := by omega
      rcases hcases with rfl | rfl
      · cases he
        cases hf
        exact ⟨-1, rfl, by decide⟩
      · cases he
        cases hf
        exact ⟨-1, rfl, by decide⟩
  obtain ⟨r, hlocated, hsearch⟩ := dictSearch_agrees.2.2 Nat _ (.mem [97, 97]) hinc rfl
  exact ⟨r, hlocated, hsearch _ rfl fun _ _ => rfl⟩

end Bencode
