import Bencode.Source.ParseSax
import Bencode.Source.Value
import Mathlib.Data.List.Lex
import Mathlib.Data.UInt

/-!
# Both key comparisons are the lexicographic order

`bytes_cmp` of the parser and the comparison inline in `dict_search` are written
separately. Both report the sign of the same linear order on byte strings: the first
difference as unsigned bytes, a proper prefix before the longer string.
-/

instance UInt8.instLinearOrder : LinearOrder UInt8 where
  le_refl := UInt8.le_refl
  le_trans _ _ _ := UInt8.le_trans
  le_antisymm _ _ := UInt8.le_antisymm
  le_total := UInt8.le_total
  lt_iff_le_not_ge a b := by
    simp only [UInt8.lt_iff_toNat_lt, UInt8.le_iff_toNat_le]
    omega
  toDecidableLE := inferInstance

/-- A list is below every proper extension of it. -/
theorem List.lt_append_of_ne_nil {α : Type} [LinearOrder α] (xs : List α) {ys : List α}
    (h : ys ≠ []) : xs < xs ++ ys := by
  induction xs with
  | nil =>
      cases ys with
      | nil => exact absurd rfl h
      | cons y ys => exact List.nil_lt_cons y ys
  | cons x xs ih => exact List.cons_lt_cons_iff.mpr (.inr ⟨rfl, ih⟩)

namespace Bencode

/-- The sign of `c` is the order of `a` and `b`. -/
def Compares (c : Int) (a b : Bytes) : Prop := (c < 0 ↔ a < b) ∧ (c = 0 ↔ a = b)

theorem Compares.pos_iff {c : Int} {a b : Bytes} (h : Compares c a b) : c > 0 ↔ b < a := by
  obtain ⟨hneg, hzero⟩ := h
  constructor
  · intro hc
    rcases lt_trichotomy a b with hab | hab | hab
    · have := hneg.mpr hab
      omega
    · have := hzero.mpr hab
      omega
    · exact hab
  · intro hba
    have h1 : ¬ c < 0 := fun hc => lt_asymm (hneg.mp hc) hba
    have h2 : ¬ c = 0 := fun hc => absurd (hzero.mp hc) hba.ne'
    omega

theorem Compares.of_lt {c : Int} {a b : Bytes} (hc : c < 0) (h : a < b) : Compares c a b :=
  ⟨iff_of_true hc h, iff_of_false hc.ne h.ne⟩

theorem Compares.of_gt {c : Int} {a b : Bytes} (hc : c > 0) (h : b < a) : Compares c a b :=
  ⟨iff_of_false hc.le.not_gt h.not_gt, iff_of_false hc.ne' h.ne'⟩

theorem Compares.of_eq {a b : Bytes} (h : a = b) : Compares 0 a b :=
  ⟨iff_of_false (lt_irrefl _) h.not_lt, iff_of_true rfl h⟩

/-! ## The first difference -/

theorem firstDiff_neg {xs ys : Bytes} (h : firstDiff xs ys < 0) (us vs : Bytes) :
    xs ++ us < ys ++ vs := by
  induction xs generalizing ys with
  | nil => simp [firstDiff] at h
  | cons x xs ih =>
      cases ys with
      | nil => simp [firstDiff] at h
      | cons y ys =>
          simp only [firstDiff] at h
          apply List.cons_lt_cons_iff.mpr
          split at h
          · next hxy => exact .inr ⟨hxy, ih h⟩
          · refine .inl (UInt8.lt_iff_toNat_lt.mpr ?_)
            omega

theorem firstDiff_swap (xs ys : Bytes) : firstDiff ys xs = -firstDiff xs ys := by
  induction xs generalizing ys with
  | nil => cases ys <;> rfl
  | cons x xs ih =>
      cases ys with
      | nil => rfl
      | cons y ys =>
          by_cases hxy : x = y
          · subst hxy
            simpa [firstDiff] using ih ys
          · have hyx : ¬ y = x := fun h => hxy h.symm
            simp only [firstDiff, if_neg hxy, if_neg hyx]
            omega

theorem firstDiff_pos {xs ys : Bytes} (h : firstDiff xs ys > 0) (us vs : Bytes) :
    ys ++ vs < xs ++ us := by
  apply firstDiff_neg
  rw [firstDiff_swap]
  omega

theorem firstDiff_eq_zero {xs ys : Bytes} (hlen : xs.length = ys.length)
    (h : firstDiff xs ys = 0) : xs = ys := by
  induction xs generalizing ys with
  | nil => exact (List.eq_nil_of_length_eq_zero hlen.symm).symm
  | cons x xs ih =>
      cases ys with
      | nil => simp at hlen
      | cons y ys =>
          simp only [firstDiff] at h
          split at h
          · next hxy => rw [hxy, ih (by simpa using hlen) h]
          · next hxy =>
              exfalso
              apply hxy
              apply UInt8.toNat_inj.mp
              omega

/-! ## The two-stage comparison -/

def prefixCompare (a b : Bytes) : Int :=
  let n := min a.length b.length
  let c := firstDiff (a.take n) (b.take n)
  if c ≠ 0 then c
  else if a.length < b.length then -1
  else if a.length > b.length then 1
  else 0

theorem prefixCompare_compares (a b : Bytes) : Compares (prefixCompare a b) a b := by
  have hlen : (a.take (min a.length b.length)).length =
      (b.take (min a.length b.length)).length := by
    simp only [List.length_take]
    omega
  have ha := List.take_append_drop (min a.length b.length) a
  have hb := List.take_append_drop (min a.length b.length) b
  unfold prefixCompare
  dsimp only
  split
  · next hc =>
      rcases Int.lt_or_gt_of_ne hc with hneg | hpos
      · have hlt := firstDiff_neg hneg (a.drop (min a.length b.length))
          (b.drop (min a.length b.length))
        rw [ha, hb] at hlt
        exact .of_lt hneg hlt
      · have hlt := firstDiff_pos hpos (a.drop (min a.length b.length))
          (b.drop (min a.length b.length))
        rw [ha, hb] at hlt
        exact .of_gt hpos hlt
  · next hc =>
      have heq := firstDiff_eq_zero hlen (not_not.mp hc)
      split
      · next hlt =>
          have hmin : min a.length b.length = a.length := by omega
          rw [hmin, List.take_length] at heq
          have hne : b.drop a.length ≠ [] := by
            rw [← List.length_pos_iff, List.length_drop]
            omega
          have hb' := List.take_append_drop a.length b
          rw [← heq] at hb'
          exact .of_lt (by decide) (hb' ▸ a.lt_append_of_ne_nil hne)
      · split
        · next hgt =>
            have hmin : min a.length b.length = b.length := by omega
            rw [hmin, List.take_length] at heq
            have hne : a.drop b.length ≠ [] := by
              rw [← List.length_pos_iff, List.length_drop]
              omega
            have ha' := List.take_append_drop b.length a
            rw [heq] at ha'
            exact .of_gt (by decide) (ha' ▸ b.lt_append_of_ne_nil hne)
        · have hlen' : a.length = b.length := by omega
          rw [hlen', min_self, List.take_length, ← hlen', List.take_length] at heq
          exact .of_eq heq

/-! ## The instances in the code -/

theorem bytesCmp_eq {a b k l : Bytes} (ha : k <+: a) (hb : l <+: b) :
    bytesCmp a k.length b l.length = .ok (prefixCompare k l) := by
  have hn : (if k.length < l.length then k.length else l.length) = min k.length l.length := by
    split <;> omega
  have hcmp : (if min k.length l.length = 0 then .ok 0 else memcmp a b (min k.length l.length)) =
      (.ok (firstDiff (k.take (min k.length l.length)) (l.take (min k.length l.length))) :
        Except Fault Int) := by
    split
    · next h0 =>
        rw [h0]
        rfl
    · have hla := ha.length_le
      have hlb := hb.length_le
      obtain ⟨u, rfl⟩ := ha
      obtain ⟨v, rfl⟩ := hb
      rw [memcmp, if_pos ⟨by omega, by omega⟩, List.take_append_of_le_length (by omega),
        List.take_append_of_le_length (by omega)]
  unfold bytesCmp prefixCompare
  dsimp only
  rw [hn, hcmp]
  dsimp only
  split
  · rfl
  · split
    · rfl
    · split <;> rfl

@[simp] theorem KeyCopy.length_bytes (e : KeyCopy) : e.bytes.length = e.len := by
  cases e <;> rfl

theorem Span.length_bytes {key : Span} (h : key.isBad = false) : key.bytes.length = key.len := by
  cases key with
  | null n =>
      have hn : n = 0 := by simpa [Span.isBad] using h
      rw [hn]
      rfl
  | mem bytes => rfl

theorem dictCompare_eq (e : KeyCopy) {key : Span} (h : key.isBad = false) :
    dictCompare e key = .ok (prefixCompare e.bytes key.bytes) := by
  have hlen := Span.length_bytes h
  have hn : (if e.len < key.len then e.len else key.len) = min e.len key.len := by
    split <;> omega
  have hcmp : (if min e.len key.len = 0 then .ok 0
        else memcmp e.bytes key.bytes (min e.len key.len)) =
      (.ok (firstDiff (e.bytes.take (min e.len key.len))
        (key.bytes.take (min e.len key.len))) : Except Fault Int) := by
    split
    · next h0 =>
        rw [h0]
        rfl
    · rw [memcmp, if_pos ⟨by simp, by omega⟩]
  unfold dictCompare prefixCompare
  dsimp only
  rw [hn, hcmp]
  simp only [KeyCopy.length_bytes, hlen]
  split
  · next hc =>
      rw [if_neg (not_not.mpr hc)]
      split
      · rfl
      · split <;> rfl
  · rfl

end Bencode
