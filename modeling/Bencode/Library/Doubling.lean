import Mathlib.Algebra.Order.Floor.Div
import Mathlib.Data.Nat.Log

/-! # Arrays that grow by doubling

An array that begins with `first` slots and is doubled whenever it is full has, after `n`
elements were put in one by one, the capacity `first` doubled as often as it takes to
reach `n`. So it has been grown once more than that.
-/

namespace Doubling

variable {first n : Nat}

/-- How often `first` is doubled until it reaches `n`. -/
def rounds (first n : Nat) : Nat := Nat.clog 2 (n ⌈/⌉ first)

/-- The capacity of an array that holds `n` elements. -/
def capacity (first n : Nat) : Nat := if n = 0 then 0 else first * 2 ^ rounds first n

/-- How often an array that holds `n` elements has been grown. -/
def growths (first n : Nat) : Nat := if n = 0 then 0 else rounds first n + 1

def growth (first n : Nat) : Nat := if n + 1 ≤ capacity first n then 0 else 1

theorem rounds_le_iff (pos : 0 < first) {r : Nat} :
    rounds first n ≤ r ↔ n ≤ first * 2 ^ r := by
  rw [rounds, Nat.clog_le_iff_le_pow Nat.one_lt_two, ceilDiv_le_iff_le_mul pos]

theorem le_capacity (pos : 0 < first) (n : Nat) : n ≤ capacity first n := by
  unfold capacity
  split
  · next hzero => exact hzero.le
  · exact (rounds_le_iff pos).mp (Nat.le_refl _)

theorem lt_of_lt_rounds (pos : 0 < first) {r : Nat} (lt : r < rounds first n) :
    first * 2 ^ r < n := by
  by_contra hle
  exact Nat.not_lt_of_le ((rounds_le_iff pos).mpr (Nat.le_of_not_lt hle)) lt

/-- The capacity is less than twice what it has to be. -/
theorem capacity_le (two : 2 ≤ first) (n : Nat) : capacity first n ≤ first * n := by
  unfold capacity
  split
  · exact Nat.zero_le _
  · next hn =>
      cases hr : rounds first n with
      | zero => exact Nat.mul_le_mul_left first (Nat.one_le_iff_ne_zero.mpr hn)
      | succ r =>
          have hlt := lt_of_lt_rounds (by omega : 0 < first) (n := n) (r := r) (by omega)
          have hmul := Nat.mul_le_mul_right n two
          rw [pow_succ, ← Nat.mul_assoc]
          omega

theorem rounds_succ_of_le (pos : 0 < first) (hn : n ≠ 0) (room : n + 1 ≤ capacity first n) :
    rounds first (n + 1) = rounds first n := by
  rw [capacity, if_neg hn] at room
  apply Nat.le_antisymm ((rounds_le_iff pos).mpr room)
  have hle := le_capacity pos (n + 1)
  rw [capacity, if_neg (Nat.succ_ne_zero n)] at hle
  exact (rounds_le_iff pos).mpr ((Nat.le_succ n).trans hle)

theorem rounds_succ_of_lt (pos : 0 < first) (hn : n ≠ 0) (full : capacity first n < n + 1) :
    rounds first (n + 1) = rounds first n + 1 := by
  have hle := le_capacity pos n
  have heq : first * 2 ^ rounds first n = n := by
    rw [capacity, if_neg hn] at full hle
    omega
  apply Nat.le_antisymm
  · rw [rounds_le_iff pos, pow_succ, ← Nat.mul_assoc]
    omega
  · apply Nat.succ_le_of_lt
    by_contra hle'
    have := (rounds_le_iff pos).mp (Nat.le_of_not_lt hle')
    omega

theorem rounds_one (pos : 0 < first) : rounds first 1 = 0 :=
  Nat.le_zero.mp ((rounds_le_iff pos).mpr (Nat.le_mul_of_pos_left 1 pos))

theorem capacity_succ_of_le (pos : 0 < first) (room : n + 1 ≤ capacity first n) :
    capacity first (n + 1) = capacity first n := by
  have hn : n ≠ 0 := by
    rintro rfl
    exact Nat.not_succ_le_zero 0 room
  have hcap : capacity first n = first * 2 ^ rounds first n := if_neg hn
  rw [capacity, if_neg (Nat.succ_ne_zero n), rounds_succ_of_le pos hn room, hcap]

theorem growths_succ (pos : 0 < first) (n : Nat) :
    growths first (n + 1) = growths first n + growth first n := by
  have hnext : growths first (n + 1) = rounds first (n + 1) + 1 := if_neg (Nat.succ_ne_zero n)
  rw [hnext, growth]
  by_cases hn : n = 0
  · subst hn
    rw [rounds_one pos, if_neg (by simp [capacity])]
    rfl
  · have hcount : growths first n = rounds first n + 1 := if_neg hn
    rw [hcount]
    split
    · next room => rw [rounds_succ_of_le pos hn room]
    · next full => rw [rounds_succ_of_lt pos hn (Nat.lt_of_not_le full)]

theorem capacity_add_of_le (pos : 0 < first) {k : Nat} (room : n + k ≤ capacity first n) :
    capacity first (n + k) = capacity first n := by
  induction k with
  | zero => rfl
  | succ k ih =>
      have hk := ih (by omega)
      rw [← hk, ← Nat.add_assoc] at room
      rw [← Nat.add_assoc, capacity_succ_of_le pos room, hk]

theorem growths_mono (pos : 0 < first) {m : Nat} (le : n ≤ m) :
    growths first n ≤ growths first m := by
  induction m, le using Nat.le_induction with
  | base => exact Nat.le_refl _
  | succ m le ih =>
      rw [growths_succ pos]
      exact ih.trans (Nat.le_add_right _ _)

theorem growths_lt (pos : 0 < first) {m : Nat} (full : capacity first n < m) :
    growths first n < growths first m := by
  have hm : m ≠ 0 := by omega
  have hnext : growths first m = rounds first m + 1 := if_neg hm
  rw [hnext]
  unfold capacity at full
  unfold growths
  split at full
  · next hzero =>
      rw [if_pos hzero]
      exact Nat.succ_pos _
  · next hn =>
      rw [if_neg hn]
      apply Nat.succ_lt_succ
      by_contra hle
      exact Nat.not_le_of_lt full ((rounds_le_iff pos).mp (Nat.le_of_not_lt hle))

/-- The first capacity in the row of doublings that is large enough. -/
theorem capacity_eq (pos : 0 < first) (hn : n ≠ 0) {r : Nat} (enough : n ≤ first * 2 ^ r)
    (short : ∀ q, q + 1 = r → first * 2 ^ q < n) : capacity first n = first * 2 ^ r := by
  have hrounds : rounds first n = r := by
    apply Nat.le_antisymm ((rounds_le_iff pos).mpr enough)
    cases r with
    | zero => exact Nat.zero_le _
    | succ q =>
        apply Nat.succ_le_of_lt
        by_contra hle
        exact Nat.not_le_of_lt (short q rfl) ((rounds_le_iff pos).mp (Nat.le_of_not_lt hle))
  rw [capacity, if_neg hn, hrounds]

example : (List.range 10).map (growths 4) = [0, 1, 1, 1, 1, 2, 2, 2, 2, 3] := by decide

end Doubling
