import Mathlib.Algebra.BigOperators.Group.Multiset.Basic
import Mathlib.Data.Multiset.ZeroCons

/-! # Ledgers of live memory blocks

A ledger records the blocks that are live in an address space of `limit` bytes,
who handed each of them out, and every misuse of the interface. A schedule
decides which requests are refused; a request that does not fit beside the live
blocks is refused too, because live blocks never overlap.
-/

/-- A block handed out by the allocator `pool`; ids are never reused. -/
structure Block (π : Type) where
  pool : π
  id : Nat
  size : Nat
deriving DecidableEq

/-- The live blocks, with the bookkeeping that makes them a possible heap. -/
structure BlockLedger (π : Type) (limit : Nat) where
  refuses : Nat → Bool
  live : Multiset (Block π)
  requests : Nat
  refused : Nat
  misuses : Nat
  fresh : ∀ b ∈ live, b.id < requests
  nodup : live.Nodup
  fits : (live.map Block.size).sum ≤ limit

namespace BlockLedger

variable {π : Type} {limit : Nat}

def empty (refuses : Nat → Bool) : BlockLedger π limit where
  refuses := refuses
  live := 0
  requests := 0
  refused := 0
  misuses := 0
  fresh := by simp
  nodup := Multiset.nodup_zero
  fits := by simp

def used (L : BlockLedger π limit) : Nat := (L.live.map Block.size).sum

def nextBlock (L : BlockLedger π limit) (pool : π) (size : Nat) : Block π :=
  ⟨pool, L.requests, size⟩

theorem nextBlock_not_mem (L : BlockLedger π limit) (pool : π) (size : Nat) :
    L.nextBlock pool size ∉ L.live := fun h => Nat.lt_irrefl _ (L.fresh _ h)

/-- The request is granted: not refused by the schedule, and there is room for it. -/
def Grants (L : BlockLedger π limit) (size : Nat) : Prop :=
  L.refuses L.requests = false ∧ L.used + size ≤ limit

instance (L : BlockLedger π limit) (size : Nat) : Decidable (L.Grants size) := by
  unfold Grants; exact inferInstance

def misuse (L : BlockLedger π limit) : BlockLedger π limit := { L with misuses := L.misuses + 1 }

/-- Ask for `size` bytes. Asking for none is a misuse. -/
def request (L : BlockLedger π limit) (pool : π) (size : Nat) :
    Option (Block π) × BlockLedger π limit :=
  if h : L.Grants size then
    (some (L.nextBlock pool size),
      { refuses := L.refuses
        live := L.nextBlock pool size ::ₘ L.live
        requests := L.requests + 1
        refused := L.refused
        misuses := if size = 0 then L.misuses + 1 else L.misuses
        fresh := by
          intro b hb
          rcases Multiset.mem_cons.mp hb with rfl | hb
          · exact Nat.lt_succ_self _
          · exact Nat.lt_succ_of_lt (L.fresh b hb)
        nodup := Multiset.nodup_cons.mpr ⟨L.nextBlock_not_mem pool size, L.nodup⟩
        fits := by
          have := h.2
          simp only [Multiset.map_cons, Multiset.sum_cons, nextBlock]
          unfold used at this
          omega })
  else
    (none,
      { L with
        requests := L.requests + 1
        refused := L.refused + 1
        misuses := if size = 0 then L.misuses + 1 else L.misuses
        fresh := fun b hb => Nat.lt_succ_of_lt (L.fresh b hb) })

/-- Give `b` back to `pool`. Only a live block of that very pool may be given back. -/
def release [DecidableEq π] (L : BlockLedger π limit) (pool : π) (b : Block π) :
    BlockLedger π limit :=
  if b ∈ L.live ∧ b.pool = pool then
    { L with
      live := L.live.erase b
      fresh := fun c hc => L.fresh c (Multiset.mem_of_mem_erase hc)
      nodup := L.nodup.erase b
      fits := by
        by_cases hb : b ∈ L.live
        · have hsum := congrArg (fun m => (m.map Block.size).sum) (Multiset.cons_erase hb)
          have hfits := L.fits
          simp only [Multiset.map_cons, Multiset.sum_cons] at hsum
          omega
        · rw [Multiset.erase_of_notMem hb]
          exact L.fits }
  else L.misuse

/-! ## What a piece of code did to the ledger -/

/-- Between `L` and `L'` the blocks `came` were granted and the blocks `gone` were
given back, and the interface was not misused. -/
structure Exchange (L L' : BlockLedger π limit) (gone came : Multiset (Block π)) : Prop where
  live : L'.live + gone = L.live + came
  misuses : L'.misuses = L.misuses
  refused : L.refused ≤ L'.refused

namespace Exchange

variable {L L' L'' : BlockLedger π limit} {gone came gone' came' : Multiset (Block π)}

theorem refl (L : BlockLedger π limit) : Exchange L L 0 0 := ⟨rfl, rfl, Nat.le_refl _⟩

theorem trans (first : Exchange L L' gone came) (second : Exchange L' L'' gone' came') :
    Exchange L L'' (gone + gone') (came + came') where
  live := by
    calc L''.live + (gone + gone') = (L''.live + gone') + gone := by
          rw [add_comm gone, add_assoc]
      _ = (L'.live + gone) + came' := by rw [second.live, add_right_comm]
      _ = L.live + (came + came') := by rw [first.live, add_assoc]
  misuses := second.misuses.trans first.misuses
  refused := first.refused.trans second.refused

/-- Blocks that were granted and given back again do not count. -/
theorem cancel (kept : Multiset (Block π))
    (h : Exchange L L' (gone + kept) (came + kept)) : Exchange L L' gone came where
  live := by
    have hlive := h.live
    rw [← add_assoc, ← add_assoc] at hlive
    exact add_right_cancel hlive
  misuses := h.misuses
  refused := h.refused

/-- An exchange beside blocks that are not touched. -/
theorem frame (h : Exchange L L' gone came) (kept : Multiset (Block π)) :
    Exchange L L' (gone + kept) (came + kept) where
  live := by rw [← add_assoc, ← add_assoc, h.live]
  misuses := h.misuses
  refused := h.refused

theorem congr (h : Exchange L L' gone came) (hgone : gone = gone') (hcame : came = came') :
    Exchange L L' gone' came' := hgone ▸ hcame ▸ h

theorem le_live (h : Exchange L L' gone came) {kept : Multiset (Block π)}
    (hgone : gone + kept ≤ L.live) : kept + came ≤ L'.live := by
  obtain ⟨rest, hrest⟩ := Multiset.le_iff_exists_add.mp hgone
  have hlive := h.live
  rw [hrest, add_comm L'.live, add_assoc, add_assoc] at hlive
  rw [add_left_cancel hlive, add_comm rest, ← add_assoc]
  exact Multiset.le_add_right _ _

theorem came_live (h : Exchange L L' gone came) (hgone : gone ≤ L.live) : came ≤ L'.live := by
  rw [← add_zero gone] at hgone
  simpa using h.le_live hgone

/-- What was live still is when nothing was given back. -/
theorem still_live (h : Exchange L L' 0 came) {kept : Multiset (Block π)} (live : kept ≤ L.live) :
    kept + came ≤ L'.live := h.le_live (by rwa [zero_add])

theorem came_eq (h : Exchange L L' 0 came) : L'.live = L.live + came := by simpa using h.live

/-- What came takes its bytes besides those that were taken. -/
theorem used_eq (h : Exchange L L' 0 came) : L'.used = L.used + (came.map Block.size).sum := by
  rw [used, h.came_eq, Multiset.map_add, Multiset.sum_add]
  rfl

/-- Nothing is left of an exchange that gave back what came. -/
theorem live_eq (h : Exchange L L' 0 0) : L'.live = L.live := by simpa using h.live

end Exchange

section Requests

variable {L L' : BlockLedger π limit} {pool : π} {size : Nat} {b : Block π}

theorem request_some (h : L.request pool size = (some b, L')) :
    b.pool = pool ∧ b.size = size ∧ L.Grants size ∧ L'.refused = L.refused ∧
      (0 < size → Exchange L L' 0 {b}) := by
  unfold request at h
  split at h
  · next hg =>
      cases h
      refine ⟨rfl, rfl, hg, rfl, fun hpos => ⟨?_, if_neg hpos.ne', Nat.le_refl _⟩⟩
      exact (add_zero _).trans (add_comm {L.nextBlock pool size} L.live)
  · cases h

theorem request_none (h : L.request pool size = (none, L')) :
    L'.refused = L.refused + 1 ∧ (0 < size → Exchange L L' 0 0) := by
  unfold request at h
  split at h
  · cases h
  · cases h
    exact ⟨rfl, fun hpos => ⟨rfl, if_neg hpos.ne', Nat.le_succ _⟩⟩

theorem release_live [DecidableEq π] (hb : b ∈ L.live) (hpool : b.pool = pool) :
    Exchange L (L.release pool b) {b} 0 ∧ (L.release pool b).refused = L.refused := by
  unfold release
  rw [if_pos ⟨hb, hpool⟩]
  refine ⟨⟨?_, rfl, Nat.le_refl _⟩, rfl⟩
  exact (add_comm (L.live.erase b) {b}).trans ((Multiset.cons_erase hb).trans (add_zero _).symm)

/-- What is live fits in the address space. -/
theorem sum_size_le {bs : Multiset (Block π)} (h : bs ≤ L.live) :
    (bs.map Block.size).sum ≤ limit := by
  obtain ⟨rest, hrest⟩ := Multiset.le_iff_exists_add.mp h
  have hfits := L.fits
  rw [hrest, Multiset.map_add, Multiset.sum_add] at hfits
  omega

end Requests

end BlockLedger
