import Bencode.Library.BlockLedger

/-! # Counting requests

Code that gives up at the first refusal makes a fixed number of requests, or as many of
them as are granted and one more. The rules below add these numbers up along the code.
-/

namespace BlockLedger

variable {π : Type} {limit : Nat}

/-- Between `L` and `L'` just `k` requests were made, and all of them were granted. -/
structure Asked (k : Nat) (L L' : BlockLedger π limit) : Prop where
  schedule : L'.refuses = L.refuses
  requests : L'.requests = L.requests + k
  refused : L'.refused = L.refused
  granted : ∀ i < k, L.refuses (L.requests + i) = false

/-- Between `L` and `L'` fewer than `k` requests were granted, and the next one, the last that was
made, was refused. -/
structure Stopped (k : Nat) (L L' : BlockLedger π limit) : Prop where
  schedule : L'.refuses = L.refuses
  requests : ∃ j < k, L'.requests = L.requests + j + 1 ∧
    ∀ i < j, L.refuses (L.requests + i) = false
  refused : L'.refused = L.refused + 1

structure Costs (k : Nat) (done : Prop) (L L' : BlockLedger π limit) : Prop where
  all : done → Asked k L L'
  stopped : L.refused < L'.refused → Stopped k L L'

variable {L L' L'' : BlockLedger π limit} {k l : Nat} {p q : Prop}

/-! ## Requests one after another -/

namespace Asked

theorem refl (L : BlockLedger π limit) : Asked 0 L L :=
  ⟨rfl, rfl, rfl, fun i hi => absurd hi (Nat.not_lt_zero i)⟩

/-- The requests behind those of `first`, as they are counted from its start. -/
theorem granted_append (first : Asked k L L')
    (second : ∀ i < l, L'.refuses (L'.requests + i) = false) :
    ∀ i < k + l, L.refuses (L.requests + i) = false := by
  intro i hi
  by_cases hik : i < k
  · exact first.granted i hik
  · have hlast := second (i - k) (by omega)
    rw [first.schedule, first.requests] at hlast
    rwa [show L.requests + k + (i - k) = L.requests + i by omega] at hlast

theorem trans (first : Asked k L L') (second : Asked l L' L'') : Asked (k + l) L L'' where
  schedule := second.schedule.trans first.schedule
  requests := by rw [second.requests, first.requests, Nat.add_assoc]
  refused := second.refused.trans first.refused
  granted := first.granted_append second.granted

theorem thenStopped (first : Asked k L L') (second : Stopped l L' L'') :
    Stopped (k + l) L L'' where
  schedule := second.schedule.trans first.schedule
  requests := by
    obtain ⟨j, hj, hrequests, hgranted⟩ := second.requests
    refine ⟨k + j, by omega, ?_, first.granted_append hgranted⟩
    rw [hrequests, first.requests, Nat.add_assoc L.requests]
  refused := by rw [second.refused, first.refused]

theorem quiet (first : Asked k L L') (second : Asked 0 L' L'') : Asked k L L'' :=
  first.trans second

end Asked

namespace Stopped

theorem mono (h : Stopped k L L') (le : k ≤ l) : Stopped l L L' := by
  obtain ⟨schedule, ⟨j, hj, hrequests⟩, refused⟩ := h
  exact ⟨schedule, ⟨j, hj.trans_le le, hrequests⟩, refused⟩

theorem quiet (first : Stopped k L L') (second : Asked 0 L' L'') : Stopped k L L'' where
  schedule := second.schedule.trans first.schedule
  requests := by
    obtain ⟨j, hj, hrequests, hgranted⟩ := first.requests
    exact ⟨j, hj, second.requests.trans hrequests, hgranted⟩
  refused := second.refused.trans first.refused

end Stopped

namespace Costs

theorem ofAsked (h : Asked k L L') : Costs k p L L' where
  all := fun _ => h
  stopped := fun more => absurd more (h.refused ▸ Nat.lt_irrefl _)

theorem ofStopped (h : Stopped k L L') (hp : ¬ p) : Costs k p L L' where
  all := fun hp' => absurd hp' hp
  stopped := fun _ => h

theorem failed (h : Asked 0 L L') (hp : ¬ p) : Costs k p L L' where
  all := fun hp' => absurd hp' hp
  stopped := fun more => absurd more (h.refused ▸ Nat.lt_irrefl _)

/-- Code that gets to its end only when what it begins with does. -/
theorem weaken (h : Costs k p L L') (imp : q → p) : Costs k q L L' where
  all := fun hq => h.all (imp hq)
  stopped := h.stopped

theorem congr (h : Costs k p L L') (eq : k = l) : Costs l p L L' := eq ▸ h

theorem andThen (first : Costs k p L L') (hp : p) (second : Costs l q L' L'') :
    Costs (k + l) q L L'' where
  all := fun hq => (first.all hp).trans (second.all hq)
  stopped := by
    intro more
    have hfirst := first.all hp
    exact hfirst.thenStopped (second.stopped (hfirst.refused ▸ more))

theorem quiet (first : Costs k p L L') (second : Asked 0 L' L'') : Costs k p L L'' where
  all := fun hp => (first.all hp).quiet second
  stopped := fun more => (first.stopped (second.refused ▸ more)).quiet second

/-- Code that gives up when what it begins with has failed. -/
theorem givenUp (first : Costs k p L L') (second : Asked 0 L' L'') (le : k ≤ l) (hq : ¬ q) :
    Costs l q L L'' where
  all := fun h => absurd h hq
  stopped := fun more => ((first.quiet second).stopped more).mono le

end Costs

/-! ## The operations of the ledger -/

section Operations

variable {pool : π} {size : Nat} {b : Block π}

theorem request_asked (h : L.request pool size = (some b, L')) : Asked 1 L L' := by
  unfold request at h
  split at h
  · next hg =>
      cases h
      refine ⟨rfl, rfl, rfl, ?_⟩
      intro i hi
      rw [Nat.lt_one_iff.mp hi]
      exact hg.1
  · cases h

theorem request_stopped (h : L.request pool size = (none, L')) : Stopped 1 L L' := by
  unfold request at h
  split at h
  · cases h
  · cases h
    exact ⟨rfl, ⟨0, Nat.one_pos, rfl, fun i hi => absurd hi (Nat.not_lt_zero i)⟩, rfl⟩

theorem misuse_quiet (L : BlockLedger π limit) : Asked 0 L L.misuse :=
  ⟨rfl, rfl, rfl, fun i hi => absurd hi (Nat.not_lt_zero i)⟩

theorem release_quiet [DecidableEq π] (L : BlockLedger π limit) (pool : π) (b : Block π) :
    Asked 0 L (L.release pool b) := by
  unfold release
  split
  · exact ⟨rfl, rfl, rfl, fun i hi => absurd hi (Nat.not_lt_zero i)⟩
  · exact L.misuse_quiet

end Operations

end BlockLedger
