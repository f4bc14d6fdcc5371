import Mathlib.Data.List.Induction

/-! # Delivering events to a consumer that may refuse

A producer hands a list of events, one by one, to a stateful consumer. The
consumer answers each offer with a verdict; the first verdict other than `go`
ends the delivery and is its result.
-/

namespace Delivery

variable {ε σ τ : Type} [DecidableEq τ]

/-- Offer the events in order and stop at the first verdict other than `go`. -/
def deliver (go : τ) (offer : ε → σ → τ × σ) : List ε → σ → τ × σ
  | [], s => (go, s)
  | e :: es, s =>
      if (offer e s).1 = go then deliver go offer es (offer e s).2 else offer e s

variable {go : τ} {offer : ε → σ → τ × σ}

@[simp] theorem deliver_nil (s : σ) : deliver go offer [] s = (go, s) := rfl

theorem deliver_cons (e : ε) (es : List ε) (s : σ) :
    deliver go offer (e :: es) s =
      if (offer e s).1 = go then deliver go offer es (offer e s).2 else offer e s := rfl

theorem deliver_singleton (e : ε) (s : σ) : deliver go offer [e] s = offer e s := by
  rw [deliver_cons]
  split
  · next h => rw [deliver_nil, ← h]
  · rfl

theorem deliver_append (xs ys : List ε) (s : σ) :
    deliver go offer (xs ++ ys) s =
      if (deliver go offer xs s).1 = go then deliver go offer ys (deliver go offer xs s).2
      else deliver go offer xs s := by
  induction xs generalizing s with
  | nil => simp
  | cons x xs ih =>
      simp only [List.cons_append, deliver_cons]
      by_cases hx : (offer x s).1 = go
      · simp only [hx, if_true]
        exact ih (offer x s).2
      · simp [hx]

theorem deliver_congr {offer' : ε → σ → τ × σ} {es : List ε}
    (h : ∀ e ∈ es, ∀ s, offer e s = offer' e s) (s : σ) :
    deliver go offer es s = deliver go offer' es s := by
  induction es generalizing s with
  | nil => rfl
  | cons e es ih =>
      simp only [deliver_cons, h e List.mem_cons_self]
      rw [ih fun e' he' => h e' (List.mem_cons_of_mem e he')]

/-- A consumer whose states are those of another one in disguise answers alike. -/
theorem deliver_simulated {σ' : Type} {offer' : ε → σ' → τ × σ'} (f : σ → σ')
    (sim : ∀ e s, offer' e (f s) = ((offer e s).1, f (offer e s).2)) (es : List ε) (s : σ) :
    deliver go offer' es (f s) =
      ((deliver go offer es s).1, f (deliver go offer es s).2) := by
  induction es generalizing s with
  | nil => rfl
  | cons e es ih =>
      simp only [deliver_cons, sim]
      split
      · exact ih _
      · rfl

theorem deliver_append_of_go {xs : List ε} {s s' : σ}
    (h : deliver go offer xs s = (go, s')) (ys : List ε) :
    deliver go offer (xs ++ ys) s = deliver go offer ys s' := by
  rw [deliver_append, h]
  simp

/-- A consumer that writes down what it is offered receives the whole list. -/
theorem deliver_record (go : τ) (xs : List ε) (log : List ε) :
    deliver go (fun e log => (go, log ++ [e])) xs log = (go, log ++ xs) := by
  induction xs generalizing log with
  | nil => simp
  | cons x xs ih => simp [deliver_cons, ih]

end Delivery
