import Bencode.Library.Delivery

/-! # The log of the calls of a delivery

Some of the events that are delivered lead to a call of the consumer, the others are
passed over. A logged consumer does what it did before and keeps a log of its calls,
each with the state it was made in. A verdict other than `go` ends the log.
-/

namespace Delivery

variable {ε κ σ τ : Type}

/-- Deliver an event to a consumer that is called only for some of the events. -/
def offerCall (go : τ) (call : ε → Option κ) (f : κ → σ → τ × σ) (e : ε) (s : σ) : τ × σ :=
  match call e with
  | none => (go, s)
  | some k => f k s

def logged (f : κ → σ → τ × σ) (k : κ) (u : σ × List (σ × κ)) : τ × σ × List (σ × κ) :=
  ((f k u.1).1, (f k u.1).2, u.2 ++ [(u.1, k)])

def answer (f : κ → σ → τ × σ) (call : σ × κ) : τ := (f call.2 call.1).1

/-- `Called go f ks v calls`: the calls for `ks` in turn, up to the first refusal, and the
verdict. -/
inductive Called (go : τ) (f : κ → σ → τ × σ) (ks : List κ) : τ → List (σ × κ) → Prop
  | through {calls : List (σ × κ)} (told : calls.map Prod.snd = ks)
      (accepted : ∀ call ∈ calls, answer f call = go) : Called go f ks go calls
  | aborted {calls : List (σ × κ)} {last : σ × κ} (told : (calls ++ [last]).map Prod.snd <+: ks)
      (accepted : ∀ call ∈ calls, answer f call = go) (bad : answer f last ≠ go) :
      Called go f ks (answer f last) (calls ++ [last])

variable {go v : τ} {f : κ → σ → τ × σ} {ks : List κ} {calls : List (σ × κ)}

namespace Called

theorem cons {k : κ} {s : σ} (h : Called go f ks v calls) (ok : answer f (s, k) = go) :
    Called go f (k :: ks) v ((s, k) :: calls) := by
  cases h with
  | through told accepted =>
      exact .through (congrArg (k :: ·) told) (List.forall_mem_cons.mpr ⟨ok, accepted⟩)
  | @aborted calls last told accepted bad =>
      rw [← List.cons_append]
      refine .aborted ?_ (List.forall_mem_cons.mpr ⟨ok, accepted⟩) bad
      exact List.cons_prefix_cons.mpr ⟨rfl, told⟩

theorem refusal {k : κ} {s : σ} (ks : List κ) (bad : answer f (s, k) ≠ go) :
    Called go f (k :: ks) (answer f (s, k)) [(s, k)] := by
  rw [← List.nil_append [(s, k)]]
  exact .aborted ⟨ks, rfl⟩ (fun _ h => absurd h List.not_mem_nil) bad

theorem append (h : Called go f ks v calls) (bad : v ≠ go) (ks' : List κ) :
    Called go f (ks ++ ks') v calls := by
  cases h with
  | through told accepted => exact absurd rfl bad
  | aborted told accepted bad => exact .aborted (told.trans (List.prefix_append _ _)) accepted bad

theorem told (h : Called go f ks v calls) : calls.map Prod.snd <+: ks := by
  cases h with
  | through told accepted => exact told ▸ List.prefix_refl _
  | aborted told accepted bad => exact told

/-- A call that was refused is the last one and gives the verdict. -/
theorem refused {pre post : List (σ × κ)} {call : σ × κ}
    (h : Called go f ks v (pre ++ call :: post)) (bad : answer f call ≠ go) :
    post = [] ∧ v = answer f call := by
  generalize hcalls : pre ++ call :: post = calls at h
  cases h with
  | through told accepted => exact absurd (accepted call (by simp [← hcalls])) bad
  | @aborted before last told accepted _ =>
      cases post using List.reverseRecOn with
      | nil =>
          obtain ⟨-, heq⟩ := List.append_inj' hcalls rfl
          cases heq
          exact ⟨rfl, rfl⟩
      | append_singleton post x =>
          rw [← List.cons_append, ← List.append_assoc] at hcalls
          obtain ⟨rfl, -⟩ := List.append_inj' hcalls rfl
          exact absurd (accepted call (by simp)) bad

theorem complete (h : Called go f ks v calls) (ok : ∀ call ∈ calls, answer f call = go) :
    v = go ∧ calls.map Prod.snd = ks := by
  cases h with
  | through told accepted => exact ⟨rfl, told⟩
  | aborted told accepted bad => exact absurd (ok _ (by simp)) bad

end Called

/-- Logging the calls changes nothing else, and the log is what the events lead to. -/
theorem deliver_logged [DecidableEq τ] (go : τ) (call : ε → Option κ) (f : κ → σ → τ × σ)
    (es : List ε) (u : σ × List (σ × κ)) :
    ∃ calls, deliver go (offerCall go call (logged f)) es u =
        ((deliver go (offerCall go call f) es u.1).1,
          (deliver go (offerCall go call f) es u.1).2, u.2 ++ calls) ∧
      Called go f (es.filterMap call) (deliver go (offerCall go call f) es u.1).1 calls := by
  induction es generalizing u with
  | nil => exact ⟨[], by simp, .through rfl (fun _ h => absurd h List.not_mem_nil)⟩
  | cons e es ih =>
      cases hcall : call e with
      | none =>
          obtain ⟨calls, hrun, hcalled⟩ := ih u
          refine ⟨calls, ?_⟩
          simp only [deliver_cons, offerCall, hcall, if_true, List.filterMap_cons]
          exact ⟨hrun, hcalled⟩
      | some k =>
          simp only [deliver_cons, offerCall, hcall, List.filterMap_cons]
          by_cases hok : (f k u.1).1 = go
          · obtain ⟨calls, hrun, hcalled⟩ := ih (logged f k u).2
            refine ⟨(u.1, k) :: calls, ?_⟩
            have hok' : (logged f k u).1 = go := hok
            rw [if_pos hok, if_pos hok']
            refine ⟨hrun.trans ?_, hcalled.cons hok⟩
            simp [logged]
          · have hok' : (logged f k u).1 ≠ go := hok
            rw [if_neg hok, if_neg hok']
            exact ⟨[(u.1, k)], rfl, .refusal _ hok⟩

/-- What holds at the start and is kept by every accepted call holds before every call. -/
theorem logged_invariant [DecidableEq τ] {go : τ} {call : ε → Option κ} {f : κ → σ → τ × σ}
    {P : σ → Prop} {es : List ε} {u : σ × List (σ × κ)} (start : P u.1)
    (keep : ∀ k ∈ es.filterMap call, ∀ s, P s → (f k s).1 = go → P (f k s).2) :
    ∀ c ∈ (deliver go (offerCall go call (logged f)) es u).2.2, c ∈ u.2 ∨ P c.1 := by
  induction es generalizing u with
  | nil => exact fun c hc => .inl hc
  | cons e es ih =>
      rw [deliver_cons, offerCall]
      cases hcall : call e with
      | none =>
          dsimp only
          rw [if_pos rfl]
          refine ih start fun k hk => keep k ?_
          rwa [List.filterMap_cons, hcall]
      | some k =>
          have hkeep := keep k (by rw [List.filterMap_cons, hcall]; exact List.mem_cons_self)
          dsimp only
          intro c hc
          by_cases hok : (f k u.1).1 = go
          · have hok' : (logged f k u).1 = go := hok
            rw [if_pos hok'] at hc
            have hrest := ih (u := (logged f k u).2) (hkeep u.1 start hok)
              (fun k' hk' => keep k' (by
                rw [List.filterMap_cons, hcall]
                exact List.mem_cons_of_mem _ hk')) c hc
            rcases hrest with hlog | hp
            · rcases List.mem_append.mp hlog with hlog | hlast
              · exact .inl hlog
              · rw [List.mem_singleton.mp hlast]
                exact .inr start
            · exact .inr hp
          · have hok' : (logged f k u).1 ≠ go := hok
            rw [if_neg hok'] at hc
            rcases List.mem_append.mp hc with hlog | hlast
            · exact .inl hlog
            · rw [List.mem_singleton.mp hlast]
              exact .inr start

end Delivery
