import Bencode.Library.CallLog
import Bencode.Sax.Watch

/-!
# Callbacks can only abort

Whatever a table of callbacks does, the calls it gets are the first events of the run
that nobody refuses, less the entries that are null. A call that refuses is the last
one and gives the verdict; otherwise the table makes no difference.
-/

namespace Bencode

open LabelledMachine Delivery

variable {σ : Type}

def Callbacks.installed (cb : Callbacks σ) (e : Event) : Bool := (cb.handler e).isSome

/-- What a call returned: the event with the state that the call was made in. -/
def Callbacks.answer (cb : Callbacks σ) (call : σ × Event) : Status :=
  (callBack (some cb) call.2 call.1).1

/-- A table is called for the events it has an entry for. -/
theorem callBack_offerCall (cb : Callbacks σ) :
    callBack (some cb) =
      offerCall .ok (Option.guard (cb.installed ·)) (callBack (some cb)) := by
  funext e u
  cases hf : cb.handler e with
  | none => simp [offerCall, Option.guard, Callbacks.installed, callBack, hf]
  | some f => simp [offerCall, Option.guard, Callbacks.installed, callBack, hf]

theorem callBack_watched_offerCall (cb : Callbacks σ) :
    callBack (some cb.watched) =
      offerCall .ok (Option.guard (cb.installed ·)) (logged (callBack (some cb))) := by
  funext e u
  cases hf : cb.handler e with
  | none =>
      simp [offerCall, Option.guard, Callbacks.installed, callBack, Callbacks.handler_watched, hf]
  | some f =>
      simp [offerCall, Option.guard, Callbacks.installed, callBack, Callbacks.handler_watched, hf,
        watch, logged]

theorem deliver_called (cb : Callbacks σ) (es : List Event) (user : σ) :
    ∃ calls, deliver .ok (callBack (some cb.watched)) es (user, []) =
        ((deliver .ok (callBack (some cb)) es user).1,
          (deliver .ok (callBack (some cb)) es user).2, calls) ∧
      Called .ok (callBack (some cb)) (es.filter cb.installed)
        (deliver .ok (callBack (some cb)) es user).1 calls := by
  obtain ⟨calls, hrun, hcalled⟩ := deliver_logged .ok (Option.guard (cb.installed ·))
    (callBack (some cb)) es (user, [])
  rw [← callBack_offerCall, List.filterMap_eq_filter] at hcalled
  rw [← callBack_offerCall, ← callBack_watched_offerCall] at hrun
  exact ⟨calls, hrun, hcalled⟩

/-! ## Runs -/

/-- How the calls of a run relate to the run that nobody refuses, with the events `es`, the status
`st` and the offset `off`. -/
structure Listened (cb : Callbacks σ) (es : List Event) (st : Status) (off : Nat)
    (calls : List (σ × Event)) (status : Status) (consumed : Nat) : Prop where
  events : calls.map Prod.snd <+: es.filter cb.installed
  refused : ∀ pre call post, calls = pre ++ call :: post → cb.answer call ≠ .ok →
    post = [] ∧ status = cb.answer call
  complete : (∀ call ∈ calls, cb.answer call = .ok) →
    calls.map Prod.snd = es.filter cb.installed ∧ status = st ∧ consumed = off

theorem Replays.listened {limit : Nat} {w : Bytes} {cb : Callbacks σ} {user : σ} {es : List Event}
    {st : Status} {off : Nat} {r : SaxResult (σ × List (σ × Event))}
    (h : Replays limit w (some cb.watched) (user, []) r) (scan : Scans limit w es st off) :
    Listened cb es st off r.user.2 r.status r.consumed := by
  cases h with
  | finished es' run told =>
      obtain ⟨rfl, heq⟩ := run.unique scan
      obtain ⟨calls, hlog, hcalled⟩ := deliver_called cb es' user
      rw [told] at hlog
      obtain ⟨hst, huser⟩ := Prod.mk.inj hlog
      rw [← hst] at hcalled
      rw [huser]
      refine ⟨hcalled.told, ?_, fun ok => ⟨(hcalled.complete ok).2, Prod.mk.inj heq⟩⟩
      rintro pre call post rfl bad
      exact absurd (hcalled.refused bad).2.symm bad
  | refused es' e d u bad run pos told refusal =>
      obtain ⟨calls, hlog, hcalled⟩ := deliver_called cb (es' ++ [e]) user
      rw [deliver_append_of_go told, deliver_singleton, refusal] at hlog
      obtain ⟨hst, huser⟩ := Prod.mk.inj hlog
      rw [← hst] at hcalled
      rw [huser]
      obtain ⟨rest, rfl, -⟩ := run.of_finishes scan
      have hall := hcalled.append bad (rest.filter cb.installed)
      rw [← List.filter_append] at hall
      refine ⟨hall.told, ?_, fun ok => absurd (hcalled.complete ok).1 bad⟩
      rintro pre call post rfl hbad
      exact hcalled.refused hbad

/-- Callbacks do not influence parsing except by aborting. The watched table is the table with a
log of its calls, and the run with it is the run with the table. -/
theorem bencodeParseSax_listened (input : Span) (cb : Callbacks σ) (user : σ) (maxDepth : Nat) :
    ∃ r es st off,
      bencodeParseSax input (some cb.watched) (user, []) maxDepth = .ok r ∧
      bencodeParseSax input (some cb) user maxDepth = .ok ⟨r.status, r.consumed, r.user.1⟩ ∧
      bencodeParseSax input (some recorder) [] maxDepth = .ok ⟨st, off, es⟩ ∧
      bencodeParseSax input none () maxDepth = .ok ⟨st, off, ()⟩ ∧
      Listened cb es st off r.user.2 r.status r.consumed := by
  cases hbad : input.isBad with
  | false =>
      obtain ⟨r, hrun, hunwatched, -⟩ := bencodeParseSax_watched cb input hbad user maxDepth
      obtain ⟨r', hrun', hreplay⟩ :=
        bencodeParseSax_replays input hbad (some cb.watched) (user, []) maxDepth
      obtain rfl := Except.ok.inj (hrun.symm.trans hrun')
      obtain ⟨es, st, off, hrec, hscan⟩ := bencodeParseSax_recorder input hbad maxDepth
      obtain ⟨es', st', off', hnull, hscan'⟩ := bencodeParseSax_null input hbad maxDepth
      obtain ⟨rfl, heq⟩ := hscan.unique hscan'
      cases heq
      exact ⟨r, es, st, off, hrun, hunwatched, hrec, hnull, hreplay.listened hscan⟩
  | true =>
      refine ⟨⟨.errInvalidArg, 0, user, []⟩, [], .errInvalidArg, 0, ?_, ?_, ?_, ?_, ?_⟩
      iterate 4 simp [bencodeParseSax, hbad]
      exact ⟨List.nil_prefix, fun pre call post h => by simp at h, fun _ => ⟨rfl, rfl, rfl⟩⟩

end Bencode
