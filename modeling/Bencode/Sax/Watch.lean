import Bencode.Sax.Refinement

/-!
# Watching the callbacks of a run

A watched table behaves like the table it wraps and keeps a log of every call with the
state the call was made in. A run with the watched table is the run of the table.
-/

namespace Bencode

open LabelledMachine Delivery

variable {σ : Type}

/-! ## Watched tables -/

def watch (e : Event) (f : σ → Status × σ) (u : σ × List (σ × Event)) :
    Status × σ × List (σ × Event) :=
  ((f u.1).1, (f u.1).2, u.2 ++ [(u.1, e)])

/-- The table `cb` with a log beside its state. -/
def Callbacks.watched (cb : Callbacks σ) : Callbacks (σ × List (σ × Event)) where
  onInt := cb.onInt.map fun f value => watch (.int value) (f value)
  onString := cb.onString.map fun f off bytes => watch (.string off bytes) (f off bytes)
  onListBegin := cb.onListBegin.map (watch .listBegin)
  onListEnd := cb.onListEnd.map (watch .listEnd)
  onDictBegin := cb.onDictBegin.map (watch .dictBegin)
  onDictEnd := cb.onDictEnd.map (watch .dictEnd)

theorem Callbacks.handler_watched (cb : Callbacks σ) (e : Event) :
    cb.watched.handler e = (cb.handler e).map (watch e) := by
  cases e with
  | int value => simp [handler, watched, Option.map_map, Function.comp_def]
  | string off bytes => simp [handler, watched, Option.map_map, Function.comp_def]
  | listBegin => rfl
  | listEnd => rfl
  | dictBegin => rfl
  | dictEnd => rfl

/-- The log of the calls that `cb` got while the events were offered to it in turn. -/
theorem callBack_watched (cb : Callbacks σ) (e : Event) (u : σ × List (σ × Event)) :
    ∃ log, callBack (some cb.watched) e u =
        ((callBack (some cb) e u.1).1, (callBack (some cb) e u.1).2, log) ∧
      (log = u.2 ∨ log = u.2 ++ [(u.1, e)]) := by
  simp only [callBack, Option.bind_some, Callbacks.handler_watched]
  cases cb.handler e with
  | none => exact ⟨u.2, rfl, .inl rfl⟩
  | some f => exact ⟨_, rfl, .inr rfl⟩

/-- Every entry of the log is a call made after a beginning of the events. -/
theorem deliver_watched (cb : Callbacks σ) (es : List Event) (u : σ × List (σ × Event)) :
    ∃ log, deliver .ok (callBack (some cb.watched)) es u =
        ((deliver .ok (callBack (some cb)) es u.1).1,
          (deliver .ok (callBack (some cb)) es u.1).2, log) ∧
      ∀ t e, (t, e) ∈ log → (t, e) ∈ u.2 ∨ ∃ pre post, es = pre ++ e :: post ∧
        deliver .ok (callBack (some cb)) pre u.1 = (.ok, t) := by
  induction es generalizing u with
  | nil => exact ⟨u.2, rfl, fun t e h => .inl h⟩
  | cons e es ih =>
      obtain ⟨log, hcall, hlog⟩ := callBack_watched cb e u
      have hmem : ∀ t e', (t, e') ∈ log → (t, e') ∈ u.2 ∨ ∃ pre post, e :: es = pre ++ e' :: post ∧
          deliver .ok (callBack (some cb)) pre u.1 = (.ok, t) := by
        intro t e' h
        rcases hlog with rfl | rfl
        · exact .inl h
        · rcases List.mem_append.mp h with h | h
          · exact .inl h
          · cases List.mem_singleton.mp h
            exact .inr ⟨[], es, rfl, rfl⟩
      simp only [deliver_cons, hcall]
      by_cases hok : (callBack (some cb) e u.1).1 = .ok
      · simp only [if_pos hok]
        obtain ⟨log', hrun, hlog'⟩ := ih ((callBack (some cb) e u.1).2, log)
        refine ⟨log', hrun, ?_⟩
        intro t e' h
        rcases hlog' t e' h with h | ⟨pre, post, rfl, hpre⟩
        · exact hmem t e' h
        · refine .inr ⟨e :: pre, post, rfl, ?_⟩
          rw [deliver_cons, if_pos hok, hpre]
      · simp only [if_neg hok]
        exact ⟨log, rfl, hmem⟩

/-! ## Watched runs -/

section Runs

variable {limit : Nat} {w : Bytes} {cb : Option (Callbacks σ)} {user : σ} {r r' : SaxResult σ}

theorem deliver_refusal {go : Status} {offer : Event → σ → Status × σ} {es : List Event}
    {e : Event} {s u : σ} (told : deliver go offer es s = (go, u)) (bad : (offer e u).1 ≠ go)
    (rest : List Event) : deliver go offer (es ++ e :: rest) s = offer e u := by
  rw [deliver_append_of_go told, deliver_cons, if_neg bad]

theorem refused_once {es es' rest : List Event} {e e' : Event} {s u u' : σ}
    {offer : Event → σ → Status × σ} (told : deliver .ok offer es s = (.ok, u))
    (bad : (offer e u).1 ≠ .ok) (told' : deliver .ok offer es' s = (.ok, u'))
    (h : es' ++ [e'] = es ++ [e] ++ rest) : rest = [] ∧ es' = es ∧ e' = e := by
  cases rest using List.reverseRecOn with
  | nil =>
      rw [List.append_nil] at h
      obtain ⟨rfl, heq⟩ := List.append_inj' h rfl
      cases heq
      exact ⟨rfl, rfl, rfl⟩
  | append_singleton rest x =>
      rw [← List.append_assoc] at h
      obtain ⟨rfl, -⟩ := List.append_inj' h rfl
      rw [List.append_assoc, List.singleton_append, deliver_refusal told bad] at told'
      rw [told'] at bad
      exact absurd rfl bad

/-- The scanner and the callbacks determine how a run ends. -/
theorem Replays.unique (h : Replays limit w cb user r) (h' : Replays limit w cb user r') :
    r = r' := by
  obtain ⟨st, off, v⟩ := r
  obtain ⟨st', off', v'⟩ := r'
  cases h with
  | finished es run told =>
      cases h' with
      | finished es' run' told' =>
          obtain ⟨rfl, heq⟩ := run.unique run'
          cases heq
          rw [told] at told'
          cases told'
          rfl
      | refused es' e d u bad run' pos told' refusal =>
          obtain ⟨rest, rfl, -⟩ := run'.of_finishes run
          have hne : (callBack cb e u).1 ≠ .ok := by rw [refusal]; exact bad
          rw [List.append_assoc, List.singleton_append, deliver_refusal told' hne, refusal] at told
          cases told
          exact absurd rfl bad
  | refused es e d u bad run pos told refusal =>
      have hne : (callBack cb e u).1 ≠ .ok := by rw [refusal]; exact bad
      cases h' with
      | finished es' run' told' =>
          obtain ⟨rest, rfl, -⟩ := run.of_finishes run'
          rw [List.append_assoc, List.singleton_append, deliver_refusal told hne, refusal] at told'
          cases told'
          exact absurd rfl bad
      | refused es' e' d' u' bad' run' pos' told' refusal' =>
          have hne' : (callBack cb e' u').1 ≠ .ok := by rw [refusal']; exact bad'
          have hsame : es' = es ∧ e' = e ∧ d' = d := by
            rcases run.compare run' with ⟨rest, h, hrest⟩ | ⟨rest, h, hrest⟩
            · obtain ⟨rfl, hes, he⟩ := refused_once told hne told' h
              cases hrest
              exact ⟨hes, he, rfl⟩
            · obtain ⟨rfl, hes, he⟩ := refused_once told' hne' told h
              cases hrest
              exact ⟨hes.symm, he.symm, rfl⟩
          obtain ⟨rfl, rfl, rfl⟩ := hsame
          rw [told] at told'
          cases told'
          rw [refusal] at refusal'
          cases refusal'
          dsimp only at pos pos'
          rw [← pos, pos']

/-- The run with the watched table, its log left out, is a run of the table. -/
theorem Replays.unwatched {cb : Callbacks σ} {r : SaxResult (σ × List (σ × Event))}
    (h : Replays limit w (some cb.watched) (user, []) r) :
    Replays limit w (some cb) user ⟨r.status, r.consumed, r.user.1⟩ ∧
      ∀ t e, (t, e) ∈ r.user.2 → ∃ pre d, Reaches (scanStep limit) (.start w) (pre ++ [e]) d ∧
        deliver .ok (callBack (some cb)) pre user = (.ok, t) := by
  have hentries : ∀ {es : List Event} {d : Config} {log : List (σ × Event)},
      Reaches (scanStep limit) (.start w) es d →
      (∀ t e, (t, e) ∈ log → (t, e) ∈ ([] : List (σ × Event)) ∨ ∃ pre post,
        es = pre ++ e :: post ∧ deliver .ok (callBack (some cb)) pre user = (.ok, t)) →
      ∀ t e, (t, e) ∈ log → ∃ pre d, Reaches (scanStep limit) (.start w) (pre ++ [e]) d ∧
        deliver .ok (callBack (some cb)) pre user = (.ok, t) := by
    intro es d log run hlog t e h
    rcases hlog t e h with h | ⟨pre, post, rfl, hpre⟩
    · cases h
    · rw [← List.singleton_append, ← List.append_assoc] at run
      obtain ⟨d', run', -⟩ := run.split
      exact ⟨pre, d', run', hpre⟩
  cases h with
  | finished es run told =>
      obtain ⟨log, hrun, hlog⟩ := deliver_watched cb es (user, [])
      rw [told, Prod.mk.injEq, Prod.ext_iff] at hrun
      obtain ⟨hst, huser, rfl⟩ := hrun
      obtain ⟨d, hreach, hstop⟩ := run
      exact ⟨.finished es ⟨d, hreach, hstop⟩ (Prod.ext hst.symm huser.symm), hentries hreach hlog⟩
  | refused es e d u bad run pos told refusal =>
      obtain ⟨log, hrun, hlog⟩ := deliver_watched cb (es ++ [e]) (user, [])
      obtain ⟨log', hrun', -⟩ := deliver_watched cb es (user, [])
      rw [deliver_append_of_go told, deliver_singleton, refusal, Prod.mk.injEq,
        Prod.ext_iff] at hrun
      rw [told, Prod.mk.injEq, Prod.ext_iff] at hrun'
      obtain ⟨hst, huser, rfl⟩ := hrun
      obtain ⟨hst', huser', -⟩ := hrun'
      have htold : deliver .ok (callBack (some cb)) es user = (.ok, u.1) :=
        Prod.ext hst'.symm huser'.symm
      dsimp only at hst huser
      rw [deliver_append_of_go htold, deliver_singleton] at hst huser
      exact ⟨.refused es e d u.1 bad run pos htold (Prod.ext hst.symm huser.symm),
        hentries run hlog⟩

theorem bencodeParseSax_watched (cb : Callbacks σ) (input : Span) (hbad : input.isBad = false)
    (user : σ) (maxDepth : Nat) :
    ∃ r, bencodeParseSax input (some cb.watched) (user, []) maxDepth = .ok r ∧
      bencodeParseSax input (some cb) user maxDepth = .ok ⟨r.status, r.consumed, r.user.1⟩ ∧
      ∀ t e, (t, e) ∈ r.user.2 → ∃ pre d,
        Reaches (scanStep (effectiveDepth maxDepth)) (.start input.bytes) (pre ++ [e]) d ∧
          deliver .ok (callBack (some cb)) pre user = (.ok, t) := by
  obtain ⟨r, hrun, hreplay⟩ :=
    bencodeParseSax_replays input hbad (some cb.watched) (user, []) maxDepth
  obtain ⟨r', hrun', hreplay'⟩ := bencodeParseSax_replays input hbad (some cb) user maxDepth
  obtain ⟨hunwatched, hlog⟩ := hreplay.unwatched
  exact ⟨r, hrun, hreplay'.unique hunwatched ▸ hrun', hlog⟩

end Runs

end Bencode
