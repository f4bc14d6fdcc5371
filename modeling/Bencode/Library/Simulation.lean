import Mathlib.Data.List.Basic

/-!
# Labelled systems and their runs

A system refines another one, by a function on states and one on labels, when each of its
steps from a state in which an invariant holds is a step of the other. Whole runs then are runs
of the other, and what the inputs settle for the other is settled for both.
-/

namespace Simulation

variable {S T L K I : Type*}

inductive Run (step : S → L → S → Prop) : S → List L → S → Prop
  | nil (s : S) : Run step s [] s
  | cons {s s₁ s₂ : S} {l : L} {ls : List L} (head : step s l s₁) (tail : Run step s₁ ls s₂) :
      Run step s (l :: ls) s₂

/-- Every step from a state with the invariant keeps it and is a step of the other system. -/
structure Refines (step : S → L → S → Prop) (step' : T → K → T → Prop) (inv : S → Prop)
    (abs : S → T) (shown : L → K) : Prop where
  keeps : ∀ {s s₁ : S} {l : L}, inv s → step s l s₁ → inv s₁
  simulates : ∀ {s s₁ : S} {l : L}, inv s → step s l s₁ → step' (abs s) (shown l) (abs s₁)

/-- Steps from a state on the same input show the same and lead to the same state. -/
def Settled (step : S → L → S → Prop) (input : L → I) (shown : L → K) : Prop :=
  ∀ (s s₁ s₂ : S) (l k : L), step s l s₁ → step s k s₂ → input l = input k →
    shown l = shown k ∧ s₁ = s₂

variable {step : S → L → S → Prop} {step' : T → K → T → Prop} {inv : S → Prop} {abs : S → T}
  {shown : L → K}

theorem Refines.run (h : Refines step step' inv abs shown) {s s' : S} {ls : List L}
    (start : inv s) (run : Run step s ls s') :
    inv s' ∧ Run step' (abs s) (ls.map shown) (abs s') := by
  induction run with
  | nil s => exact ⟨start, .nil _⟩
  | cons head tail ih =>
      obtain ⟨hinv, hrun⟩ := ih (h.keeps start head)
      exact ⟨hinv, .cons (h.simulates start head) hrun⟩

/-- Runs on the same inputs show the same. -/
theorem Run.unique {input : L → I} (settled : Settled step input shown) {s s₁ s₂ : S}
    {ls ks : List L} (run : Run step s ls s₁) (run' : Run step s ks s₂)
    (same : ls.map input = ks.map input) : ls.map shown = ks.map shown ∧ s₁ = s₂ := by
  induction run generalizing ks with
  | nil s =>
      cases run' with
      | nil => exact ⟨rfl, rfl⟩
      | cons => cases same
  | cons head tail ih =>
      cases run' with
      | nil => cases same
      | cons head' tail' =>
          obtain ⟨hinput, hrest⟩ := List.cons.inj same
          obtain ⟨hshown, rfl⟩ := settled _ _ _ _ _ head head' hinput
          obtain ⟨hrests, rfl⟩ := ih tail' hrest
          exact ⟨by rw [List.map_cons, List.map_cons, hshown, hrests], rfl⟩

/-- Runs of a system that takes every input, on any list of inputs. -/
theorem Refines.total (h : Refines step step' inv abs shown) {input : L → I}
    (takes : ∀ (s : S) (i : I), inv s → ∃ l s₁, step s l s₁ ∧ input l = i) (inputs : List I)
    {s : S} (start : inv s) : ∃ ls s', Run step s ls s' ∧ ls.map input = inputs := by
  induction inputs generalizing s with
  | nil => exact ⟨[], s, .nil s, rfl⟩
  | cons i inputs ih =>
      obtain ⟨l, s₁, hstep, hl⟩ := takes s i start
      obtain ⟨ls, s', hrun, hls⟩ := ih (h.keeps start hstep)
      exact ⟨l :: ls, s', .cons hstep hrun, by rw [List.map_cons, hl, hls]⟩

theorem Run.mono {step₁ step₂ : S → L → S → Prop} {P : L → Prop}
    (imp : ∀ {s s₁ : S} {l : L}, P l → step₁ s l s₁ → step₂ s l s₁) {s s' : S} {ls : List L}
    (all : ∀ l ∈ ls, P l) (run : Run step₁ s ls s') : Run step₂ s ls s' := by
  induction run with
  | nil s => exact .nil s
  | cons head tail ih =>
      have hhead := imp (all _ List.mem_cons_self) head
      exact .cons hhead (ih fun l hl => all l (List.mem_cons_of_mem _ hl))

end Simulation
