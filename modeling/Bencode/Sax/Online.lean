import Bencode.Sax.Refinement
import Bencode.Spec.Stops

/-!
# The verdict of the SAX parser is determined by what it has read

An accepted input may be followed by anything, a definite error stands once its
offending byte has been seen, and a longer input never takes back an event.
-/

namespace Bencode

open LabelledMachine

def Recorded (w : Bytes) (maxDepth : Nat) (st : Status) (off : Nat) (es : List Event) : Prop :=
  bencodeParseSax (.mem w) (some recorder) [] maxDepth = .ok ⟨st, off, es⟩

/-- An error that more input cannot turn into anything else. -/
def Definite (st : Status) : Prop :=
  st ≠ .ok ∧ st ≠ .errTruncated ∧ st ≠ .errStringLength

section

variable {w : Bytes} {maxDepth : Nat} {st : Status} {off : Nat} {es : List Event}

theorem recorded_iff :
    Recorded w maxDepth st off es ↔ Scans (effectiveDepth maxDepth) w es st off := by
  obtain ⟨fs, st', off', hrun, hscan⟩ :=
    bencodeParseSax_recorder (.mem w) rfl maxDepth
  unfold Recorded
  rw [hrun]
  constructor
  · intro h
    cases h
    exact hscan
  · intro h
    obtain ⟨rfl, heq⟩ := h.unique hscan
    cases heq
    rfl

theorem recorded_exists (w : Bytes) (maxDepth : Nat) :
    ∃ st off es, Recorded w maxDepth st off es := by
  obtain ⟨es, st, off, hrun, -⟩ := bencodeParseSax_recorder (.mem w) rfl maxDepth
  exact ⟨st, off, es, hrun⟩

theorem Recorded.accepted (h : Recorded w maxDepth .ok off es) {w' : Bytes}
    (hw' : w.take off <+: w') : Recorded w' maxDepth .ok off es := by
  obtain ⟨pre, rest, rfl, rfl, -, hok, -⟩ := scans_local (recorded_iff.mp h)
  rw [List.take_left] at hw'
  obtain ⟨ext, rfl⟩ := hw'
  exact recorded_iff.mpr (hok rfl ext)

/-- A definite error is decided by the bytes up to the offending one. -/
theorem Recorded.rejected (h : Recorded w maxDepth st off es) (hst : Definite st) {w' : Bytes}
    (hw' : w.take (min (off + 1) w.length) <+: w') : Recorded w' maxDepth st off es := by
  obtain ⟨pre, rest, rfl, rfl, -, -, hbad⟩ := scans_local (recorded_iff.mp h)
  have htake : (pre ++ rest).take (min (pre.length + 1) (pre ++ rest).length) =
      pre ++ rest.take 1 := by
    rw [← List.take_take, List.take_length, List.take_append, List.take_of_length_le (by omega)]
    congr 2
    omega
  rw [htake] at hw'
  obtain ⟨us, rfl⟩ := hw'
  rw [List.append_assoc]
  exact recorded_iff.mpr (hbad hst.1 hst.2.1 hst.2.2 _ (List.prefix_append _ _))

theorem Recorded.extended (h : Recorded w maxDepth st off es) (ext : Bytes) :
    ∃ st' off' fs, Recorded (w ++ ext) maxDepth st' off' (es ++ fs) := by
  obtain ⟨st', off', fs, hrun⟩ := recorded_exists (w ++ ext) maxDepth
  obtain ⟨gs, rfl⟩ := scans_extend (recorded_iff.mp h) (recorded_iff.mp hrun)
  exact ⟨st', off', gs, hrun⟩

/-- A proper beginning of an accepted encoding is only ever incomplete. -/
theorem Recorded.cut (h : Recorded w maxDepth .ok off es) {u : Bytes} (hu : u <+: w.take off)
    (hne : u ≠ w.take off) :
    ∃ st' off' fs, Recorded u maxDepth st' off' fs ∧
      (st' = .errTruncated ∨ st' = .errStringLength) := by
  obtain ⟨st', off', fs, hcut⟩ := recorded_exists u maxDepth
  refine ⟨st', off', fs, hcut, ?_⟩
  have hw : u <+: w := hu.trans (List.take_prefix _ _)
  have hlt : u.length < off := by
    have hlen := hu.length_le
    have hoff := List.length_take_le off w
    rcases Nat.lt_or_ge u.length off with hlt | hge
    · exact hlt
    · exact absurd (hu.eq_of_length (by omega)) hne
  by_contra hother
  have hpre : ∀ n, u.take n <+: w := fun n => (List.take_prefix n u).trans hw
  by_cases hok : st' = .ok
  · subst hok
    have hsame := recorded_iff.mp (hcut.accepted (hpre off'))
    have hend := (hsame.unique (recorded_iff.mp h)).2
    cases hend
    obtain ⟨pre, rest, rfl, hoff, -⟩ := scans_local (recorded_iff.mp hcut)
    rw [List.length_append] at hlt
    omega
  · have hdef : Definite st' := ⟨hok, fun h => hother (.inl h), fun h => hother (.inr h)⟩
    have hsame := recorded_iff.mp (hcut.rejected hdef (hpre _))
    have hend := (hsame.unique (recorded_iff.mp h)).2
    cases hend
    exact hok rfl

end

/-- The SAX verdict is online. -/
theorem bencodeParseSax_online (w : Bytes) (maxDepth : Nat) :
    ∃ st off es, Recorded w maxDepth st off es ∧
      (st = .ok → ∀ w', w.take off <+: w' → Recorded w' maxDepth st off es) ∧
      (Definite st → ∀ w', w.take (min (off + 1) w.length) <+: w' →
        Recorded w' maxDepth st off es) ∧
      (∀ ext, ∃ st' off' fs, Recorded (w ++ ext) maxDepth st' off' (es ++ fs)) ∧
      (st = .ok → ∀ u, u <+: w.take off → u ≠ w.take off →
        ∃ st' off' fs, Recorded u maxDepth st' off' fs ∧
          (st' = .errTruncated ∨ st' = .errStringLength)) := by
  obtain ⟨st, off, es, h⟩ := recorded_exists w maxDepth
  refine ⟨st, off, es, h, ?_, fun hst w' hw' => h.rejected hst hw', h.extended, ?_⟩
  · rintro rfl w' hw'
    exact h.accepted hw'
  · rintro rfl u hu hne
    exact h.cut hu hne

end Bencode
