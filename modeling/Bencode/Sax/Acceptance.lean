import Bencode.Sax.Refinement
import Bencode.Spec.Completeness
import Bencode.Spec.Grammar

/-!
# The SAX parser accepts exactly the grammar

Soundness comes from the history of the scanner's run, completeness from the run on
the encoding of the tree that a derivation describes.
-/

namespace Bencode

open LabelledMachine

def DerivesPrefix (limit : Nat) (w : Bytes) (n : Nat) : Prop :=
  n ≤ w.length ∧ Grammar.Value limit (w.take n)

theorem scans_ok_iff {limit : Nat} {w : Bytes} (hw : w.length ≤ sizeMax) {n : Nat} :
    (∃ es, Scans limit w es .ok n) ↔ DerivesPrefix limit w n := by
  constructor
  · rintro ⟨es, hscan⟩
    obtain ⟨t, rest, rfl, rfl, -, canonical, nesting⟩ := hscan.sound
    refine ⟨by simp, ?_⟩
    rw [List.take_left]
    exact Grammar.value_iff.mpr ⟨t, rfl, canonical, nesting⟩
  · rintro ⟨hn, hvalue⟩
    obtain ⟨t, henc, canonical, nesting⟩ := Grammar.value_iff.mp hvalue
    have hlen : t.encode.length = n := by rw [henc, List.length_take, Nat.min_eq_left hn]
    have hscan := scans_encode canonical (t.fits_of_length (by omega)) nesting (w.drop n)
    rw [henc, List.take_append_drop, ← henc, hlen] at hscan
    exact ⟨_, hscan⟩

/-- `bencode_parse_sax` reports success after `n` bytes exactly when these are a value of the
grammar, and then for no other `n`. The length of an input is a `size_t`. -/
theorem bencodeParseSax_accepts_iff {w : Bytes} (hw : w.length ≤ sizeMax) (n maxDepth : Nat) :
    (bencodeParseSax (.mem w) none () maxDepth = .ok ⟨.ok, n, ()⟩ ↔
        DerivesPrefix (effectiveDepth maxDepth) w n) ∧
      ∀ m, DerivesPrefix (effectiveDepth maxDepth) w n →
        DerivesPrefix (effectiveDepth maxDepth) w m → m = n := by
  constructor
  · rw [← scans_ok_iff hw]
    obtain ⟨es, st, off, hrun, hscan⟩ := bencodeParseSax_null (.mem w) rfl maxDepth
    rw [hrun]
    constructor
    · intro h
      cases h
      exact ⟨es, hscan⟩
    · rintro ⟨fs, hfs⟩
      obtain ⟨-, heq⟩ := hscan.unique hfs
      cases heq
      rfl
  · intro m hn hm
    obtain ⟨es, hes⟩ := (scans_ok_iff hw).mpr hn
    obtain ⟨fs, hfs⟩ := (scans_ok_iff hw).mpr hm
    exact (Prod.mk.inj (hfs.unique hes).2).2

/-- A dict with a nested empty list and a trailing byte. -/
theorem bencodeParseSax_accepts_iff_dict :
    DerivesPrefix 64 [100, 49, 58, 97, 108, 101, 101, 120] 7 ∧
      ∀ m, DerivesPrefix 64 [100, 49, 58, 97, 108, 101, 101, 120] m → m = 7 := by
  have h := bencodeParseSax_accepts_iff (w := [100, 49, 58, 97, 108, 101, 101, 120])
    (by decide) 7 0
  have hderives := h.1.mp rfl
  exact ⟨hderives, fun m hm => h.2 m hderives hm⟩

end Bencode
