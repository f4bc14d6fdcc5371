import Bencode.Sax.Refinement
import Bencode.Spec.Violation

/-!
# Which violation a status reports

The statuses for the structure of an input are exact. The two statuses for numbers
are exact too, except where the first violation is the length of a string that no
`size_t` holds.
-/

namespace Bencode

open LabelledMachine

variable {σ : Type}

theorem first_nil {limit : Nat} {P : List OpenScope → Bytes → Prop} (h : ∀ stack, ¬ P stack []) :
    ¬ First limit [] P := by
  rintro ⟨c, legal, -, hp⟩
  rw [List.suffix_nil.mp legal.suffix] at hp
  exact h c.stack hp

theorem Span.bytes_of_isBad {input : Span} (h : input.isBad = true) : input.bytes = [] := by
  cases input with
  | null n => rfl
  | mem bytes => cases h

theorem Span.length_bytes_le (input : Span) : input.bytes.length ≤ input.len := by
  cases input with
  | null n => exact Nat.zero_le n
  | mem bytes => exact Nat.le_refl bytes.length

theorem blocked_nil {limit : Nat} {stack : List OpenScope} {s : Status}
    (h : Blocked limit stack [] s) : s = .errTruncated := by
  generalize hrest : ([] : Bytes) = rest at h
  cases h with
  | truncated => rfl
  | int => cases hrest
  | string => cases hrest
  | full => cases hrest
  | unexpected => cases hrest
  | @key done below k rest =>
      obtain ⟨b, bs, henc, -⟩ := encodeString_cons k
      rw [henc] at hrest
      cases hrest
  | badKey => cases hrest
  | missingValue => cases hrest

/-- While no callback refuses, the parser reports why the input is blocked. -/
theorem bencodeParseSax_verdict (input : Span) (cb : Option (Callbacks σ))
    (accepts : ∀ e u, (callBack cb e u).1 = .ok) (user : σ) (maxDepth : Nat) :
    ∃ r, bencodeParseSax input cb user maxDepth = .ok r ∧
      ∀ s, s ≠ .ok → s ≠ .errTruncated → s ≠ .errInvalidArg →
        (r.status = s ↔ First (effectiveDepth maxDepth) input.bytes fun stack rest =>
          Blocked (effectiveDepth maxDepth) stack rest s) := by
  cases hbad : input.isBad with
  | false =>
      obtain ⟨r, hrun, hreplay⟩ := bencodeParseSax_replays input hbad cb user maxDepth
      obtain ⟨es, scan, -⟩ := hreplay.of_accepting accepts
      exact ⟨r, hrun, fun s bad _ _ => scans_status_iff scan bad⟩
  | true =>
      refine ⟨⟨.errInvalidArg, 0, user⟩, by simp [bencodeParseSax, hbad], ?_⟩
      intro s _ htrunc hinvalid
      rw [Span.bytes_of_isBad hbad]
      have hnone : ¬ First (effectiveDepth maxDepth) [] fun stack rest =>
          Blocked (effectiveDepth maxDepth) stack rest s :=
        first_nil fun stack h => htrunc (blocked_nil h)
      exact ⟨fun h => absurd h.symm hinvalid, fun h => absurd h hnone⟩

/-! ## The structure -/

/-- Each of the five structural statuses reports exactly its violation. The length of an input is
a `size_t`. -/
theorem bencodeParseSax_structure (input : Span) (hsize : input.len ≤ sizeMax)
    (cb : Option (Callbacks σ)) (accepts : ∀ e u, (callBack cb e u).1 = .ok) (user : σ)
    (maxDepth : Nat) :
    ∃ r, bencodeParseSax input cb user maxDepth = .ok r ∧ ∀ v : Violation,
      r.status = v.status ↔
        First (effectiveDepth maxDepth) input.bytes (Violates (effectiveDepth maxDepth) v) := by
  obtain ⟨r, hrun, hverdict⟩ := bencodeParseSax_verdict input cb accepts user maxDepth
  refine ⟨r, hrun, ?_⟩
  intro v
  rw [← first_violates_iff (input.length_bytes_le.trans hsize)]
  exact hverdict v.status (by cases v <;> decide) (by cases v <;> decide) (by cases v <;> decide)

/-- The keys `b` and `a` with a dict between them. -/
theorem bencodeParseSax_structure_dict :
    First 64 [100, 49, 58, 98, 100, 49, 58, 99, 48, 58, 101, 49, 58, 97] (Violates 64 .keyUnsorted) ∧
      ¬ First 64 [100, 49, 58, 98, 100, 49, 58, 99, 48, 58, 101, 49, 58, 97]
        (Violates 64 .keyRepeated) := by
  obtain ⟨r, hrun, h⟩ := bencodeParseSax_structure
    (.mem [100, 49, 58, 98, 100, 49, 58, 99, 48, 58, 101, 49, 58, 97]) (by decide) none
    (fun _ _ => rfl) () 0
  have hstatus : (bencodeParseSax (.mem [100, 49, 58, 98, 100, 49, 58, 99, 48, 58, 101, 49, 58, 97])
      none () 0).toOption.map (·.status) = some .errDictUnsorted := by decide +kernel
  rw [hrun] at hstatus
  have hunsorted : r.status = .errDictUnsorted := Option.some.inj hstatus
  refine ⟨(h .keyUnsorted).mp hunsorted, ?_⟩
  intro hrepeated
  have hduplicate := (h .keyRepeated).mpr hrepeated
  rw [hunsorted] at hduplicate
  cases hduplicate

/-! ## The numbers -/

theorem not_first_intOutOfRange {limit : Nat} {w : Bytes} (h : First limit w LengthHuge) :
    ¬ First limit w IntOutOfRange := by
  obtain ⟨c, legal, hopen, huge⟩ := h
  rintro ⟨d, legal', hopen', hrange⟩
  have hblocked : Blocked limit c.stack c.rest .errIntegerOverflow :=
    blocked_overflow_iff.mpr (.inr huge)
  obtain rfl := blocked_unique legal hopen hblocked legal' hopen'
    (blocked_overflow_iff.mpr (.inl hrange))
  exact hrange.not_lengthHuge huge

/-- The statuses of numbers report integers and lengths out of range exactly while no length is
the first to be wrong by leaving the range of `size_t`. -/
theorem bencodeParseSax_numbers (input : Span) (cb : Option (Callbacks σ))
    (accepts : ∀ e u, (callBack cb e u).1 = .ok) (user : σ) (maxDepth : Nat) :
    ∃ r, bencodeParseSax input cb user maxDepth = .ok r ∧
      (((r.status = .errIntegerOverflow ↔
            First (effectiveDepth maxDepth) input.bytes IntOutOfRange) ∧
          (r.status = .errStringLength ↔
            First (effectiveDepth maxDepth) input.bytes LengthOutOfRange)) ↔
        ¬ First (effectiveDepth maxDepth) input.bytes LengthHuge) := by
  obtain ⟨r, hrun, hverdict⟩ := bencodeParseSax_verdict input cb accepts user maxDepth
  have hover := hverdict .errIntegerOverflow (by decide) (by decide) (by decide)
  have hlong := hverdict .errStringLength (by decide) (by decide) (by decide)
  refine ⟨r, hrun, ?_⟩
  rw [hover, hlong]
  constructor
  · rintro ⟨hint, -⟩ huge
    refine not_first_intOutOfRange huge (hint.mp ?_)
    exact huge.mono fun stack rest _ h => blocked_overflow_iff.mpr (.inr h)
  · intro hsmall
    have hno : ∀ {c : Config}, Legal (effectiveDepth maxDepth) input.bytes c → c.result = none →
        ¬ LengthHuge c.stack c.rest := fun legal hopen huge => hsmall ⟨_, legal, hopen, huge⟩
    refine ⟨⟨?_, ?_⟩, ⟨?_, ?_⟩⟩
    · rintro ⟨c, legal, hopen, hblocked⟩
      have h := blocked_overflow_iff.mp hblocked
      exact ⟨c, legal, hopen, h.resolve_right (hno legal hopen)⟩
    · exact First.mono fun stack rest _ h => blocked_overflow_iff.mpr (.inl h)
    · exact First.mono fun stack rest _ h => (blocked_length_iff.mp h).1
    · rintro ⟨c, legal, hopen, h⟩
      exact ⟨c, legal, hopen, blocked_length_iff.mpr ⟨h, hno legal hopen⟩⟩

/-- A length of five with two bytes behind it. -/
theorem bencodeParseSax_numbers_short :
    First 64 [53, 58, 97, 98] LengthOutOfRange ∧ ¬ First 64 [53, 58, 97, 98] IntOutOfRange := by
  have hscan : scanString [53, 58, 97, 98] = .err .errStringLength [97, 98] := rfl
  have hstart : Blocked 64 (Config.start [53, 58, 97, 98]).stack
      (Config.start [53, 58, 97, 98]).rest .errStringLength := .string rfl hscan
  have hsmall : ¬ First 64 [53, 58, 97, 98] LengthHuge := by
    rintro ⟨c, legal, hopen, huge⟩
    obtain rfl :=
      blocked_unique .start rfl hstart legal hopen (blocked_overflow_iff.mpr (.inr huge))
    exact (blocked_length_iff.mp hstart).2 huge
  obtain ⟨r, hrun, h⟩ :=
    bencodeParseSax_numbers (.mem [53, 58, 97, 98]) none (fun _ _ => rfl) () 0
  have hstatus : (bencodeParseSax (.mem [53, 58, 97, 98]) none () 0).toOption.map (·.status) =
      some .errStringLength := by decide +kernel
  rw [hrun] at hstatus
  have hlong : r.status = .errStringLength := Option.some.inj hstatus
  obtain ⟨hint, hlength⟩ := h.mpr hsmall
  refine ⟨hlength.mp hlong, ?_⟩
  intro hrange
  have hover := hint.mpr hrange
  rw [hlong] at hover
  cases hover

/-- `18446744073709551616:` declares more bytes than there are, but the status speaks of an
integer. -/
theorem bencodeParseSax_length_overflow :
    (bencodeParseSax (.mem [49, 56, 52, 52, 54, 55, 52, 52, 48, 55, 51, 55, 48, 57, 53, 53, 49, 54,
        49, 54, 58]) none () 0).toOption.map (·.status) = some .errIntegerOverflow ∧
      ¬ First 64 [49, 56, 52, 52, 54, 55, 52, 52, 48, 55, 51, 55, 48, 57, 53, 53, 49, 54, 49, 54, 58]
        IntOutOfRange ∧
      First 64 [49, 56, 52, 52, 54, 55, 52, 52, 48, 55, 51, 55, 48, 57, 53, 53, 49, 54, 49, 54, 58]
        LengthOutOfRange := by
  have hnumeral : Grammar.Numeral [49, 56, 52, 52, 54, 55, 52, 52, 48, 55, 51, 55, 48, 57, 53, 53,
      49, 54, 49, 54] 18446744073709551616 := .digits (by decide) (by decide +kernel)
  refine ⟨by decide +kernel, ?_, _, .start, rfl, _, _, [], rfl, hnumeral, by simp⟩
  exact not_first_intOutOfRange ⟨_, .start, rfl, _, _, [58], rfl, hnumeral, rfl, by decide⟩

end Bencode
