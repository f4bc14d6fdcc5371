import Bencode.Sax.Online

/-!
# The depth limit is a pure guard

A larger limit changes a step of the scanner only where the smaller one refuses to
open a container. Up to there the two runs are the same.
-/

namespace Bencode

open LabelledMachine

variable {limit limit' : Nat}

/-! ## The scanner -/

/-- A step under a larger limit is the same step, or opens the container that was refused. -/
def Raised (step step' : Scan) : Prop :=
  step = step' ∨ ∃ off e d, step = .stop (.errNestingTooDeep, off) ∧ step' = .emit e d ∧ d.pos = off

theorem scanValue_raised (h : limit ≤ limit') (c : Config) (b : UInt8) (bs : Bytes) :
    Raised (scanValue limit c b bs) (scanValue limit' c b bs) := by
  unfold scanValue
  by_cases hi : b = 'i'.toUInt8
  · rw [if_pos hi, if_pos hi]
    exact .inl rfl
  rw [if_neg hi, if_neg hi]
  have hopens : ∀ (e : Event) (stack : List OpenScope), Raised
      (if c.stack.length ≥ limit then .stop (.errNestingTooDeep, c.offset bs)
        else .emit e { c.readTo bs with stack := stack })
      (if c.stack.length ≥ limit' then .stop (.errNestingTooDeep, c.offset bs)
        else .emit e { c.readTo bs with stack := stack }) := by
    intro e stack
    by_cases hfull : c.stack.length ≥ limit'
    · rw [if_pos hfull, if_pos (h.trans hfull)]
      exact .inl rfl
    · rw [if_neg hfull]
      by_cases hfull' : c.stack.length ≥ limit
      · rw [if_pos hfull']
        exact .inr ⟨_, _, _, rfl, rfl, rfl⟩
      · rw [if_neg hfull']
        exact .inl rfl
  by_cases hl : b = 'l'.toUInt8
  · rw [if_pos hl, if_pos hl]
    exact hopens _ _
  rw [if_neg hl, if_neg hl]
  by_cases hd : b = 'd'.toUInt8
  · rw [if_pos hd, if_pos hd]
    exact hopens _ _
  rw [if_neg hd, if_neg hd]
  exact .inl rfl

theorem scanStep_raised (h : limit ≤ limit') (c : Config) :
    Raised (scanStep limit c) (scanStep limit' c) := by
  unfold scanStep
  cases c.result with
  | some t => exact .inl rfl
  | none =>
      cases c.rest with
      | nil => exact .inl rfl
      | cons b bs =>
          simp only [scanByte]
          cases c.stack with
          | nil => exact scanValue_raised h c b bs
          | cons o below =>
              cases o with
              | list done =>
                  by_cases hb : b = 'e'.toUInt8
                  · simp only [if_pos hb]
                    exact .inl rfl
                  · simp only [if_neg hb]
                    exact scanValue_raised h c b bs
              | dict done key =>
                  cases key with
                  | none => exact .inl rfl
                  | some k =>
                      by_cases hb : b = 'e'.toUInt8
                      · simp only [if_pos hb]
                        exact .inl rfl
                      · simp only [if_neg hb]
                        exact scanValue_raised h c b bs

theorem reaches_raised (h : limit ≤ limit') {c d : Config} {es : List Event}
    (run : Reaches (scanStep limit) c es d) : Reaches (scanStep limit') c es d := by
  obtain ⟨d', run', rfl⟩ := run.simulate (R := Eq) rfl fun {b e b₁ b'} hb hstep => by
    obtain rfl := hb
    rcases scanStep_raised h b with hsame | ⟨off, e', d', hstop, -⟩
    · exact ⟨b₁, hsame ▸ hstep, rfl⟩
    · rw [hstep] at hstop
      cases hstop
  exact run'

theorem scanStep_stop_le {c : Config} {st : Status} {off : Nat}
    (h : scanStep limit c = .stop (st, off)) : c.pos ≤ off := by
  rcases scanStep_stop h with ⟨-, -, -, rfl⟩ | ⟨-, -, tok, rest, -, rfl, -⟩
  · exact Nat.le_refl _
  · exact Nat.le_add_right _ _

theorem finishes_le {c : Config} {es : List Event} {st : Status} {off : Nat}
    (h : Finishes (scanStep limit) c es (st, off)) : c.pos ≤ off := by
  obtain ⟨d, run, stop⟩ := h
  obtain ⟨pre, -, hpos, -⟩ := reaches_local run
  have := scanStep_stop_le stop
  omega

theorem scans_raised (h : limit ≤ limit') {w : Bytes} {es es' : List Event} {st st' : Status}
    {off off' : Nat} (scan : Scans limit w es st off) (scan' : Scans limit' w es' st' off') :
    (es = es' ∧ st = st' ∧ off = off') ∨
      (st = .errNestingTooDeep ∧ es <+: es' ∧ off ≤ off') := by
  obtain ⟨d, run, stop⟩ := scan
  have run' := reaches_raised h run
  rcases scanStep_raised h d with hsame | ⟨off₁, e, d', hstop, hemit, hpos⟩
  · obtain ⟨rfl, heq⟩ := Finishes.unique ⟨d, run', hsame ▸ stop⟩ scan'
    cases heq
    exact .inl ⟨rfl, rfl, rfl⟩
  · rw [stop] at hstop
    cases hstop
    obtain ⟨rest, rfl, hrest⟩ := run'.of_finishes scan'
    obtain ⟨fs, rfl, hfs⟩ := (Reaches.single hemit).of_finishes hrest
    exact .inr ⟨rfl, List.prefix_append _ _, hpos ▸ finishes_le hfs⟩

/-! ## The SAX parser -/

/-- Two limits give the same verdict and the same trace, or the smaller one was exceeded and the
larger one goes on from there; equal limits give equal runs, whatever the callbacks do. The limit
is 64 for zero and at most 256. -/
theorem bencodeParseSax_depth (input : Span) (maxDepth maxDepth' : Nat)
    (h : effectiveDepth maxDepth ≤ effectiveDepth maxDepth') :
    (∃ st off es st' off' es',
      bencodeParseSax input (some recorder) [] maxDepth = .ok ⟨st, off, es⟩ ∧
      bencodeParseSax input (some recorder) [] maxDepth' = .ok ⟨st', off', es'⟩ ∧
      ((st = st' ∧ off = off' ∧ es = es') ∨
        (st = .errNestingTooDeep ∧ es <+: es' ∧ off ≤ off'))) ∧
    (effectiveDepth maxDepth = effectiveDepth maxDepth' →
      ∀ {σ : Type} (cb : Option (Callbacks σ)) (user : σ),
        bencodeParseSax input cb user maxDepth = bencodeParseSax input cb user maxDepth') ∧
    effectiveDepth 0 = 64 ∧ (∀ n, 256 < n → effectiveDepth n = 256) := by
  refine ⟨?_, ?_, rfl, ?_⟩
  · cases hbad : input.isBad with
    | false =>
        obtain ⟨es, st, off, hrun, hscan⟩ := bencodeParseSax_recorder input hbad maxDepth
        obtain ⟨es', st', off', hrun', hscan'⟩ := bencodeParseSax_recorder input hbad maxDepth'
        refine ⟨st, off, es, st', off', es', hrun, hrun', ?_⟩
        rcases scans_raised h hscan hscan' with ⟨hes, hst, hoff⟩ | hdeep
        · exact .inl ⟨hst, hoff, hes⟩
        · exact .inr hdeep
    | true =>
        have hrun : ∀ n, bencodeParseSax input (some recorder) [] n =
            .ok ⟨.errInvalidArg, 0, []⟩ := fun n => by simp [bencodeParseSax, hbad]
        exact ⟨_, _, _, _, _, _, hrun maxDepth, hrun maxDepth', .inl ⟨rfl, rfl, rfl⟩⟩
  · intro heq σ cb user
    simp only [bencodeParseSax, saxStart, heq]
  · intro n hn
    have hne : n ≠ 0 := by omega
    simp only [effectiveDepth, if_neg hne]
    exact if_pos hn

/-- `lle` with the limits one and two. -/
theorem bencodeParseSax_depth_list :
    ∃ st off es st' off' es',
      bencodeParseSax (.mem [108, 108, 101]) (some recorder) [] 1 = .ok ⟨st, off, es⟩ ∧
      bencodeParseSax (.mem [108, 108, 101]) (some recorder) [] 2 = .ok ⟨st', off', es'⟩ ∧
      ((st = st' ∧ off = off' ∧ es = es') ∨
        (st = .errNestingTooDeep ∧ es <+: es' ∧ off ≤ off')) :=
  (bencodeParseSax_depth (.mem [108, 108, 101]) 1 2 (by decide)).1

end Bencode
