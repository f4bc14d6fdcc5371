import Bencode.Sax.Online
import Bencode.Spec.Completeness
import Bencode.Spec.Violation

/-!
# Which inputs can be continued to an accepted one

An input that ends too early can be completed: its last token, then a value where one is
due, then the closing bytes of the open containers. The one exception is a key that has
been begun and can no longer come out behind the key before it.
-/

namespace Bencode

open LabelledMachine

variable {limit : Nat}

def Config.extend (c : Config) (ext : Bytes) : Config := { c with rest := c.rest ++ ext }

/-! ## Closing what is open -/

def Closable : List OpenScope → Prop
  | .list _ :: _ => True
  | .dict _ none :: _ => True
  | _ => False

theorem closable_settle {stack : List OpenScope} (await : Awaits stack) (t : Tree)
    (hopen : (settle stack t).2 = none) : Closable (settle stack t).1 := by
  cases stack with
  | nil => cases hopen
  | cons o below =>
      cases o with
      | list done => trivial
      | dict done key =>
          cases key with
          | none => exact await.elim
          | some k => trivial

def closers (n : Nat) : Bytes := List.replicate n 'e'.toUInt8

theorem closers_succ (n : Nat) : closers (n + 1) = ['e'.toUInt8] ++ closers n := rfl

theorem closes (n : Nat) (c : Config) (depth : c.stack.length = n) (hr : c.rest = closers n)
    (well : WellRead limit (c.stack, c.result)) (ready : c.result = none → Closable c.stack) :
    ∃ es off, Finishes (scanStep limit) c es (.ok, off) := by
  induction n generalizing c with
  | zero =>
      have hnil : c.stack = [] := List.length_eq_zero_iff.mp depth
      cases hopen : c.result with
      | none =>
          have hclosable := ready hopen
          rw [hnil] at hclosable
          exact hclosable.elim
      | some t => exact ⟨[], c.pos, c, .refl c, by simp only [scanStep, hopen]⟩
  | succ n ih =>
      cases hopen : c.result with
      | some t =>
          rw [hopen] at well
          rw [well.1] at depth
          cases depth
      | none =>
          have hclosable := ready hopen
          rw [hopen] at well
          rw [closers_succ] at hr
          cases hstack : c.stack with
          | nil =>
              rw [hstack] at hclosable
              exact hclosable.elim
          | cons o below =>
              rw [hstack] at hclosable well depth
              rw [List.length_cons] at depth
              have hend : ∃ e t, Awaits below ∧
                  Reads limit c.stack c.pos ['e'.toUInt8] e (settle below t) := by
                cases o with
                | list done => exact ⟨_, _, well.2.2.1, by rw [hstack]; exact .listEnd done below⟩
                | dict done key =>
                    cases key with
                    | none => exact ⟨_, _, well.2.2.1, by rw [hstack]; exact .dictEnd done below⟩
                    | some k => exact hclosable.elim
              obtain ⟨e, t, await, hread⟩ := hend
              have hwell := hread.wellRead (by rw [hstack]; exact well)
                (WellOpen.length_le (by rw [hstack]; exact well))
              obtain ⟨es, off, hfin⟩ := ih (c.after ['e'.toUInt8] (closers n) (settle below t))
                (by rw [Config.after_stack, length_settle]; omega) rfl hwell
                (closable_settle await t)
              exact ⟨_, off, (Reaches.single (hread.step hopen hr)).finishes hfin⟩

theorem closes_value {c : Config} {tok : Bytes} {e : Event} {t : Tree} (hopen : c.result = none)
    (well : WellOpen limit c.stack) (await : Awaits c.stack)
    (read : Reads limit c.stack c.pos tok e (settle c.stack t))
    (hr : c.rest = tok ++ closers c.stack.length) :
    ∃ es off, Finishes (scanStep limit) c es (.ok, off) := by
  obtain ⟨es, off, hfin⟩ := closes c.stack.length
    (c.after tok (closers c.stack.length) (settle c.stack t))
    (by rw [Config.after_stack, length_settle]) rfl (read.wellRead well well.length_le)
    (closable_settle await t)
  exact ⟨_, off, (Reaches.single (read.step hopen hr)).finishes hfin⟩

/-! ## Completing a token -/

theorem scanNat_truncated {cap : Nat} {bs rest : Bytes}
    (h : scanNat cap bs = .err .errTruncated rest) : bs = [] := by
  cases bs with
  | nil => rfl
  | cons b bs =>
      simp only [scanNat] at h
      split at h
      · split at h
        · cases h
        · cases scanDigits_err h
      · cases h

theorem scanEnd_truncated {α : Type} {close : UInt8} {a : α} {bs rest : Bytes}
    (h : scanEnd close a bs = .err .errTruncated rest) : bs = [] := by
  cases bs with
  | nil => rfl
  | cons b bs =>
      simp only [scanEnd] at h
      split at h <;> cases h

theorem scanMagnitude_completes {negative : Bool} {bs rest : Bytes}
    (h : scanMagnitude negative bs = .err .errTruncated rest) :
    ∃ z i, scanMagnitude negative (bs ++ z) = .ok i [] := by
  unfold scanMagnitude at h
  split at h
  · next hnat =>
      cases h
      have hone := @scanMagnitude_format negative 1
        (le_trans (by decide) (nine_le_magnitudeCap negative)) (fun _ => by decide) []
      rw [scanNat_truncated hnat]
      exact ⟨_, _, hone⟩
  · next n mid hnat =>
      have hle := scanNat_le (nine_le_magnitudeCap negative) hnat
      obtain ⟨rfl, -⟩ := scanNat_ok hnat
      split at h
      · cases h
      · next hzero =>
          rw [scanEnd_truncated h, List.append_nil]
          exact ⟨_, _, scanMagnitude_format hle (fun hneg h0 => hzero ⟨hneg, h0⟩) []⟩

theorem scanInt_completes {bs rest : Bytes} (h : scanInt bs = .err .errTruncated rest) :
    ∃ z i, 'i'.toUInt8 :: (bs ++ z) = encodeInt i := by
  have hscan : ∃ z i, scanInt (bs ++ z) = .ok i [] := by
    cases bs with
    | nil => exact ⟨_, _, scanInt_format 0 []⟩
    | cons b bs =>
        simp only [scanInt] at h
        split at h
        · next hb =>
            obtain ⟨z, i, hscan⟩ := scanMagnitude_completes h
            exact ⟨z, i, by rw [List.cons_append, scanInt, if_pos hb, hscan]⟩
        · next hb =>
            obtain ⟨z, i, hscan⟩ := scanMagnitude_completes h
            exact ⟨z, i, by rw [List.cons_append, scanInt, if_neg hb]; exact hscan⟩
  obtain ⟨z, i, hok⟩ := hscan
  exact ⟨z, i, by rw [scanInt_ok hok, encodeInt]⟩

theorem scanString_completes {bs rest : Bytes} {st : Status} (h : scanString bs = .err st rest)
    (hst : st = .errTruncated ∨ st = .errStringLength) :
    ∃ z s, bs ++ z = encodeString s ∧ s.length ≤ sizeMax := by
  rcases hst with rfl | rfl
  · unfold scanString at h
    split at h
    · next hnat =>
        cases h
        rw [scanNat_truncated hnat]
        exact ⟨_, [], rfl, Nat.zero_le _⟩
    · next n mid hnat =>
        have hle := scanNat_le (by decide) hnat
        obtain ⟨rfl, -⟩ := scanNat_ok hnat
        split at h
        · next hend =>
            cases h
            rw [scanEnd_truncated hend, List.append_nil]
            refine ⟨':'.toUInt8 :: List.replicate n 0, List.replicate n 0, ?_, ?_⟩
            · rw [encodeString, List.length_replicate]
            · rwa [List.length_replicate]
        · split at h <;> cases h
  · obtain ⟨n, z, rfl, hle, hlong⟩ := scanString_length_iff.mp ⟨rest, h⟩
    have hlength : (z ++ List.replicate (n - z.length) 0).length = n := by
      rw [List.length_append, List.length_replicate]
      omega
    refine ⟨List.replicate (n - z.length) 0, z ++ List.replicate (n - z.length) 0, ?_, ?_⟩
    · rw [encodeString, hlength, List.append_assoc, List.cons_append]
    · rwa [hlength]

/-! ## Completing an input -/

/-- The input was cut off inside a token or between two. -/
def Incomplete (st : Status) : Prop := st = .errTruncated ∨ st = .errStringLength

/-- What is left of the input begins a key, and every key that begins so would be out of order. -/
def Hopeless (stack : List OpenScope) (rest : Bytes) : Prop :=
  ∃ done below, stack = .dict done none :: below ∧ rest ≠ [] ∧
    (∃ k, k.length ≤ sizeMax ∧ rest <+: encodeString k) ∧
    ∀ k, k.length ≤ sizeMax → rest <+: encodeString k → keyOrder (lastKey done) k ≠ .ok

theorem not_awaits {stack : List OpenScope} (h : ¬ Awaits stack) :
    ∃ done below, stack = .dict done none :: below := by
  cases stack with
  | nil => exact absurd trivial h
  | cons o below =>
      cases o with
      | list done => exact absurd trivial h
      | dict done key =>
          cases key with
          | none => exact ⟨done, below, rfl⟩
          | some k => exact absurd trivial h

section Completes

variable {c : Config}

/-- Where the input ends before a token, it goes on with an empty string or with closing bytes. -/
theorem completes_between (hopen : c.result = none) (well : WellOpen limit c.stack) :
    ∃ z es off, Finishes (scanStep limit) { c with rest := z } es (.ok, off) := by
  by_cases await : Awaits c.stack
  · refine ⟨encodeString [] ++ closers c.stack.length, ?_⟩
    exact closes_value (c := { c with rest := encodeString [] ++ closers c.stack.length }) hopen
      well await (.string await [] (Nat.zero_le _)) rfl
  · obtain ⟨done, below, hstack⟩ := not_awaits await
    refine ⟨closers c.stack.length, ?_⟩
    refine closes c.stack.length { c with rest := closers c.stack.length } rfl rfl ?_ fun _ => ?_
    · rw [hopen]
      exact well
    · rw [hstack]
      trivial

/-- A value that has been begun is completed, and then all that is open is closed. -/
theorem completes_value {tok : Bytes} {e : Event} {t : Tree} (hopen : c.result = none)
    (well : WellOpen limit c.stack) (await : Awaits c.stack)
    (read : Reads limit c.stack c.pos tok e (settle c.stack t)) {z : Bytes}
    (htok : c.rest ++ z = tok) :
    ∃ z es off, Finishes (scanStep limit) (c.extend z) es (.ok, off) := by
  refine ⟨z ++ closers c.stack.length, ?_⟩
  rw [Config.extend, ← List.append_assoc, htok]
  exact closes_value (c := { c with rest := tok ++ closers c.stack.length }) hopen well await
    read rfl

theorem completes_key {done : List (Bytes × Tree)} {below : List OpenScope} {k z : Bytes}
    (hopen : c.result = none) (hstack : c.stack = .dict done none :: below)
    (well : WellOpen limit c.stack) (order : keyOrder (lastKey done) k = .ok)
    (fits : k.length ≤ sizeMax) (htok : c.rest ++ z = encodeString k) :
    ∃ z es off, Finishes (scanStep limit) (c.extend z) es (.ok, off) := by
  have read : Reads limit c.stack c.pos (encodeString k) (stringEvent c.pos k)
      (.dict done (some k) :: below, none) := by
    rw [hstack]
    exact .key done below k order fits
  have hwell := read.wellRead well well.length_le
  obtain ⟨y, es, off, hfin⟩ := completes_between
    (c := c.after (encodeString k) [] (.dict done (some k) :: below, none)) rfl hwell
  have hr : c.rest ++ (z ++ y) = encodeString k ++ y := by rw [← List.append_assoc, htok]
  have hstep := Reads.step (c := c.extend (z ++ y)) read hopen hr
  exact ⟨z ++ y, _, off, (Reaches.single hstep).finishes hfin⟩

/-- Where the scanner ran out of input, more input can be accepted unless a key is hopeless. -/
theorem completes {st : Status} (hopen : c.result = none) (well : WellOpen limit c.stack)
    (blocked : Blocked limit c.stack c.rest st) (incomplete : Incomplete st)
    (hope : ¬ Hopeless c.stack c.rest) :
    ∃ z es off, Finishes (scanStep limit) (c.extend z) es (.ok, off) := by
  generalize hstack : c.stack = stack at blocked
  generalize hrest : c.rest = rest at blocked
  cases blocked with
  | truncated =>
      obtain ⟨z, hz⟩ := completes_between hopen well
      refine ⟨z, ?_⟩
      rw [Config.extend, hrest]
      exact hz
  | int await scan =>
      have htrunc : st = .errTruncated := by
        rcases incomplete with h | h
        · exact h
        · rw [h] at scan
          exact absurd (scanInt_err_mem scan) (by decide)
      rw [htrunc] at scan
      obtain ⟨z, i, hz⟩ := scanInt_completes scan
      rw [← hstack] at await
      exact completes_value hopen well await (.int await i) (by rw [hrest]; exact hz)
  | string digit scan =>
      obtain ⟨z, s, hz, fits⟩ := scanString_completes scan incomplete
      rw [← hrest] at hz
      by_cases await : Awaits c.stack
      · exact completes_value hopen well await (.string await s fits) hz
      · obtain ⟨done, below, hdict⟩ := not_awaits await
        have hsome : ∃ k, k.length ≤ sizeMax ∧ c.rest <+: encodeString k ∧
            keyOrder (lastKey done) k = .ok := by
          by_contra hnone
          apply hope
          refine ⟨done, below, hdict, by rw [hrest]; simp, ⟨s, fits, z, hz⟩, ?_⟩
          intro k hk hpre order
          exact hnone ⟨k, hk, hpre, order⟩
        obtain ⟨k, hk, ⟨y, hy⟩, order⟩ := hsome
        exact completes_key hopen hdict well order hk hy
  | full => rcases incomplete with h | h <;> cases h
  | unexpected => rcases incomplete with h | h <;> cases h
  | key fits bad =>
      rcases keyOrder_eq bad with ⟨-, horder⟩ | ⟨l, -, -, horder⟩
      · rw [horder] at incomplete
        rcases incomplete with h | h <;> cases h
      · rw [horder] at incomplete
        rcases incomplete with h | h <;> cases h
  | badKey => rcases incomplete with h | h <;> cases h
  | missingValue => rcases incomplete with h | h <;> cases h

end Completes

/-! ## Hopeless keys -/

theorem encodeString_prefix {k s : Bytes} (hk : k.length ≤ sizeMax) (hs : s.length ≤ sizeMax)
    (h : encodeString k <+: encodeString s) : k = s := by
  obtain ⟨z, hz⟩ := h
  have hscan := scanString_encode hk z
  have hscan' := scanString_encode hs []
  rw [List.append_nil, ← hz, hscan] at hscan'
  exact (Token.ok.inj hscan').1

/-- Once a key is hopeless, nothing that follows makes the input an accepted one. -/
theorem Hopeless.rejected {c : Config} {ext : Bytes} {es : List Event} {off : Nat}
    (h : Hopeless c.stack c.rest) (hopen : c.result = none) :
    ¬ Finishes (scanStep limit) (c.extend ext) es (.ok, off) := by
  obtain ⟨done, below, hstack, hne, ⟨s, hs, hpre⟩, hbad⟩ := h
  rintro ⟨d, run, stop⟩
  cases run with
  | refl =>
      obtain ⟨t, ht, -⟩ := scanStep_stop_ok stop
      cases hopen.symm.trans ht
  | next head tail =>
      obtain ⟨-, tok, rest, next, hr, read, -⟩ := scanStep_emit head
      have hr : c.rest ++ ext = tok ++ rest := hr
      have read : Reads limit c.stack c.pos tok _ next := read
      rw [hstack] at read
      have hcut : c.rest <+: c.rest ++ ext := List.prefix_append _ _
      have htok : tok <+: c.rest ++ ext := hr ▸ List.prefix_append _ _
      cases read with
      | int await => exact await.elim
      | string await => exact await.elim
      | listBegin await => exact await.elim
      | dictBegin await => exact await.elim
      | key _ _ k order fits =>
          rcases List.prefix_or_prefix_of_prefix hcut htok with hshort | hlong
          · exact hbad k fits hshort order
          · obtain rfl := encodeString_prefix fits hs (hlong.trans hpre)
            exact hbad k fits hpre order
      | dictEnd =>
          obtain ⟨b, bs, hcons⟩ := List.exists_cons_of_ne_nil hne
          obtain ⟨b', bs', henc, hdigit⟩ := encodeString_cons s
          rw [hcons, List.cons_append] at hr
          rw [hcons, henc] at hpre
          have hb : b = b' := (List.cons_prefix_cons.mp hpre).1
          have he : b = 'e'.toUInt8 := (List.cons.inj hr).1
          rw [← hb, he] at hdigit
          revert hdigit
          decide

/-! ## The parser -/

/-- Some continuation of the input is accepted. It may be of any length, also beyond `SIZE_MAX`. -/
def Completable (w : Bytes) (maxDepth : Nat) : Prop :=
  ∃ ext off es, Recorded (w ++ ext) maxDepth .ok off es

/-- The run on a longer input passes through the configurations of the run on the shorter one. -/
theorem reaches_longer {w : Bytes} {es : List Event} {c : Config}
    (run : Reaches (scanStep limit) (.start w) es c) (ext : Bytes) :
    Reaches (scanStep limit) (.start (w ++ ext)) es (c.extend ext) := by
  obtain ⟨pre, hr, -, hrun⟩ := reaches_local run
  have hlonger := hrun (c.rest ++ ext)
  rw [← List.append_assoc, ← hr] at hlonger
  exact hlonger

/-- An input can be continued to an accepted one exactly when it is accepted already, or the
parser has run out of input and no key is hopeless. -/
theorem bencodeParseSax_completable (w : Bytes) (maxDepth : Nat) :
    ∃ st off es, Recorded w maxDepth st off es ∧
      (Completable w maxDepth ↔
        st = .ok ∨ (Incomplete st ∧ ¬ First (effectiveDepth maxDepth) w Hopeless)) := by
  obtain ⟨st, off, es, hrun⟩ := recorded_exists w maxDepth
  refine ⟨st, off, es, hrun, ?_⟩
  constructor
  · rintro ⟨ext, off', es', hext⟩
    by_cases hok : st = .ok
    · exact .inl hok
    · right
      have hnot : ¬ First (effectiveDepth maxDepth) w Hopeless := by
        rintro ⟨c, legal, hopen, hopeless⟩
        obtain ⟨fs, run⟩ := legal.reaches
        obtain ⟨gs, -, hfin⟩ := (reaches_longer run ext).of_finishes (recorded_iff.mp hext)
        exact hopeless.rejected hopen hfin
      refine ⟨?_, hnot⟩
      by_contra hother
      have hdef : Definite st := ⟨hok, fun h => hother (.inl h), fun h => hother (.inr h)⟩
      have hsame := hrun.rejected hdef ((List.take_prefix _ _).trans (List.prefix_append w ext))
      obtain ⟨-, heq⟩ := (recorded_iff.mp hsame).unique (recorded_iff.mp hext)
      exact hok (Prod.mk.inj heq).1
  · rintro (rfl | ⟨incomplete, hope⟩)
    · exact ⟨[], off, es, by rwa [List.append_nil]⟩
    · obtain ⟨d, run, stop⟩ := recorded_iff.mp hrun
      have sound := Sound.of_reaches run
      cases hopen : d.result with
      | some t =>
          simp only [scanStep, hopen] at stop
          cases stop
          rcases incomplete with h | h <;> cases h
      | none =>
          have hwell := sound.well
          rw [hopen] at hwell
          have hdone := fun h => hope ⟨d, legal_of_reaches run, hopen, h⟩
          obtain ⟨ext, fs, off', hfin⟩ :=
            completes hopen hwell (scanStep_blocked hopen stop) incomplete hdone
          exact ⟨ext, off', es ++ fs, recorded_iff.mpr ((reaches_longer run ext).finishes hfin)⟩

end Bencode
