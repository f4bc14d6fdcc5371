import Bencode.Library.Delivery
import Mathlib.Data.Nat.Basic

/-! # Buffered output to a device that may fail

A stream collects bytes in a buffer of fixed size and hands them to its device when
the buffer is full or when it is flushed. A schedule decides which writes to the device
fail. Text that was put on a stream without an error has been delivered but for what
the buffer still holds; whether that arrives too is known only after a flush. How a text
that is put in one call is cut into writes is left to a plan.
-/

open Delivery

/-- What a stream writes to, and how much the stream collects. The `n`-th write fails if `fails n`
is some number: that many bytes it has taken, though never all. What it has not taken stays
in the buffer or is dropped. -/
structure Device where
  room : Nat
  room_pos : 0 < room
  fails : Nat → Option Nat
  keeps : Bool

structure OutStream (d : Device) where
  writes : Nat
  pending : List UInt8
  delivered : List UInt8

namespace OutStream

variable {d : Device}

def opened (d : Device) : OutStream d := ⟨0, [], []⟩

/-- Hand the buffer to the device; `true` is success. -/
def fflush (s : OutStream d) : Bool × OutStream d :=
  if s.pending = [] then (true, s)
  else
    match d.fails s.writes with
    | none => (true, ⟨s.writes + 1, [], s.delivered ++ s.pending⟩)
    | some k =>
        let taken := min k (s.pending.length - 1)
        (false, ⟨s.writes + 1, if d.keeps then s.pending.drop taken else [],
          s.delivered ++ s.pending.take taken⟩)

/-- Put one byte into the buffer, which is flushed first when it is full. -/
def fputc (b : UInt8) (s : OutStream d) : Bool × OutStream d :=
  if s.pending.length < d.room then (true, { s with pending := s.pending ++ [b] })
  else
    match s.fflush with
    | (true, s) => (true, { s with pending := s.pending ++ [b] })
    | (false, s) => (false, s)

/-- Put a text byte by byte, up to the first error. -/
def fputs : List UInt8 → OutStream d → Bool × OutStream d := deliver true fputc

/-- Go on after a success only. -/
def andThen (r : Bool × OutStream d) (next : OutStream d → Bool × OutStream d) :
    Bool × OutStream d :=
  match r with
  | (true, s) => next s
  | (false, s) => (false, s)

/-! ## Texts -/

theorem deliver_andThen {ε : Type} (offer : ε → OutStream d → Bool × OutStream d) (e : ε)
    (es : List ε) (s : OutStream d) :
    deliver true offer (e :: es) s = andThen (offer e s) (deliver true offer es) := by
  rw [deliver_cons]
  cases h : offer e s with
  | mk ok s' => cases ok <;> rfl

theorem fputs_cons (b : UInt8) (text : List UInt8) (s : OutStream d) :
    fputs (b :: text) s = andThen (fputc b s) (fputs text) := by
  exact deliver_andThen fputc b text s

theorem fputs_append (text more : List UInt8) (s : OutStream d) :
    fputs (text ++ more) s = andThen (fputs text s) (fputs more) := by
  unfold fputs
  rw [deliver_append]
  cases h : deliver true fputc text s with
  | mk ok s' => cases ok <;> rfl

theorem fputs_singleton (b : UInt8) : fputs [b] = fputc (d := d) b :=
  funext fun s => deliver_singleton b s

theorem andThen_assoc (r : Bool × OutStream d) (f g : OutStream d → Bool × OutStream d) :
    andThen (andThen r f) g = andThen r fun s => andThen (f s) g := by
  obtain ⟨ok, s⟩ := r
  cases ok <;> rfl

/-! ## Any stream -/

theorem fflush_ok {s s' : OutStream d} (h : s.fflush = (true, s')) :
    s'.pending = [] ∧ s'.delivered = s.delivered ++ s.pending ∧
      (s.pending ≠ [] → d.fails s.writes = none ∧ s'.writes = s.writes + 1) := by
  unfold fflush at h
  split at h
  · next hnil =>
      cases h
      exact ⟨hnil, by rw [hnil, List.append_nil], fun hne => absurd hnil hne⟩
  · split at h
    · next hnone =>
        cases h
        exact ⟨rfl, rfl, fun _ => ⟨hnone, rfl⟩⟩
    · cases h

inductive Puts (s : OutStream d) (text : List UInt8) : Bool × OutStream d → Prop
  | done {s' : OutStream d} (bytes : s'.delivered ++ s'.pending = s.delivered ++ s.pending ++ text)
      (kept : s.delivered <+: s'.delivered) : Puts s text (true, s')
  | short {s' : OutStream d} {rest : List UInt8} (lost : rest ≠ [])
      (bytes : s'.delivered ++ rest = s.delivered ++ s.pending ++ text)
      (kept : s.delivered <+: s'.delivered) : Puts s text (false, s')

theorem Puts.andThen {s : OutStream d} {text more : List UInt8} {r : Bool × OutStream d}
    {next : OutStream d → Bool × OutStream d} (h : Puts s text r)
    (hnext : ∀ s', Puts s' more (next s')) : Puts s (text ++ more) (andThen r next) := by
  cases h with
  | @done s' bytes kept =>
      have hmore := hnext s'
      unfold OutStream.andThen
      dsimp only
      generalize next s' = r at hmore
      cases hmore with
      | done bytes' kept' =>
          refine .done ?_ (kept.trans kept')
          rw [bytes', bytes, List.append_assoc _ text]
      | short lost bytes' kept' =>
          refine .short lost ?_ (kept.trans kept')
          rw [bytes', bytes, List.append_assoc _ text]
  | short lost bytes kept =>
      refine .short (List.append_ne_nil_of_left_ne_nil lost more) ?_ kept
      rw [← List.append_assoc, bytes, List.append_assoc _ text]

theorem fflush_puts (s : OutStream d) : Puts s [] s.fflush := by
  unfold fflush
  split
  · exact .done (List.append_nil _).symm (List.prefix_refl _)
  · next hne =>
      split
      · exact .done (by simp) (List.prefix_append _ _)
      · next k _ =>
          have hpos := List.length_pos_iff.mpr hne
          have hlost : s.pending.drop (min k (s.pending.length - 1)) ≠ [] := by
            intro hnil
            rw [List.drop_eq_nil_iff] at hnil
            omega
          exact .short hlost (by simp) (List.prefix_append _ _)

theorem fputc_puts (b : UInt8) (s : OutStream d) : Puts s [b] (s.fputc b) := by
  unfold fputc
  split
  · exact .done (by simp) (List.prefix_refl _)
  · have hflush := fflush_puts s
    generalize s.fflush = r at hflush
    cases hflush with
    | done bytes kept =>
        refine .done ?_ kept
        rw [List.append_nil] at bytes
        rw [← bytes, List.append_assoc]
    | short lost bytes kept =>
        refine .short (List.append_ne_nil_of_left_ne_nil lost [b]) ?_ kept
        rw [← List.append_assoc, bytes, List.append_nil]

/-- A flush hands over what has been put on the stream, or a part of it. -/
theorem fflush_begins {s : OutStream d} {text : List UInt8}
    (h : s.delivered ++ s.pending <+: text) :
    s.fflush.2.delivered ++ s.fflush.2.pending <+: text := by
  unfold fflush
  split
  · exact h
  · split
    · simpa using h
    · dsimp only
      split
      · rw [List.append_assoc, List.take_append_drop]
        exact h
      · next k _ _ =>
          have htaken := (List.prefix_append_right_inj s.delivered).mpr
            (List.take_prefix (min k (s.pending.length - 1)) s.pending)
          rw [List.append_nil]
          exact htaken.trans h

/-- What is on the stream after a text was put on it is a beginning of the text, and less than all
of it after an error. -/
theorem fputs_begins (text : List UInt8) (s : OutStream d) :
    ∃ pre, pre <+: text ∧ ((fputs text s).1 = false → pre ≠ text) ∧
      (fputs text s).2.delivered ++ (fputs text s).2.pending <+:
        s.delivered ++ s.pending ++ pre := by
  induction text generalizing s with
  | nil => exact ⟨[], List.prefix_refl _, fun h => (by cases h), by simp [fputs]⟩
  | cons b text ih =>
      rw [fputs_cons]
      have hput := fputc_puts b s
      cases hrun : fputc b s with
      | mk ok s' =>
          rw [hrun] at hput
          cases hput with
          | done bytes kept =>
              obtain ⟨pre, hpre, hall, hrest⟩ := ih s'
              refine ⟨b :: pre, (List.prefix_cons_inj b).mpr hpre, ?_, ?_⟩
              · intro hfailed heq
                exact hall hfailed (List.cons.inj heq).2
              · rw [bytes, List.append_assoc _ [b]] at hrest
                exact hrest
          | short lost bytes kept =>
              refine ⟨[], List.nil_prefix, fun _ h => (by cases h), ?_⟩
              have hfailed : s.fflush = (false, s') := by
                unfold fputc at hrun
                split at hrun
                · cases hrun
                · split at hrun
                  · cases hrun
                  · next hflush =>
                      cases hrun
                      exact hflush
              have hbegins := @fflush_begins d s _ (List.prefix_refl _)
              rw [hfailed] at hbegins
              rw [List.append_nil]
              exact hbegins

/-- From the write number `n` on all writes that were made succeeded, or the last one has failed and
was the first to fail. -/
inductive Made (n : Nat) : Bool × OutStream d → Prop
  | done {s : OutStream d} (le : n ≤ s.writes)
      (clean : ∀ i, n ≤ i → i < s.writes → d.fails i = none) : Made n (true, s)
  | failed {s : OutStream d} {i : Nat} (le : n ≤ i) (last : s.writes = i + 1)
      (fails : d.fails i ≠ none) (clean : ∀ j, n ≤ j → j < i → d.fails j = none) :
      Made n (false, s)

theorem Made.refl (s : OutStream d) : Made s.writes (true, s) :=
  .done (Nat.le_refl _) fun _ hi hlt => absurd hlt (Nat.not_lt_of_le hi)

theorem Made.andThen {n : Nat} {r : Bool × OutStream d}
    {next : OutStream d → Bool × OutStream d} (h : Made n r)
    (hnext : ∀ s, Made s.writes (next s)) : Made n (andThen r next) := by
  cases h with
  | failed le last fails clean => exact .failed le last fails clean
  | @done s le clean =>
      have hmore := hnext s
      unfold OutStream.andThen
      dsimp only
      generalize next s = r at hmore
      cases hmore with
      | @done s' le' clean' =>
          refine .done (Nat.le_trans le le') fun i hi hlt => ?_
          by_cases hold : i < s.writes
          · exact clean i hi hold
          · exact clean' i (Nat.le_of_not_lt hold) hlt
      | @failed s' k le' last fails clean' =>
          refine .failed (Nat.le_trans le le') last fails fun i hi hlt => ?_
          by_cases hold : i < s.writes
          · exact clean i hi hold
          · exact clean' i (Nat.le_of_not_lt hold) hlt

/-- The write that hands over the last of `n` bytes, counted from the first one. -/
def lastWrite (d : Device) (n : Nat) : Nat := (n - 1) / d.room

/-- All bytes of the text went into the stream and no write has failed. -/
structure Took (text : List UInt8) (s : OutStream d) : Prop where
  bytes : s.delivered ++ s.pending = text
  pending : s.pending.length + d.room * s.writes = text.length
  writes : s.writes = lastWrite d text.length
  succeeded : ∀ i, i < s.writes → d.fails i = none

/-- The write number `i`, which is not the last of the text, was the first to fail. What the writes
before it handed over has arrived. -/
structure Broke (text : List UInt8) (i : Nat) (s : OutStream d) : Prop where
  lt : i < lastWrite d text.length
  fails : d.fails i ≠ none
  first : ∀ j, j < i → d.fails j = none
  arrived : text.take (d.room * i) <+: s.delivered

theorem opened_took (d : Device) : Took [] (opened d) :=
  ⟨rfl, rfl, (Nat.zero_div _).symm, fun _ hi => absurd hi (Nat.not_lt_zero _)⟩

theorem Took.pending_ne {text : List UInt8} {s : OutStream d} (h : Took text s)
    (nonempty : text ≠ []) : s.pending ≠ [] := by
  intro hnil
  have hpending := h.pending
  have hpos := List.length_pos_iff.mpr nonempty
  have hlt : d.room * s.writes ≤ text.length - 1 := by
    rw [h.writes]
    exact Nat.mul_div_le _ _
  rw [hnil, List.length_nil] at hpending
  omega

theorem fflush_failed {s s' : OutStream d} (h : s.fflush = (false, s')) :
    s.pending ≠ [] ∧ d.fails s.writes ≠ none ∧ s'.delivered ≠ s.delivered ++ s.pending := by
  unfold fflush at h
  split at h
  · cases h
  · next hne =>
      split at h
      · cases h
      · next k hsome =>
          cases h
          refine ⟨hne, by rw [hsome]; simp, ?_⟩
          intro heq
          have hlen := congrArg List.length heq
          have hpos := List.length_pos_iff.mpr hne
          simp only [List.length_append, List.length_take] at hlen
          omega

theorem Took.lastWrite_room {text : List UInt8} {s : OutStream d} (h : Took text s)
    (hfits : s.pending.length < d.room) : lastWrite d (text.length + 1) = s.writes := by
  have hpending := h.pending
  unfold lastWrite
  rw [Nat.add_sub_cancel]
  apply Nat.div_eq_of_lt_le
  · rw [Nat.mul_comm]
    omega
  · rw [Nat.mul_comm, Nat.mul_add]
    omega

theorem Took.length_full {text : List UInt8} {s : OutStream d} (h : Took text s)
    (hfull : ¬ s.pending.length < d.room) : text.length = d.room * (s.writes + 1) := by
  have hpending := h.pending
  have hlast : text.length - 1 < d.room * (s.writes + 1) := by
    rw [h.writes]
    exact Nat.lt_mul_div_succ _ d.room_pos
  rw [Nat.mul_add] at hlast ⊢
  omega

theorem Took.lastWrite_full {text : List UInt8} {s : OutStream d} (h : Took text s)
    (hfull : ¬ s.pending.length < d.room) : lastWrite d (text.length + 1) = s.writes + 1 := by
  unfold lastWrite
  rw [Nat.add_sub_cancel, h.length_full hfull, Nat.mul_div_cancel_left _ d.room_pos]

theorem Took.delivered_eq {text : List UInt8} {s : OutStream d} (h : Took text s) :
    s.delivered = text.take (d.room * s.writes) := by
  have hlen : s.delivered.length = d.room * s.writes := by
    have htotal := congrArg List.length h.bytes
    have hpending := h.pending
    rw [List.length_append] at htotal
    omega
  rw [← hlen, ← h.bytes, List.take_left]

theorem lastWrite_mono (d : Device) {m n : Nat} (h : m ≤ n) : lastWrite d m ≤ lastWrite d n :=
  Nat.div_le_div_right (Nat.sub_le_sub_right h 1)

theorem Broke.append {text : List UInt8} {i : Nat} {s : OutStream d} (h : Broke text i s)
    (more : List UInt8) : Broke (text ++ more) i s where
  lt := by
    have hmono := lastWrite_mono d (Nat.le_add_right text.length more.length)
    rw [List.length_append]
    exact Nat.lt_of_lt_of_le h.lt hmono
  fails := h.fails
  first := h.first
  arrived := by
    have hbefore : d.room * i ≤ text.length - 1 :=
      Nat.le_trans (Nat.mul_le_mul_left _ (Nat.le_of_lt h.lt)) (Nat.mul_div_le _ _)
    rw [List.take_append_of_le_length (by omega)]
    exact h.arrived

theorem length_snoc (text : List UInt8) (b : UInt8) : (text ++ [b]).length = text.length + 1 := by
  rw [List.length_append, List.length_singleton]

theorem Took.fits {text : List UInt8} {s : OutStream d} (h : Took text s)
    (hfits : s.pending.length < d.room) (b : UInt8) :
    Took (d := d) (text ++ [b]) { s with pending := s.pending ++ [b] } where
  bytes := by rw [← List.append_assoc, h.bytes]
  pending := by
    have hpending := h.pending
    simp only [length_snoc]
    omega
  writes := by rw [length_snoc, h.lastWrite_room hfits]
  succeeded := h.succeeded

theorem Took.drained {text : List UInt8} {s s₁ : OutStream d} (h : Took text s)
    (hfull : ¬ s.pending.length < d.room) (hflush : s.fflush = (true, s₁)) (b : UInt8) :
    Took (d := d) (text ++ [b]) { s₁ with pending := s₁.pending ++ [b] } := by
  have hne : s.pending ≠ [] := by
    intro hnil
    rw [hnil, List.length_nil] at hfull
    exact hfull d.room_pos
  obtain ⟨hempty, hdelivered, hmade⟩ := fflush_ok hflush
  obtain ⟨hnone, hwrites⟩ := hmade hne
  refine ⟨?_, ?_, ?_, ?_⟩
  · rw [hempty, hdelivered, List.nil_append, h.bytes]
  · show (s₁.pending ++ [b]).length + d.room * s₁.writes = (text ++ [b]).length
    rw [length_snoc, length_snoc, hempty, hwrites, h.length_full hfull]
    exact Nat.add_comm _ _
  · rw [length_snoc, h.lastWrite_full hfull]
    exact hwrites
  · intro i hi
    have hi' : i < s.writes + 1 := hwrites ▸ hi
    rcases Nat.lt_succ_iff_lt_or_eq.mp hi' with hlt | rfl
    · exact h.succeeded i hlt
    · exact hnone

theorem Took.broken {text : List UInt8} {s s₁ : OutStream d} (h : Took text s)
    (hfull : ¬ s.pending.length < d.room) (hflush : s.fflush = (false, s₁)) (b : UInt8) :
    Broke (text ++ [b]) s.writes s₁ := by
  have hpending := h.pending
  have hkept := fflush_puts s
  rw [hflush] at hkept
  cases hkept with
  | short lost bytes kept =>
      refine ⟨?_, (fflush_failed hflush).2.1, h.succeeded, ?_⟩
      · rw [length_snoc, h.lastWrite_full hfull]
        exact Nat.lt_succ_self _
      · rw [List.take_append_of_le_length (by omega), ← h.delivered_eq]
        exact kept

theorem Took.fputc {text : List UInt8} {s : OutStream d} (h : Took text s) (b : UInt8) :
    (∃ s', s.fputc b = (true, s') ∧ Took (text ++ [b]) s') ∨
      ∃ s' i, s.fputc b = (false, s') ∧ Broke (text ++ [b]) i s' := by
  unfold OutStream.fputc
  by_cases hfits : s.pending.length < d.room
  · rw [if_pos hfits]
    exact .inl ⟨_, rfl, h.fits hfits b⟩
  · rw [if_neg hfits]
    cases hflush : s.fflush with
    | mk ok s₁ =>
        cases ok with
        | true => exact .inl ⟨_, rfl, h.drained hfits hflush b⟩
        | false => exact .inr ⟨s₁, s.writes, rfl, h.broken hfits hflush b⟩

/-- Putting a text on a stream succeeds unless a write before the last one fails. -/
theorem Took.fputs {text : List UInt8} {s : OutStream d} (h : Took text s) (more : List UInt8) :
    (∃ s', OutStream.fputs more s = (true, s') ∧ Took (text ++ more) s') ∨
      ∃ s' i, OutStream.fputs more s = (false, s') ∧ Broke (text ++ more) i s' := by
  induction more generalizing text s with
  | nil =>
      left
      rw [List.append_nil]
      exact ⟨s, rfl, h⟩
  | cons b more ih =>
      have hsplit : text ++ b :: more = text ++ [b] ++ more := by simp
      rw [fputs_cons, hsplit]
      rcases h.fputc b with ⟨s', hput, htook⟩ | ⟨s', i, hput, broke⟩
      · rw [hput]
        exact ih htook
      · rw [hput]
        exact .inr ⟨s', i, rfl, broke.append more⟩

/-- A flush after a whole text delivers it unless the last write fails. -/
theorem Took.fflush {text : List UInt8} {s : OutStream d} (h : Took text s) (nonempty : text ≠ []) :
    (∃ s', s.fflush = (true, s') ∧ s'.delivered = text ∧ s'.pending = [] ∧
        d.fails (lastWrite d text.length) = none) ∨
      ∃ s', s.fflush = (false, s') ∧ s'.delivered ≠ text ∧
        d.fails (lastWrite d text.length) ≠ none := by
  have hne := h.pending_ne nonempty
  cases hflush : s.fflush with
  | mk ok s' =>
      cases ok with
      | true =>
          obtain ⟨hempty, hdelivered, hmade⟩ := fflush_ok hflush
          exact .inl ⟨s', rfl, hdelivered.trans h.bytes, hempty, h.writes ▸ (hmade hne).1⟩
      | false =>
          obtain ⟨-, hfails, hlost⟩ := fflush_failed hflush
          rw [h.bytes] at hlost
          exact .inr ⟨s', rfl, hlost, h.writes ▸ hfails⟩

/-! ## A fresh stream -/

/-- The buffer takes the text without a failing write, and the write of its last bytes, which only
a later flush makes, fails. -/
structure LastLost (d : Device) (text : List UInt8) : Prop where
  taken : ∀ i, i < lastWrite d text.length → d.fails i = none
  lost : d.fails (lastWrite d text.length) ≠ none

/-- What has become of a text on a fresh stream once the stream is closed. -/
inductive Closed (d : Device) (text : List UInt8) : Bool × OutStream d → Prop
  | arrived {s : OutStream d} (delivered : s.fflush.2.delivered = text)
      (clean : ∀ i, i ≤ lastWrite d text.length → d.fails i = none) : Closed d text (true, s)
  | unnoticed {s : OutStream d} (undelivered : s.fflush.2.delivered ≠ text)
      (begins : s.fflush.2.delivered <+: text)
      (arrived : text.take (d.room * lastWrite d text.length) <+: s.fflush.2.delivered)
      (lost : LastLost d text) : Closed d text (true, s)
  | reported {s : OutStream d} {i : Nat} (broke : Broke text i s.fflush.2)
      (undelivered : s.fflush.2.delivered ≠ text) (begins : s.fflush.2.delivered <+: text) :
      Closed d text (false, s)

theorem fflush_kept (s : OutStream d) : s.delivered <+: s.fflush.2.delivered := by
  have hputs := fflush_puts s
  generalize s.fflush = r at hputs
  cases hputs with
  | done bytes kept => exact kept
  | short lost bytes kept => exact kept

theorem fputs_closed (d : Device) {text : List UInt8} (nonempty : text ≠ []) :
    Closed d text (fputs text (opened d)) := by
  obtain ⟨pre, hpre, hall, hbegins⟩ := fputs_begins text (opened d)
  rcases (opened_took d).fputs text with ⟨s, hput, htook⟩ | ⟨s, i, hput, broke⟩
  · rw [hput] at hall hbegins ⊢
    rw [List.nil_append] at htook
    have hbefore : ∀ i, i < lastWrite d text.length → d.fails i = none := by
      rw [← htook.writes]
      exact htook.succeeded
    rcases htook.fflush nonempty with
      ⟨s', hflush, hdelivered, -, hlast⟩ | ⟨s', hflush, hundelivered, hlast⟩
    · refine .arrived (by rw [hflush]; exact hdelivered) ?_
      intro i hi
      rcases Nat.lt_or_eq_of_le hi with hlt | rfl
      · exact hbefore i hlt
      · exact hlast
    · have hkept := fflush_kept s
      rw [htook.delivered_eq, htook.writes] at hkept
      refine .unnoticed (by rw [hflush]; exact hundelivered) ?_ hkept ⟨hbefore, hlast⟩
      exact (List.prefix_append _ _).trans ((fflush_begins hbegins).trans hpre)
  · rw [hput] at hall hbegins ⊢
    rw [List.nil_append] at broke
    have hpart := (List.prefix_append _ _).trans (fflush_begins hbegins)
    have hshort : pre.length < text.length := by
      refine Nat.lt_of_le_of_ne hpre.length_le fun hlen => ?_
      exact hall rfl (hpre.eq_of_length hlen)
    refine .reported ⟨broke.lt, broke.fails, broke.first, broke.arrived.trans (fflush_kept s)⟩ ?_
      (hpart.trans hpre)
    intro heq
    have hle := hpart.length_le
    rw [heq] at hle
    exact Nat.not_lt_of_le hle hshort

/-- What has become of a text that is put on a fresh stream and flushed. -/
inductive Flushed (d : Device) (text : List UInt8) : Bool × OutStream d → Prop
  | arrived {s : OutStream d} (empty : s.pending = []) (delivered : s.delivered = text)
      (clean : ∀ i, i ≤ lastWrite d text.length → d.fails i = none) : Flushed d text (true, s)
  | reported {s : OutStream d} {i : Nat} (le : i ≤ lastWrite d text.length)
      (fails : d.fails i ≠ none) (first : ∀ j, j < i → d.fails j = none)
      (arrived : text.take (d.room * i) <+: s.delivered)
      (begins : s.delivered ++ s.pending <+: text) : Flushed d text (false, s)

theorem fputs_flushed (d : Device) {text : List UInt8} (nonempty : text ≠ []) :
    Flushed d text (OutStream.andThen (fputs text (opened d)) OutStream.fflush) := by
  obtain ⟨pre, hpre, -, hbegins⟩ := fputs_begins text (opened d)
  rcases (opened_took d).fputs text with ⟨s, hput, htook⟩ | ⟨s, i, hput, broke⟩
  · rw [hput] at hbegins ⊢
    rw [List.nil_append] at htook
    have hsucceeded := htook.succeeded
    rw [htook.writes] at hsucceeded
    have hafter := (fflush_begins hbegins).trans hpre
    have hkept := fflush_kept s
    rw [htook.delivered_eq, htook.writes] at hkept
    unfold OutStream.andThen
    dsimp only
    rcases htook.fflush nonempty with
      ⟨s', hflush, hdelivered, hempty, hlast⟩ | ⟨s', hflush, -, hlast⟩
    · rw [hflush]
      refine .arrived hempty hdelivered fun i hi => ?_
      rcases Nat.lt_or_eq_of_le hi with hlt | rfl
      · exact hsucceeded i hlt
      · exact hlast
    · rw [hflush] at hafter hkept ⊢
      exact .reported (Nat.le_refl _) hlast hsucceeded hkept hafter
  · rw [hput] at hbegins ⊢
    rw [List.nil_append] at broke
    exact .reported (Nat.le_of_lt broke.lt) broke.fails broke.first broke.arrived
      (hbegins.trans hpre)

end OutStream
