import Bencode.Cli.Output
import Bencode.Cli.Reading
import Bencode.Emit.BufferRun

/-!
# What the subcommands report

A subcommand without a tree names its input or the verdict on it. With a tree it writes its
text, and only `print` flushes standard output before it decides on the exit code: the
others report a failing write before the last one and miss the write that ends the process.
-/

namespace Bencode

open OutStream

variable {d : Device} {prog : Bytes} {path : Option Bytes} {sub : Subcommand} {file : InputFile}
  {m m' : Memory}

/-! ## Without a tree -/

section Unloaded

variable {rc : Nat} {err : Bytes}

theorem withInput_unloaded (hload : load prog path file m = .ok (⟨rc, none, m'⟩, err))
    (out : OutStream d)
    (body : ReadBuffer → Option Value → Memory → Except Fault (Exit d × Bytes)) :
    withInput prog path file out m body = .ok (⟨rc, out, m'⟩, err) := by
  simp only [withInput, hload]

theorem withInput_loaded {buf : ReadBuffer} {value : Option Value}
    (hload : load prog path file m = .ok (⟨rc, some (buf, value), m'⟩, err)) (out : OutStream d)
    (body : ReadBuffer → Option Value → Memory → Except Fault (Exit d × Bytes)) :
    withInput prog path file out m body = body buf value m' := by
  simp only [withInput, hload]

theorem cmd_unloaded (sub : Subcommand) (hload : load prog path file m = .ok (⟨rc, none, m'⟩, err))
    (out : OutStream d) : sub.cmd prog path file out m = .ok (⟨rc, out, m'⟩, err) := by
  cases sub with
  | validate => exact withInput_unloaded hload out _
  | print => exact withInput_unloaded hload out _
  | roundtrip => exact withInput_unloaded hload out _
  | size => exact withInput_unloaded hload out _

end Unloaded

/-! ## With a tree -/

def Subcommand.put (sub : Subcommand) (text : Bytes) (out : OutStream d) : Bool × OutStream d :=
  if sub = .print then andThen (fputs text out) fflush else fputs text out

theorem memcmp_self (w : Bytes) : memcmp w w w.length = .ok 0 := by
  have hdiff : ∀ v : Bytes, firstDiff v v = 0 := by
    intro v
    induction v with
    | nil => rfl
    | cons b v ih => rw [firstDiff, if_pos rfl, ih]
  rw [memcmp, if_pos ⟨Nat.le_refl _, Nat.le_refl _⟩, hdiff]

/-- A subcommand that has loaded a tree puts its text on the stream and says nothing, unless
`roundtrip` finds no memory. -/
theorem cmd_loaded {buf : ReadBuffer} {v : Value} {err : Bytes} (sub : Subcommand)
    (hload : load prog path file m = .ok (⟨0, some (buf, some v), m'⟩, err))
    (readable : file.Readable) (whole : buf.bytes = file.content)
    (encodes : (v.tree buf.bufs).encode = file.content) (fits : (v.tree buf.bufs).Fits)
    (out : OutStream d) :
    ∃ e said, sub.cmd prog path file out m = .ok (e, said) ∧ (m'.refused < e.mem.refused ∨
      said = [] ∧
        e.code = (if (sub.put (sub.text file.content.length (v.tree buf.bufs)) out).1
          then 0 else 2) ∧
        e.out = (sub.put (sub.text file.content.length (v.tree buf.bufs)) out).2) := by
  cases sub with
  | validate =>
      simp only [Subcommand.cmd, cmdValidate, withInput_loaded hload]
      exact ⟨_, _, rfl, .inr ⟨rfl, rfl, rfl⟩⟩
  | print =>
      have hwritten : andThen (printValue buf.bufs v 0 out)
          (fun out => andThen (fputc '\n'.toUInt8 out) fflush) =
          Subcommand.print.put (Subcommand.print.text file.content.length (v.tree buf.bufs))
            out := by
        rw [Subcommand.put, if_pos rfl, Subcommand.text, fputs_append, andThen_assoc,
          printValue_eq, fputs_singleton]
      simp only [Subcommand.cmd, cmdPrint, withInput_loaded hload, hwritten]
      exact ⟨_, _, rfl, .inr ⟨rfl, rfl, rfl⟩⟩
  | size =>
      simp only [Subcommand.cmd, cmdSize, withInput_loaded hload, walk_eq, whole]
      exact ⟨_, _, rfl, .inr ⟨rfl, rfl, rfl⟩⟩
  | roundtrip =>
      simp only [Subcommand.cmd, cmdRoundtrip, withInput_loaded hload]
      have hsmall : (v.tree buf.bufs).encode.length ≤ sizeMax / 2 := by
        have hhalf : sizeMax / 2 + 1 = largestBuffer := by decide
        have := readable.fits
        rw [encodes]
        omega
      have hrefused := bencodeEmitToAlloc_refused (a := none) rfl buf.bufs v m' hsmall
      have hemitted := bencodeEmitToAlloc_emitted (a := none) rfl buf.bufs v m'
      generalize bencodeEmitToAlloc buf.bufs (some v) none m' = r at hrefused hemitted
      cases hemitted with
      | ok array len_le blocks granted =>
          simp only [encodes, whole, memcmp_self, ite_self, ne_eq, not_true_eq_false, if_false,
            and_self, if_true]
          exact ⟨_, _, rfl, .inr ⟨rfl, rfl, rfl⟩⟩
      | nomem blocks =>
          refine ⟨_, _, if_pos (by simp), .inl ?_⟩
          dsimp only
          rw [free_refused, bencodeValueFree_refused]
          exact hrefused rfl
      | unformatted long blocks granted => exact absurd fits long

/-! ## Texts on a fresh stream -/

/-- The exit code for a text, and what of the text arrives. `flushed` says that the last write is
made before the exit code is decided. -/
inductive Wrote (d : Device) (text : Bytes) (flushed : Prop) : Nat → Bytes → Prop
  | whole (clean : ∀ i, i ≤ lastWrite d text.length → d.fails i = none) :
      Wrote d text flushed 0 text
  | unnoticed {part : Bytes} (unflushed : ¬ flushed) (lost : LastLost d text)
      (short : part ≠ text) (begins : part <+: text)
      (arrived : text.take (d.room * lastWrite d text.length) <+: part) :
      Wrote d text flushed 0 part
  | reported {part : Bytes} {i : Nat} (le : i ≤ lastWrite d text.length)
      (before : ¬ flushed → i < lastWrite d text.length ∧ part ≠ text)
      (fails : d.fails i ≠ none) (first : ∀ j, j < i → d.fails j = none)
      (begins : part <+: text) (arrived : text.take (d.room * i) <+: part) :
      Wrote d text flushed 2 part

theorem fputs_wrote (d : Device) {text : Bytes} (nonempty : text ≠ []) {flushed : Prop}
    (unflushed : ¬ flushed) : Wrote d text flushed (if (fputs text (opened d)).1 then 0 else 2)
      (fputs text (opened d)).2.fflush.2.delivered := by
  have hclosed := fputs_closed d nonempty
  generalize fputs text (opened d) = r at hclosed
  cases hclosed with
  | @arrived s delivered clean =>
      dsimp only
      rw [delivered]
      exact .whole clean
  | unnoticed undelivered begins arrived lost =>
      exact .unnoticed unflushed lost undelivered begins arrived
  | reported broke undelivered begins =>
      exact .reported (Nat.le_of_lt broke.lt) (fun _ => ⟨broke.lt, undelivered⟩) broke.fails
        broke.first begins broke.arrived

theorem fflush_wrote (d : Device) {text : Bytes} (nonempty : text ≠ []) {flushed : Prop}
    (flushes : flushed) :
    Wrote d text flushed (if (andThen (fputs text (opened d)) fflush).1 then 0 else 2)
      (andThen (fputs text (opened d)) fflush).2.fflush.2.delivered := by
  have hflushed := fputs_flushed d nonempty
  generalize andThen (fputs text (opened d)) fflush = r at hflushed
  cases hflushed with
  | @arrived s empty delivered clean =>
      have hagain : s.fflush.2.delivered = text := by
        unfold fflush
        rw [if_pos empty]
        exact delivered
      dsimp only
      rw [hagain]
      exact .whole clean
  | @reported s i le fails first arrived begins =>
      exact .reported le (absurd flushes) fails first
        ((List.prefix_append _ _).trans (fflush_begins begins)) (arrived.trans (fflush_kept s))

theorem put_wrote (d : Device) (sub : Subcommand) {text : Bytes} (nonempty : text ≠ []) :
    Wrote d text (sub = .print) (if (sub.put text (opened d)).1 then 0 else 2)
      (sub.put text (opened d)).2.fflush.2.delivered := by
  unfold Subcommand.put
  by_cases hprint : sub = .print
  · simp only [if_pos hprint]
    exact fflush_wrote d nonempty hprint
  · simp only [if_neg hprint]
    exact fputs_wrote d nonempty hprint

/-! ## Reports -/

/-- The exit code, standard output and standard error of a process that ran `sub` on the file. -/
inductive FileReport (prog : Bytes) (path : Option Bytes) (sub : Subcommand) (file : InputFile)
    (e : Exit d) : Bytes → Prop
  | unread (bad : ¬ file.Readable) (code : e.code = 2) (silent : e.out.delivered = []) :
      FileReport prog path sub file e (unreadText prog path)
  | rejected {st : Status} {off : Nat} (readable : file.Readable)
      (bad : ∀ t, ¬ Accepts file.content t) (verdict : Rejects file.content st off)
      (code : e.code = 1) (silent : e.out.delivered = []) :
      FileReport prog path sub file e (rejectText prog st off)
  | accepted {t : Tree} (readable : file.Readable) (accepts : Accepts file.content t)
      (wrote : Wrote d (sub.text file.content.length t) (sub = .print) e.code e.out.delivered) :
      FileReport prog path sub file e []

/-- Every run of a subcommand ends, and with memory available it reports what happened. -/
theorem runProcess_reports (d : Device) (prog : Bytes) (path : Option Bytes) (sub : Subcommand)
    (file : InputFile) (m : Memory) :
    ∃ e err, runProcess d prog path sub file m = .ok (e, err) ∧
      (e.mem.refused = m.refused → FileReport prog path sub file e err) := by
  obtain ⟨l, hload, hsaid⟩ := load_said prog path file m
  unfold runProcess
  cases hsaid with
  | unreadable bad granted =>
      rw [cmd_unloaded sub hload]
      exact ⟨_, _, rfl, fun _ => .unread bad rfl rfl⟩
  | rejected readable bad verdict granted =>
      rw [cmd_unloaded sub hload]
      exact ⟨_, _, rfl, fun _ => .rejected readable bad verdict rfl rfl⟩
  | nomem refused =>
      rw [cmd_unloaded sub hload]
      exact ⟨_, _, rfl, fun available => absurd available (Nat.ne_of_gt refused)⟩
  | @accepted buf v m₁ readable whole accepts sound granted =>
      obtain ⟨encodes, -, -, -⟩ := accepts.encodes
      obtain ⟨e, said, hcmd, hdone⟩ := cmd_loaded sub hload readable whole encodes
        (sound.fits _ v) (opened d)
      rw [hcmd]
      refine ⟨_, _, rfl, fun available => ?_⟩
      rcases hdone with refused | ⟨rfl, hcode, hout⟩
      · rw [← granted] at available
        exact absurd available (Nat.ne_of_gt refused)
      · have hwrote := put_wrote d sub
          (sub.text_ne_nil file.content.length (v.tree buf.bufs))
        rw [← hcode, ← hout] at hwrote
        exact .accepted readable accepts hwrote

end Bencode
