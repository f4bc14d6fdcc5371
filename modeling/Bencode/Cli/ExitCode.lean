import Bencode.Cli.Subcommands

/-!
# Exit codes

Exit code 2 reports output that was lost, but only `print` flushes standard output before
it decides. The other subcommands report a loss when a write before the last one fails,
and miss it when the write that ends the process does.
-/

namespace Bencode

open OutStream

variable {d : Device} {prog err : Bytes} {path : Option Bytes} {sub : Subcommand}
  {file : InputFile}

/-! ## The contract -/

structure KeepsContract (sub : Subcommand) (file : InputFile) (e : Exit d) : Prop where
  unread : ¬ file.Readable → e.code = 2
  rejected : file.Readable → (∀ t, ¬ Accepts file.content t) → e.code = 1
  undelivered : ∀ t, file.Readable → Accepts file.content t →
    e.out.delivered ≠ sub.text file.content.length t → e.code = 2
  success : e.code = 0 → file.Readable ∧
    ∃ t, Accepts file.content t ∧ e.out.delivered = sub.text file.content.length t

/-- The text of the subcommand, which is not `print`, reaches the buffer without a failing write,
and the write of its last bytes, which only the end of the process makes, fails. -/
structure LostAtExit (d : Device) (sub : Subcommand) (file : InputFile) : Prop where
  unflushed : sub ≠ .print
  readable : file.Readable
  lost : ∃ t, Accepts file.content t ∧
    (∀ i, i < lastWrite d (sub.text file.content.length t).length → d.fails i = none) ∧
    d.fails (lastWrite d (sub.text file.content.length t).length) ≠ none

/-! ## What keeps it -/

theorem lostAtExit_iff {t : Tree} (readable : file.Readable) (accepts : Accepts file.content t)
    (unflushed : sub ≠ .print) :
    LostAtExit d sub file ↔ LastLost d (sub.text file.content.length t) := by
  constructor
  · intro h
    obtain ⟨u, hacc, taken, lost⟩ := h.lost
    rw [accepts.unique hacc]
    exact ⟨taken, lost⟩
  · intro hlost
    exact ⟨unflushed, readable, t, accepts, hlost.taken, hlost.lost⟩

theorem keepsContract_iff {t : Tree} (readable : file.Readable) (accepts : Accepts file.content t)
    (e : Exit d) : KeepsContract sub file e ↔
      (e.out.delivered ≠ sub.text file.content.length t → e.code = 2) ∧
        (e.code = 0 → e.out.delivered = sub.text file.content.length t) := by
  constructor
  · intro h
    refine ⟨h.undelivered t readable accepts, ?_⟩
    intro hzero
    obtain ⟨-, u, hacc, hdelivered⟩ := h.success hzero
    rw [accepts.unique hacc]
    exact hdelivered
  · intro h
    refine ⟨fun hbad => absurd readable hbad, fun _ hbad => absurd accepts (hbad t), ?_,
      fun hzero => ⟨readable, t, accepts, h.2 hzero⟩⟩
    intro u _ hacc hne
    rw [← accepts.unique hacc] at hne
    exact h.1 hne

/-- Only the loss of what the end of the process writes goes unreported. -/
theorem Wrote.told_iff {text part : Bytes} {flushed : Prop} {code : Nat}
    (h : Wrote d text flushed code part) :
    ((part ≠ text → code = 2) ∧ (code = 0 → part = text)) ↔ ¬ (¬ flushed ∧ LastLost d text) := by
  cases h with
  | whole clean =>
      apply iff_of_true
      · exact ⟨fun hne => absurd rfl hne, fun _ => rfl⟩
      · intro hlost
        exact hlost.2.lost (clean _ (Nat.le_refl _))
  | unnoticed unflushed lost short begins arrived =>
      apply iff_of_false
      · intro htold
        exact short (htold.2 rfl)
      · intro hnot
        exact hnot ⟨unflushed, lost⟩
  | reported le before fails first begins arrived =>
      apply iff_of_true
      · exact ⟨fun _ => rfl, fun hzero => by cases hzero⟩
      · intro hlost
        exact fails (hlost.2.taken _ (before hlost.1).1)

theorem FileReport.contract_iff {e : Exit d} (h : FileReport prog path sub file e err) :
    KeepsContract sub file e ↔ ¬ LostAtExit d sub file := by
  cases h with
  | unread bad code silent =>
      apply iff_of_true
      · refine ⟨fun _ => code, fun hread => absurd hread bad, fun t hread => absurd hread bad, ?_⟩
        intro hzero
        rw [hzero] at code
        cases code
      · intro hlost
        exact bad hlost.readable
  | rejected readable bad verdict code silent =>
      apply iff_of_true
      · refine ⟨fun hbad => absurd readable hbad, fun _ _ => code,
          fun t _ hacc => absurd hacc (bad t), ?_⟩
        intro hzero
        rw [hzero] at code
        cases code
      · intro hlost
        obtain ⟨t, hacc, -⟩ := hlost.lost
        exact bad t hacc
  | accepted readable accepts wrote =>
      rw [keepsContract_iff readable accepts, wrote.told_iff, not_iff_not]
      constructor
      · intro hlost
        exact (lostAtExit_iff readable accepts hlost.1).mpr hlost.2
      · intro hlost
        exact ⟨hlost.unflushed, (lostAtExit_iff readable accepts hlost.unflushed).mp hlost⟩

/-- A run of the command line tool, whatever the file holds and whichever writes fail: with memory
available, the exit code is as documented unless text that only the end of the process writes out
is lost, which `validate`, `roundtrip` and `size` do not notice. -/
theorem exit_code_contract (d : Device) (prog : Bytes) (path : Option Bytes) (sub : Subcommand)
    (file : InputFile) (m : Memory) :
    ∃ e err, runProcess d prog path sub file m = .ok (e, err) ∧ (e.mem.refused = m.refused →
      (KeepsContract sub file e ↔ ¬ LostAtExit d sub file)) := by
  obtain ⟨e, err, hrun, hreports⟩ := runProcess_reports d prog path sub file m
  exact ⟨e, err, hrun, fun available => (hreports available).contract_iff⟩

/-- `print` on a device that takes nothing. -/
theorem exit_code_contract_print :
    ∃ e err, runProcess ⟨4096, by decide, fun _ => some 0, false⟩ (ascii "bencode") none .print
        ⟨true, ascii "i0e", false⟩ (.empty fun _ => false) = .ok (e, err) ∧
      KeepsContract .print ⟨true, ascii "i0e", false⟩ e := by
  obtain ⟨e, err, hrun, hcontract⟩ := exit_code_contract
    ⟨4096, by decide, fun _ => some 0, false⟩ (ascii "bencode") none .print
    ⟨true, ascii "i0e", false⟩ (.empty fun _ => false)
  have hrefused : (runProcess ⟨4096, by decide, fun _ => some 0, false⟩ (ascii "bencode") none
      .print ⟨true, ascii "i0e", false⟩ (.empty fun _ => false)).toOption.map
        (·.1.mem.refused) = some 0 := by decide +kernel
  rw [hrun] at hrefused
  exact ⟨e, err, hrun, (hcontract (Option.some.inj hrefused)).mpr fun hlost => hlost.unflushed rfl⟩

/-- `validate` on such a device: nothing arrives, and the exit code is 0. -/
theorem exit_code_lost :
    ∃ e, runProcess ⟨4096, by decide, fun _ => some 0, false⟩ (ascii "bencode") none .validate
        ⟨true, ascii "i0e", false⟩ (.empty fun _ => false) = .ok (e, []) ∧
      e.mem.refused = 0 ∧ e.code = 0 ∧ e.out.delivered = [] ∧
      ¬ KeepsContract .validate ⟨true, ascii "i0e", false⟩ e := by
  have hrun : (runProcess ⟨4096, by decide, fun _ => some 0, false⟩ (ascii "bencode") none
      .validate ⟨true, ascii "i0e", false⟩ (.empty fun _ => false)).toOption.map
        (fun r => (r.1.mem.refused, r.1.code, r.1.out.delivered, r.2)) = some (0, 0, [], []) := by
    decide +kernel
  cases hproc : runProcess ⟨4096, by decide, fun _ => some 0, false⟩ (ascii "bencode") none
      .validate ⟨true, ascii "i0e", false⟩ (.empty fun _ => false) with
  | error f =>
      rw [hproc] at hrun
      cases hrun
  | ok r =>
      obtain ⟨e, err⟩ := r
      rw [hproc] at hrun
      have hvalues := Option.some.inj hrun
      simp only [Prod.mk.injEq] at hvalues
      obtain ⟨hrefused, hcode, hdelivered, rfl⟩ := hvalues
      refine ⟨e, rfl, hrefused, hcode, hdelivered, ?_⟩
      intro hkeeps
      obtain ⟨-, t, -, htext⟩ := hkeeps.success hcode
      rw [hdelivered] at htext
      exact Subcommand.validate.text_ne_nil _ t htext.symm

end Bencode
