import Bencode.Cli.ExitCode
import Bencode.Cli.Memory
import Bencode.Cli.Rendering
import Bencode.Source.Dispatch

/-!
# The process

What the command line asks for decides which subcommand runs on which input, and every
process ends: it gives all memory back, and its exit code, standard output and standard
error tell what has happened.
-/

namespace Bencode

open OutStream

variable {d : Device}

/-! ## Command lines -/

/-- The command lines that ask for a subcommand on a file, or on standard input. -/
inductive Asks : List Bytes → Subcommand → Option Bytes → Prop
  | bare (prog : Bytes) (sub : Subcommand) : Asks [prog, sub.name] sub none
  | file (prog : Bytes) (sub : Subcommand) {path : Bytes} (plain : path ≠ ascii "--") :
      Asks [prog, sub.name, path] sub (some path)
  | dashes (prog : Bytes) (sub : Subcommand) : Asks [prog, sub.name, ascii "--"] sub none
  | behind (prog : Bytes) (sub : Subcommand) (path : Bytes) :
      Asks [prog, sub.name, ascii "--", path] sub (some path)

/-- The command lines that ask for a text about the program, whatever follows. -/
inductive Informs (version : Bytes) : List Bytes → Bytes → Prop
  | help {prog flag : Bytes} (args : List Bytes)
      (asked : flag = ascii "--help" ∨ flag = ascii "-h") :
      Informs version (prog :: flag :: args) (usageText prog)
  | version {prog flag : Bytes} (args : List Bytes)
      (asked : flag = ascii "--version" ∨ flag = ascii "-V") :
      Informs version (prog :: flag :: args) (ascii "bencode " ++ version ++ ascii "\n")

def operands (args : List Bytes) : List Bytes :=
  if args.head? = some (ascii "--") then args.tail else args

def programName (argv : List Bytes) : Bytes := argv.headD (ascii "bencode")

theorem Subcommand.name_injective {sub sub' : Subcommand} (h : sub.name = sub'.name) :
    sub = sub' := by
  revert h
  cases sub <;> cases sub' <;> decide

theorem Subcommand.name_not_flag (sub : Subcommand) :
    ¬ (sub.name = ascii "--help" ∨ sub.name = ascii "-h") ∧
      ¬ (sub.name = ascii "--version" ∨ sub.name = ascii "-V") := by
  cases sub <;> decide

theorem Asks.unique {argv : List Bytes} {sub sub' : Subcommand} {path path' : Option Bytes}
    (h : Asks argv sub path) (h' : Asks argv sub' path') : sub = sub' ∧ path = path' := by
  cases h with
  | bare prog sub =>
      generalize hname : sub.name = name at h'
      cases h'
      exact ⟨Subcommand.name_injective hname, rfl⟩
  | file prog sub plain =>
      generalize hname : sub.name = name at h'
      cases h' with
      | file => exact ⟨Subcommand.name_injective hname, rfl⟩
      | dashes => exact absurd rfl plain
  | dashes prog sub =>
      generalize hname : sub.name = name at h'
      generalize hdash : ascii "--" = dash at h'
      cases h' with
      | file _ _ plain => exact absurd hdash.symm plain
      | dashes => exact ⟨Subcommand.name_injective hname, rfl⟩
  | behind prog sub path =>
      generalize hname : sub.name = name at h'
      generalize hdash : ascii "--" = dash at h'
      cases h'
      exact ⟨Subcommand.name_injective hname, rfl⟩

theorem Asks.operands_eq {argv : List Bytes} {sub : Subcommand} {path : Option Bytes}
    (h : Asks argv sub path) :
    ∃ args, argv = programName argv :: sub.name :: args ∧ operands args = path.toList := by
  cases h with
  | bare prog sub => exact ⟨[], rfl, rfl⟩
  | file prog sub plain => exact ⟨_, rfl, if_neg fun h => plain (Option.some.inj h)⟩
  | dashes prog sub => exact ⟨_, rfl, if_pos rfl⟩
  | behind prog sub path => exact ⟨_, rfl, if_pos rfl⟩

section Main

variable {version : Bytes} {w : World} {argv : List Bytes} {m : Memory}

theorem dispatch_named (sub : Subcommand) (prog : Bytes) {path : Option Bytes} {args : List Bytes}
    (hargs : operands args = path.toList) (out : OutStream d) :
    dispatch w prog sub.name args out m = sub.cmd prog path (openInput w path) out m := by
  have hdistinct : ∀ other : Subcommand, sub.name = other.name ↔ sub = other :=
    fun other => ⟨Subcommand.name_injective, fun h => congrArg _ h⟩
  unfold operands at hargs
  unfold dispatch
  rw [hargs]
  cases path with
  | none => cases sub <;> simp [hdistinct, Subcommand.cmd]
  | some path => cases sub <;> simp [hdistinct, Subcommand.cmd]

theorem main_asks {sub : Subcommand} {path : Option Bytes} (asks : Asks argv sub path) :
    main d version w argv m =
      sub.cmd (programName argv) path (openInput w path) (opened d) m := by
  obtain ⟨args, hargv, hoperands⟩ := asks.operands_eq
  generalize programName argv = prog at hargv
  subst hargv
  obtain ⟨hhelp, hversion⟩ := sub.name_not_flag
  have hmain : main d version w (prog :: sub.name :: args) m =
      dispatch w prog sub.name args (opened d) m := (if_neg hhelp).trans (if_neg hversion)
  exact hmain.trans (dispatch_named sub prog hoperands (opened d))

theorem main_informs {text : Bytes} (informs : Informs version argv text) :
    main d version w argv m =
      .ok (⟨if (fputs text (opened d)).1 then 0 else 2, (fputs text (opened d)).2, m⟩, []) := by
  cases informs with
  | help args asked => exact if_pos asked
  | @version prog flag args asked =>
      have hhelp : ¬ (flag = ascii "--help" ∨ flag = ascii "-h") := by
        rcases asked with rfl | rfl <;> decide
      exact (if_neg hhelp).trans (if_pos asked)

/-- What is said on standard error about a command line that asks for nothing. -/
inductive Malformed : List Bytes → Bytes → Prop
  | nothing : Malformed [] (usageText (ascii "bencode"))
  | bare (prog : Bytes) : Malformed [prog] (usageText prog)
  | extra {prog cmd first extra : Bytes} {args rest : List Bytes}
      (plain : cmd ≠ ascii "--help" ∧ cmd ≠ ascii "-h" ∧ cmd ≠ ascii "--version" ∧ cmd ≠ ascii "-V")
      (many : operands args = first :: extra :: rest) :
      Malformed (prog :: cmd :: args) (extraText prog extra)
  | unknown {prog cmd : Bytes} {args : List Bytes}
      (plain : cmd ≠ ascii "--help" ∧ cmd ≠ ascii "-h" ∧ cmd ≠ ascii "--version" ∧ cmd ≠ ascii "-V")
      (few : (operands args).length ≤ 1) (unnamed : ∀ sub : Subcommand, cmd ≠ sub.name) :
      Malformed (prog :: cmd :: args) (unknownText prog cmd)

theorem operands_ask (prog : Bytes) (sub : Subcommand) (args : List Bytes) :
    (∃ path, Asks (prog :: sub.name :: args) sub path) ∨
      ∃ first extra rest, operands args = first :: extra :: rest := by
  cases args with
  | nil => exact .inl ⟨none, .bare prog sub⟩
  | cons first args =>
      by_cases hdash : first = ascii "--"
      · subst hdash
        cases args with
        | nil => exact .inl ⟨none, .dashes prog sub⟩
        | cons path args =>
            cases args with
            | nil => exact .inl ⟨some path, .behind prog sub path⟩
            | cons extra rest => exact .inr ⟨path, extra, rest, if_pos rfl⟩
      · have hplain : (first :: args).head? ≠ some (ascii "--") :=
          fun h => hdash (Option.some.inj h)
        cases args with
        | nil => exact .inl ⟨some first, .file prog sub hdash⟩
        | cons extra rest => exact .inr ⟨first, extra, rest, if_neg hplain⟩

theorem main_malformed {err : Bytes} (malformed : Malformed argv err) :
    main d version w argv m = .ok (⟨2, opened d, m⟩, err) := by
  have hmain : ∀ {prog cmd : Bytes} (args : List Bytes),
      cmd ≠ ascii "--help" ∧ cmd ≠ ascii "-h" ∧ cmd ≠ ascii "--version" ∧ cmd ≠ ascii "-V" →
      main d version w (prog :: cmd :: args) m = dispatch w prog cmd args (opened d) m := by
    intro prog cmd args plain
    obtain ⟨hhelp, hh, hversion, hV⟩ := plain
    exact (if_neg (not_or.mpr ⟨hhelp, hh⟩)).trans (if_neg (not_or.mpr ⟨hversion, hV⟩))
  cases malformed with
  | nothing => rfl
  | bare prog => rfl
  | @extra prog cmd first extra args rest plain many =>
      unfold operands at many
      rw [hmain args plain]
      unfold dispatch
      rw [many]
  | @unknown prog cmd args plain few unnamed =>
      unfold operands at few
      rw [hmain args plain]
      unfold dispatch
      generalize (if args.head? = some (ascii "--") then args.tail else args) = operands at few
      match operands with
      | [] => simp [unnamed]
      | [_] => simp [unnamed]
      | _ :: _ :: _ =>
          simp only [List.length_cons] at few
          omega

theorem Malformed.unasked {err : Bytes} (h : Malformed argv err) {sub : Subcommand}
    {path : Option Bytes} : ¬ Asks argv sub path := by
  intro asks
  obtain ⟨args, hargv, hoperands⟩ := asks.operands_eq
  have hfew : (operands args).length ≤ 1 := by
    rw [hoperands]
    cases path <;> simp
  cases h with
  | nothing => cases hargv
  | bare prog => cases hargv
  | extra plain many =>
      cases hargv
      simp [many] at hfew
  | unknown plain few unnamed =>
      cases hargv
      exact unnamed sub rfl

theorem Malformed.uninformed {err : Bytes} (h : Malformed argv err) {text : Bytes} :
    ¬ Informs version argv text := by
  intro informs
  cases informs with
  | help args asked =>
      cases h with
      | extra plain many => exact asked.elim plain.1 plain.2.1
      | unknown plain few unnamed => exact asked.elim plain.1 plain.2.1
  | version args asked =>
      cases h with
      | extra plain many => exact asked.elim plain.2.2.1 plain.2.2.2
      | unknown plain few unnamed => exact asked.elim plain.2.2.1 plain.2.2.2

theorem asks_or_malformed (version : Bytes) (argv : List Bytes) :
    (∃ sub path, Asks argv sub path) ∨ (∃ text, Informs version argv text) ∨
      ∃ err, Malformed argv err := by
  match argv with
  | [] => exact .inr (.inr ⟨_, .nothing⟩)
  | [prog] => exact .inr (.inr ⟨_, .bare prog⟩)
  | prog :: cmd :: args =>
      by_cases hhelp : cmd = ascii "--help" ∨ cmd = ascii "-h"
      · exact .inr (.inl ⟨_, .help args hhelp⟩)
      by_cases hversion : cmd = ascii "--version" ∨ cmd = ascii "-V"
      · exact .inr (.inl ⟨_, .version args hversion⟩)
      rw [not_or] at hhelp hversion
      have plain := And.intro hhelp.1 (And.intro hhelp.2 hversion)
      by_cases hnamed : ∃ sub : Subcommand, cmd = sub.name
      · obtain ⟨sub, rfl⟩ := hnamed
        rcases operands_ask prog sub args with ⟨path, asks⟩ | ⟨first, extra, rest, many⟩
        · exact .inl ⟨sub, path, asks⟩
        · exact .inr (.inr ⟨_, .extra plain many⟩)
      · have hunnamed : ∀ sub : Subcommand, cmd ≠ sub.name := fun sub h => hnamed ⟨sub, h⟩
        cases hoperands : operands args with
        | nil => exact .inr (.inr ⟨_, .unknown plain (by simp [hoperands]) hunnamed⟩)
        | cons first rest =>
            cases rest with
            | nil => exact .inr (.inr ⟨_, .unknown plain (by simp [hoperands]) hunnamed⟩)
            | cons extra rest => exact .inr (.inr ⟨_, .extra plain hoperands⟩)

end Main

/-! ## The process -/

/-- What a process tells about what it was asked for: its exit code, standard output and standard
error. -/
inductive ProcessTells (version : Bytes) (w : World) (argv : List Bytes) (e : Exit d)
    (err : Bytes) : Prop
  | reported {sub : Subcommand} {path : Option Bytes} (asks : Asks argv sub path)
      (reports : FileReport (programName argv) path sub (openInput w path) e err)
  | informed {text : Bytes} (informs : Informs version argv text) (silent : err = [])
      (wrote : Wrote d text False e.code e.out.delivered)
  | malformed (unasked : ∀ sub path, ¬ Asks argv sub path)
      (uninformed : ∀ text, ¬ Informs version argv text) (usage : Malformed argv err)
      (code : e.code = 2) (silent : e.out.delivered = [])

theorem Informs.text_ne_nil {version : Bytes} {argv : List Bytes} {text : Bytes}
    (h : Informs version argv text) : text ≠ [] := by
  cases h with
  | help => exact List.append_ne_nil_of_right_ne_nil _ (by decide)
  | version => exact List.append_ne_nil_of_right_ne_nil _ (by decide)

section Process

variable {version : Bytes} {w : World} {argv : List Bytes} {m : Memory}

theorem process_asks {sub : Subcommand} {path : Option Bytes} (asks : Asks argv sub path) :
    process d version w argv m =
      runProcess d (programName argv) path sub (openInput w path) m := by
  unfold process runProcess
  rw [main_asks asks]

theorem runProcess_gives_back {prog err : Bytes} {path : Option Bytes} {sub : Subcommand}
    {file : InputFile} {e : Exit d} (run : runProcess d prog path sub file m = .ok (e, err)) :
    m.Exchange e.mem 0 0 := by
  unfold runProcess at run
  cases hcmd : sub.cmd prog path file (opened d) m with
  | error f =>
      rw [hcmd] at run
      cases run
  | ok r =>
      rw [hcmd] at run
      obtain ⟨e', err'⟩ := r
      cases run
      have hback := cmd_gives_back sub hcmd
      exact hback

end Process

/-- Every process ends. It gives back all the memory it was granted, also when requests are
refused, and when none is it tells what happened. -/
theorem process_tells (d : Device) (version : Bytes) (w : World) (argv : List Bytes)
    (m : Memory) :
    ∃ e err, process d version w argv m = .ok (e, err) ∧ m.Exchange e.mem 0 0 ∧
      (e.mem.refused = m.refused → ProcessTells version w argv e err) := by
  rcases asks_or_malformed version argv with
    ⟨sub, path, asks⟩ | ⟨text, informs⟩ | ⟨err, malformed⟩
  · obtain ⟨e, err, hrun, hreports⟩ :=
      runProcess_reports d (programName argv) path sub (openInput w path) m
    refine ⟨e, err, (process_asks asks).trans hrun, runProcess_gives_back hrun, ?_⟩
    intro available
    exact .reported asks (hreports available)
  · unfold process
    rw [main_informs informs]
    refine ⟨_, _, rfl, .refl m, fun _ => ?_⟩
    exact .informed informs rfl (fputs_wrote d informs.text_ne_nil not_false)
  · unfold process
    rw [main_malformed malformed]
    refine ⟨_, _, rfl, .refl m, fun _ => ?_⟩
    exact .malformed (fun _ _ => malformed.unasked) (fun _ => malformed.uninformed) malformed
      rfl rfl

/-! ## What can be told apart -/

theorem statusString_code :
    PrefixCode.IsPrefixCode fun st => bencodeStatusString st ++ ascii " at byte offset " := by
  apply PrefixCode.isPrefixCode_of_free
  intro st st'
  cases st <;> cases st' <;> decide

theorem rejectText_injective {prog : Bytes} {st st' : Status} {off off' : Nat}
    (h : rejectText prog st off = rejectText prog st' off') : st = st' ∧ off = off' := by
  unfold rejectText at h
  simp only [List.append_assoc, List.append_cancel_left_eq] at h
  rw [← List.append_assoc, ← List.append_assoc (bencodeStatusString st')] at h
  obtain ⟨hst, hrest⟩ := statusString_code h
  exact ⟨hst, (formatNat_cancel (by decide) (by decide) hrest).1⟩

section Reported

variable {prog err : Bytes} {path : Option Bytes} {sub : Subcommand} {file : InputFile} {e : Exit d}

theorem FileReport.printed (h : FileReport prog path .print file e err) (hzero : e.code = 0) :
    ∃ t, Accepts file.content t ∧ e.out.delivered = t.rendering 0 ++ ['\n'.toUInt8] := by
  cases h with
  | unread bad code silent =>
      rw [hzero] at code
      cases code
  | rejected readable bad verdict code silent =>
      rw [hzero] at code
      cases code
  | accepted readable accepts wrote =>
      generalize e.out.delivered = part at wrote ⊢
      rw [hzero] at wrote
      cases wrote with
      | whole clean => exact ⟨_, accepts, rfl⟩
      | unnoticed unflushed => exact absurd rfl unflushed

theorem FileReport.verdict (h : FileReport prog path sub file e err) (hone : e.code = 1) :
    ∃ st off, Rejects file.content st off ∧ err = rejectText prog st off := by
  cases h with
  | unread bad code silent =>
      rw [hone] at code
      cases code
  | rejected readable bad verdict code silent => exact ⟨_, _, verdict, rfl⟩
  | accepted readable accepts wrote =>
      rw [hone] at wrote
      cases wrote

end Reported

theorem process_reports {version : Bytes} {w : World} {argv : List Bytes} {m : Memory}
    {sub : Subcommand} {path : Option Bytes} {e : Exit d} {err : Bytes} (asks : Asks argv sub path)
    (run : process d version w argv m = .ok (e, err)) (available : e.mem.refused = m.refused) :
    FileReport (programName argv) path sub (openInput w path) e err := by
  obtain ⟨e', err', hrun, hreports⟩ :=
    runProcess_reports d (programName argv) path sub (openInput w path) m
  rw [process_asks asks, hrun] at run
  cases run
  exact hreports available

/-- Two processes that answer the same command line alike, with exit code 0 or 1. The input of
`print` is the same if it was accepted, and a rejected input is rejected for the same reason at the
same offset. -/
theorem process_informative {d d' : Device} {version : Bytes} {w w' : World} {argv : List Bytes}
    {m m' : Memory} {sub : Subcommand} {path : Option Bytes} {e : Exit d} {e' : Exit d'}
    {err err' : Bytes} (asks : Asks argv sub path)
    (run : process d version w argv m = .ok (e, err))
    (run' : process d' version w' argv m' = .ok (e', err'))
    (available : e.mem.refused = m.refused) (available' : e'.mem.refused = m'.refused)
    (code : e.code = e'.code) (delivered : e.out.delivered = e'.out.delivered)
    (said : err = err') :
    (e.code = 0 → sub = .print → (openInput w path).content = (openInput w' path).content) ∧
      (e.code = 1 → ∃ st off, Rejects (openInput w path).content st off ∧
        Rejects (openInput w' path).content st off) := by
  have hreports := process_reports asks run available
  have hreports' := process_reports asks run' available'
  constructor
  · intro hzero hprint
    subst hprint
    obtain ⟨t, hacc, htext⟩ := hreports.printed hzero
    obtain ⟨u, hacc', htext'⟩ := hreports'.printed (code ▸ hzero)
    have hsame : t.rendering 0 = u.rendering 0 := by
      rw [htext, htext'] at delivered
      exact List.append_cancel_right delivered
    have htree := rendering_injective hsame
    rw [← hacc.encodes.1, ← hacc'.encodes.1, htree]
  · intro hone
    obtain ⟨st, off, hverdict, hsaid⟩ := hreports.verdict hone
    obtain ⟨st', off', hverdict', hsaid'⟩ := hreports'.verdict (code ▸ hone)
    rw [hsaid, hsaid'] at said
    obtain ⟨rfl, rfl⟩ := rejectText_injective said
    exact ⟨st, off, hverdict, hverdict'⟩

/-- Two integers with a leading zero on standard input. -/
theorem process_informative_zero :
    ∃ st off, Rejects (ascii "i01e") st off ∧ Rejects (ascii "i02e") st off := by
  have hend : ∀ content : Bytes, content = ascii "i01e" ∨ content = ascii "i02e" →
      (process ⟨4096, by decide, fun _ => none, false⟩ (ascii "1.0.0")
        ⟨content, false, fun _ => ⟨false, [], false⟩⟩ [ascii "bencode", ascii "validate"]
        (.empty fun _ => false)).toOption.map
          (fun r => (r.1.code, r.1.mem.refused, r.1.out.delivered, r.2)) =
        some (1, 0, [], rejectText (ascii "bencode") .errIntegerFormat 2) := by
    rintro content (rfl | rfl)
    · decide +kernel
    · decide +kernel
  have hrun : ∀ content : Bytes, content = ascii "i01e" ∨ content = ascii "i02e" →
      ∃ e : Exit ⟨4096, by decide, fun _ => none, false⟩,
      process ⟨4096, by decide, fun _ => none, false⟩ (ascii "1.0.0")
        ⟨content, false, fun _ => ⟨false, [], false⟩⟩ [ascii "bencode", ascii "validate"]
        (.empty fun _ => false) =
          .ok (e, rejectText (ascii "bencode") .errIntegerFormat 2) ∧
      e.code = 1 ∧ e.mem.refused = 0 ∧ e.out.delivered = [] := by
    intro content hcontent
    have hvalues := hend content hcontent
    cases hproc : process ⟨4096, by decide, fun _ => none, false⟩ (ascii "1.0.0")
        ⟨content, false, fun _ => ⟨false, [], false⟩⟩ [ascii "bencode", ascii "validate"]
        (.empty fun _ => false) with
    | error f =>
        rw [hproc] at hvalues
        cases hvalues
    | ok r =>
        obtain ⟨e, err⟩ := r
        rw [hproc] at hvalues
        have hsome := Option.some.inj hvalues
        simp only [Prod.mk.injEq] at hsome
        obtain ⟨hcode, hrefused, hdelivered, hsaid⟩ := hsome
        exact ⟨e, by rw [hsaid], hcode, hrefused, hdelivered⟩
  obtain ⟨e, hproc, hcode, hrefused, hdelivered⟩ := hrun (ascii "i01e") (.inl rfl)
  obtain ⟨e', hproc', hcode', hrefused', hdelivered'⟩ := hrun (ascii "i02e") (.inr rfl)
  exact (process_informative (.bare (ascii "bencode") .validate) hproc hproc' hrefused hrefused'
    (hcode.trans hcode'.symm) (hdelivered.trans hdelivered'.symm) rfl).2 hcode

end Bencode
