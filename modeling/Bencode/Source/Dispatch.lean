import Bencode.Source.Main

/-!
# The command line of `main.c`

The dispatch on the arguments, over what the process finds: standard input and the files.
-/

namespace Bencode

open OutStream

/-! ## Texts -/

def usageText (prog : Bytes) : Bytes :=
  ascii "Usage: " ++ prog ++ ascii " <subcommand> [FILE]\n" ++
    ascii "       " ++ prog ++ ascii " \x7b--help | -h\x7d\n" ++
    ascii "       " ++ prog ++ ascii " \x7b--version | -V\x7d\n" ++
    ascii "\n" ++
    ascii "Subcommands:\n" ++
    ascii "  validate   Verify that FILE contains canonical Bencode.\n" ++
    ascii "  print      Decode and pretty-print FILE in a human-readable form.\n" ++
    ascii "  roundtrip  Decode then re-encode; assert bit-exact match.\n" ++
    ascii "  size       Print structural statistics about FILE.\n" ++
    ascii "\n" ++
    ascii "FILE may be `-` or omitted to read from standard input.\n" ++
    ascii "Exit codes: 0 success; 1 invalid input or roundtrip mismatch; 2 I/O\n" ++
    ascii "or unknown option.\n"

/-! ## Input -/

/-- What the process finds: standard input, which is always open, and the files. -/
structure World where
  stdin : Bytes
  stdinFails : Bool
  files : Bytes → InputFile

def openInput (w : World) (path : Option Bytes) : InputFile :=
  if fromStdin path then ⟨true, w.stdin, w.stdinFails⟩ else w.files (path.getD [])

/-! ## Dispatch -/

def Subcommand.name : Subcommand → Bytes
  | validate => ascii "validate"
  | print => ascii "print"
  | roundtrip => ascii "roundtrip"
  | size => ascii "size"

section Process

variable {d : Device}

def extraText (prog extra : Bytes) : Bytes :=
  prog ++ ascii ": extra argument: " ++ extra ++ ascii "\n" ++ usageText prog

def unknownText (prog cmd : Bytes) : Bytes :=
  prog ++ ascii ": unknown subcommand: " ++ cmd ++ ascii "\n" ++ usageText prog

/-- The body of `main` from the `--` on; `args` are the arguments behind the subcommand. -/
def dispatch (w : World) (prog cmd : Bytes) (args : List Bytes) (out : OutStream d) (m : Memory) :
    Except Fault (Exit d × Bytes) :=
  let args := if args.head? = some (ascii "--") then args.tail else args
  match args with
  | _ :: extra :: _ => .ok (⟨2, out, m⟩, extraText prog extra)
  | _ =>
      let file := args.head?
      if cmd = Subcommand.validate.name then
        cmdValidate prog file (openInput w file) out m
      else if cmd = Subcommand.print.name then cmdPrint prog file (openInput w file) out m
      else if cmd = Subcommand.roundtrip.name then
        cmdRoundtrip prog file (openInput w file) out m
      else if cmd = Subcommand.size.name then cmdSize prog file (openInput w file) out m
      else .ok (⟨2, out, m⟩, unknownText prog cmd)

/-- `version` is the string that the build puts in. -/
def main (d : Device) (version : Bytes) (w : World) (argv : List Bytes) (m : Memory) :
    Except Fault (Exit d × Bytes) :=
  let prog := argv.headD (ascii "bencode")
  let out := opened d
  match argv with
  | _ :: cmd :: args =>
      if cmd = ascii "--help" ∨ cmd = ascii "-h" then
        let r := fputs (usageText prog) out
        .ok (⟨if r.1 then 0 else 2, r.2, m⟩, [])
      else if cmd = ascii "--version" ∨ cmd = ascii "-V" then
        let r := fputs (ascii "bencode " ++ version ++ ascii "\n") out
        .ok (⟨if r.1 then 0 else 2, r.2, m⟩, [])
      else dispatch w prog cmd args out m
  | _ => .ok (⟨2, out, m⟩, usageText prog)

def process (d : Device) (version : Bytes) (w : World) (argv : List Bytes) (m : Memory) :
    Except Fault (Exit d × Bytes) :=
  atExit (main d version w argv m)

end Process

end Bencode
