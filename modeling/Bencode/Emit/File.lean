import Bencode.Emit.Pieces

/-!
# Emission to a file

The chunks of an encoding go into a buffered stream, which is flushed at the end. The
emitter reports success exactly when all of the encoding has arrived, and that is when no
write has failed, however the C library cuts the chunks into writes.
-/

namespace Bencode

open Delivery OutStream

variable {d : Device} {plan : WritePlan}

/-- Something was put on the stream, with the writes that were made for it. -/
structure Filed (fp : OutStream d) (text : Bytes) (r : Bool × OutStream d) : Prop where
  puts : Puts fp text r
  made : Made fp.writes r

theorem Filed.refl (fp : OutStream d) : Filed fp [] (true, fp) :=
  ⟨.done (List.append_nil _).symm (List.prefix_refl _), .refl fp⟩

theorem Filed.andThen {fp : OutStream d} {text more : Bytes} {r : Bool × OutStream d}
    {next : OutStream d → Bool × OutStream d} (h : Filed fp text r)
    (hnext : ∀ fp', Filed fp' more (next fp')) :
    Filed fp (text ++ more) (OutStream.andThen r next) :=
  ⟨h.puts.andThen fun fp' => (hnext fp').puts, h.made.andThen fun fp' => (hnext fp').made⟩

theorem Tree.encode_ne_nil (t : Tree) : t.encode ≠ [] := by
  cases t with
  | int i => simp [Tree.encode, encodeInt]
  | string bytes => simp [Tree.encode, encodeString]
  | list items => simp [Tree.encode]
  | dict entries => simp [Tree.encode]

end Bencode
