import Bencode.Source.Main
import Bencode.Spec.Tree

/-!
# What the subcommands write

The pretty printer puts the rendering of a tree on the stream and stops at the first
error; the statistics depend on the tree only. So every subcommand has one text for
a tree.
-/

namespace Bencode

open OutStream

/-! ## Rendering -/

def escaped (b : UInt8) : Bytes :=
  if b = '\x22'.toUInt8 ∨ b = '\x5c'.toUInt8 then ['\x5c'.toUInt8, b]
  else if 0x20 ≤ b ∧ b < 0x7f then [b]
  else ['\x5c'.toUInt8, 'x'.toUInt8, hexDigit (b.toNat / 16), hexDigit (b.toNat % 16)]

def quoted (bytes : Bytes) : Bytes :=
  '\x22'.toUInt8 :: (bytes.flatMap escaped ++ ['\x22'.toUInt8])

def indentation : Nat → Bytes
  | 0 => []
  | depth + 1 => ascii "  " ++ indentation depth

mutual

def Tree.rendering : Tree → Nat → Bytes
  | .int i, _ => formatInt i
  | .string bytes, _ => quoted bytes
  | .list items, depth =>
      if items.isEmpty then ascii "[]"
      else ascii "[\n" ++ (renderItems items depth ++ (indentation depth ++ [']'.toUInt8]))
  | .dict entries, depth =>
      if entries.isEmpty then ascii "\x7b\x7d"
      else
        ascii "\x7b\n" ++
          (renderEntries entries depth ++ (indentation depth ++ ['\x7d'.toUInt8]))

def renderItems : List Tree → Nat → Bytes
  | [], _ => []
  | t :: ts, depth =>
      indentation (depth + 1) ++ (t.rendering (depth + 1) ++ (separator ts ++ renderItems ts depth))

def renderEntries : List (Bytes × Tree) → Nat → Bytes
  | [], _ => []
  | (k, t) :: es, depth =>
      indentation (depth + 1) ++ (quoted k ++ (ascii ": " ++
        (t.rendering (depth + 1) ++ (separator es ++ renderEntries es depth))))

end

section Printing

variable {d : Device}

theorem printByte_eq (b : UInt8) (out : OutStream d) : printByte b out = fputs (escaped b) out := by
  unfold printByte escaped
  split
  · rfl
  · split
    · rw [fputs_singleton]
    · rfl

theorem printBytes_eq (bytes : Bytes) (out : OutStream d) :
    printBytes bytes out = fputs (bytes.flatMap escaped) out := by
  induction bytes generalizing out with
  | nil => rfl
  | cons b bs ih =>
      rw [printBytes, List.flatMap_cons, fputs_append, printByte_eq]
      congr 1
      exact funext ih

theorem printString_eq (bytes : Bytes) (out : OutStream d) :
    printString bytes out = fputs (quoted bytes) out := by
  unfold printString quoted
  simp only [printBytes_eq, ← fputs_singleton, ← fputs_append]
  rfl

theorem printIndent_eq (depth : Nat) (out : OutStream d) :
    printIndent depth out = fputs (indentation depth) out := by
  induction depth generalizing out with
  | zero => rfl
  | succ depth ih =>
      rw [printIndent, indentation, fputs_append]
      congr 1
      exact funext ih

theorem separator_itemTrees (bufs : Buffers) (vs : List Value) :
    separator (itemTrees bufs vs) = separator vs := by
  cases vs <;> rfl

theorem separator_entryTrees (bufs : Buffers) (es : List (Entry Value)) :
    separator (entryTrees bufs es) = separator es := by
  cases es <;> rfl

mutual

/-- The pretty printer puts the rendering on the stream. -/
theorem printValue_eq (bufs : Buffers) (v : Value) (depth : Nat) (out : OutStream d) :
    printValue bufs v depth out = fputs ((v.tree bufs).rendering depth) out := by
  cases v with
  | int h i => rfl
  | string h str => exact printString_eq _ out
  | list h slots =>
      obtain ⟨block, capacity, items⟩ := slots
      rw [printValue, Value.tree, Tree.rendering]
      cases items with
      | nil => rfl
      | cons w ws =>
          have hitems := printItems_eq bufs (w :: ws) depth
          simp only [hitems, printIndent_eq, ← fputs_singleton, ← fputs_append]
          rfl
  | dict h slots =>
      obtain ⟨block, capacity, entries⟩ := slots
      rw [printValue, Value.tree, Tree.rendering]
      cases entries with
      | nil => rfl
      | cons e es =>
          have hentries := printEntries_eq bufs (e :: es) depth
          simp only [hentries, printIndent_eq, ← fputs_singleton, ← fputs_append]
          rfl

theorem printItems_eq (bufs : Buffers) (vs : List Value) (depth : Nat) (out : OutStream d) :
    printItems bufs vs depth out = fputs (renderItems (itemTrees bufs vs) depth) out := by
  cases vs with
  | nil => rfl
  | cons v vs =>
      have hrest : printItems (d := d) bufs vs depth =
          fputs (renderItems (itemTrees bufs vs) depth) :=
        funext (printItems_eq bufs vs depth)
      rw [printItems, itemTrees, renderItems, separator_itemTrees]
      simp only [printIndent_eq, printValue_eq bufs v (depth + 1), hrest, ← fputs_append]

theorem printEntries_eq (bufs : Buffers) (es : List (Entry Value)) (depth : Nat)
    (out : OutStream d) :
    printEntries bufs es depth out = fputs (renderEntries (entryTrees bufs es) depth) out := by
  cases es with
  | nil => rfl
  | cons e es =>
      obtain ⟨key, v⟩ := e
      have hrest : printEntries (d := d) bufs es depth =
          fputs (renderEntries (entryTrees bufs es) depth) :=
        funext (printEntries_eq bufs es depth)
      rw [printEntries, entryTrees, renderEntries, separator_entryTrees]
      simp only [printIndent_eq, printString_eq, printValue_eq bufs v (depth + 1), hrest,
        ← fputs_append]

end

end Printing

/-! ## Statistics -/

mutual

def Tree.walk : Tree → Stats → Nat → Stats
  | .int _, st, depth => (st.enter depth).addInt
  | .string bytes, st, depth => (st.enter depth).addString bytes.length
  | .list items, st, depth => walkTrees items (st.enter depth).addList depth
  | .dict entries, st, depth => walkPairs entries (st.enter depth).addDict depth

def walkTrees : List Tree → Stats → Nat → Stats
  | [], st, _ => st
  | t :: ts, st, depth => walkTrees ts (t.walk st (depth + 1)) depth

def walkPairs : List (Bytes × Tree) → Stats → Nat → Stats
  | [], st, _ => st
  | (k, t) :: es, st, depth =>
      walkPairs es (t.walk (st.addString k.length) (depth + 1)) depth

end

mutual

theorem walk_eq (bufs : Buffers) (v : Value) (st : Stats) (depth : Nat) :
    walk bufs v st depth = (v.tree bufs).walk st depth := by
  cases v with
  | int h i => rfl
  | string h str => rfl
  | list h slots => exact walkItems_eq bufs slots.items _ depth
  | dict h slots => exact walkEntries_eq bufs slots.items _ depth

theorem walkItems_eq (bufs : Buffers) (vs : List Value) (st : Stats) (depth : Nat) :
    walkItems bufs vs st depth = walkTrees (itemTrees bufs vs) st depth := by
  cases vs with
  | nil => rfl
  | cons v vs =>
      rw [walkItems, itemTrees, walkTrees, walk_eq bufs v, walkItems_eq bufs vs]

theorem walkEntries_eq (bufs : Buffers) (es : List (Entry Value)) (st : Stats) (depth : Nat) :
    walkEntries bufs es st depth = walkPairs (entryTrees bufs es) st depth := by
  cases es with
  | nil => rfl
  | cons e es =>
      obtain ⟨key, v⟩ := e
      have hlen : key.len = key.bytes.length := by cases key <;> rfl
      rw [walkEntries, entryTrees, walkPairs, hlen, walk_eq bufs v, walkEntries_eq bufs es]

end

/-! ## Texts -/

/-- All that a subcommand writes for an input of `n` bytes that stands for the tree. -/
def Subcommand.text : Subcommand → Nat → Tree → Bytes
  | validate, _, _ => ascii "ok\n"
  | print, _, t => t.rendering 0 ++ ['\n'.toUInt8]
  | roundtrip, _, _ => ascii "ok\n"
  | size, n, t => sizeReport n (t.walk .zero 0)

theorem Subcommand.text_ne_nil (sub : Subcommand) (n : Nat) (t : Tree) : sub.text n t ≠ [] := by
  cases sub with
  | validate =>
      show ascii "ok\n" ≠ []
      decide
  | print =>
      show t.rendering 0 ++ ['\n'.toUInt8] ≠ []
      simp
  | roundtrip =>
      show ascii "ok\n" ≠ []
      decide
  | size =>
      have hlabel : ascii "total_string_bytes: " ≠ [] := by decide
      simp [Subcommand.text, sizeReport, sizeLine, hlabel]

end Bencode
