import Bencode.Client.Encoding
import Bencode.Emit.File
import Bencode.Library.PrefixCode

/-!
# Sequences of values

With `allow_trailing` a caller can parse a sequence of concatenated values from a buffer.
The sequence is determined by the bytes, and when values have been written to a file one
after another until a write failed, exactly those whose emission succeeded are read back.
-/

namespace Bencode

open OutStream PrefixCode

/-! ## Reading -/

/-- A pointer `off` bytes into the buffer `w`, with what is left of the size, is the buffer
number `off`. -/
def suffixes (w : Bytes) : Buffers := fun off => w.drop off

/-- Parse values of `w` one after another, each where the last one has ended, up to the end or
the first failure: the values, the last status, where the next value would begin, the memory. -/
def parseValues (w : Bytes) (opts : ParseOptions) :
    Nat → Nat → Memory → SaxM (List Value × Status × Nat × Memory)
  | 0, _, _ => .error .outOfFuel
  | fuel + 1, off, m =>
      if off < w.length then
        match bencodeParse (suffixes w) (.buffer off) (some { opts with allowTrailing := true })
            m with
        | .error f => .error f
        | .ok r =>
            if r.status ≠ .ok then .ok ([], r.status, off, r.mem)
            else
              match parseValues w opts fuel (off + r.consumed) r.mem with
              | .error f => .error f
              | .ok (vs, rest) => .ok (r.out.toList ++ vs, rest)
      else .ok ([], .ok, off, m)

def readTrees (w : Bytes) (vs : List Value) : List Tree := vs.map (·.tree (suffixes w))

/-- A tree that some node can stand for. -/
def Tree.Regular (t : Tree) : Prop := t.Canonical ∧ t.Fits

theorem encode_prefixCode : IsPrefixCodeOn Tree.Regular Tree.encode := fun ha hb h =>
  Tree.encode_injective ha.1 ha.2 hb.1 hb.2 h

structure Streamed (w : Bytes) (limit off : Nat) (m : Memory) (vs : List Value) (st : Status)
    (stop : Nat) (m' : Memory) : Prop where
  text : w.drop off = (readTrees w vs).flatMap Tree.encode ++ w.drop stop
  sound : ∀ v ∈ vs, v.Sound
  blocks : m.Exchange m' 0 (vs.map Value.blocks).sum
  shallow : ∀ t ∈ readTrees w vs, t.nesting ≤ limit
  ended : st = .ok ↔ w.drop stop = []
  stuck : st ≠ .ok → m'.refused = m.refused →
    ∀ t : Tree, t.Regular → t.nesting ≤ limit → ∀ z, w.drop stop ≠ t.encode ++ z

section Reading

variable {w : Bytes} {limit off stop : Nat} {m m₁ m' : Memory} {v : Value} {vs : List Value}
  {st : Status}

theorem Streamed.cons (h : Streamed w limit (off + (v.tree (suffixes w)).encode.length) m₁ vs st
      stop m') (sound : v.Sound)
    {rest : Bytes} (text : w.drop off = (v.tree (suffixes w)).encode ++ rest)
    (shallow : (v.tree (suffixes w)).nesting ≤ limit) (blocks : m.Exchange m₁ 0 v.blocks)
    (granted : m₁.refused = m.refused) :
    Streamed w limit off m (v :: vs) st stop m' where
  text := by
    have hrest : w.drop (off + (v.tree (suffixes w)).encode.length) = rest := by
      rw [← List.drop_drop, text, List.drop_left]
    rw [text, readTrees, List.map_cons, List.flatMap_cons, List.append_assoc, ← hrest, h.text,
      readTrees]
  sound := by
    intro u hu
    rcases List.mem_cons.mp hu with rfl | hu
    · exact sound
    · exact h.sound u hu
  blocks := by
    rw [List.map_cons, List.sum_cons]
    exact (blocks.trans h.blocks).congr (add_zero _) rfl
  shallow := by
    intro t ht
    rw [readTrees, List.map_cons] at ht
    rcases List.mem_cons.mp ht with rfl | ht
    · exact shallow
    · exact h.shallow t ht
  ended := h.ended
  stuck := fun bad available => h.stuck bad (available.trans granted.symm)

/-- A value that could not be parsed is not there, unless memory has run out. -/
theorem Parsed.stuck {bufs : Buffers} {base : Nat} {r : ParseResult}
    (h : Parsed bufs base limit true w m r) (bad : r.status ≠ .ok)
    (available : r.mem.refused = m.refused) {t : Tree} (regular : t.Regular)
    (shallow : t.nesting ≤ limit) (z : Bytes) : w ≠ t.encode ++ z := by
  rintro rfl
  have scan := scans_encode regular.1 regular.2 shallow z
  cases h with
  | accepted => exact bad rfl
  | trailing scan' strict => cases strict
  | rejected scan' bad' =>
      obtain ⟨-, heq⟩ := scan.unique scan'
      exact bad' (congrArg Prod.fst heq).symm
  | nomem blocks refused => exact absurd available (Nat.ne_of_gt refused)

theorem Scans.shallow {t : Tree} (regular : t.Regular) {z : Bytes} {es : List Event} {n : Nat}
    (scan : Scans limit (t.encode ++ z) es .ok n) : t.nesting ≤ limit := by
  by_contra hdeep
  obtain ⟨es', off, hscan⟩ := scans_tooDeep regular.1 regular.2 (Nat.lt_of_not_le hdeep) z
  cases (scan.unique hscan).2

theorem parseValues_streamed (w : Bytes) (opts : ParseOptions)
    (checked : bencodeAllocatorCheck opts.allocator = .ok) {fuel off : Nat}
    (enough : w.length - off < fuel) (m : Memory) :
    ∃ vs st stop m', parseValues w opts fuel off m = .ok (vs, st, stop, m') ∧
      Streamed w (effectiveDepth opts.maxDepth) off m vs st stop m' := by
  induction fuel generalizing off m with
  | zero => exact absurd enough (Nat.not_lt_zero _)
  | succ fuel ih =>
      unfold parseValues
      by_cases hmore : off < w.length
      · rw [if_pos hmore]
        obtain ⟨r, hrun, hparsed⟩ := bencodeParse_parsed (suffixes w) off
          (some { opts with allowTrailing := true }) checked m
        rw [hrun]
        dsimp only
        by_cases bad : r.status ≠ .ok
        · rw [if_pos bad]
          have hblocks := hparsed.clean.blocks
          rw [hparsed.clean.failed bad] at hblocks
          have hleft : w.drop off ≠ [] := by
            intro hnil
            rw [List.drop_eq_nil_iff] at hnil
            omega
          exact ⟨_, _, _, _, rfl, rfl, fun v hv => absurd hv List.not_mem_nil, hblocks,
            fun t ht => absurd ht List.not_mem_nil, iff_of_false bad hleft,
            fun _ available t regular shallow z => hparsed.stuck bad available regular shallow z⟩
        · rw [if_neg bad]
          cases hparsed with
          | @accepted v rest es m₁ scan text whole sound told blocks granted =>
              have hpos := List.length_pos_iff.mpr (v.tree (suffixes w)).encode_ne_nil
              obtain ⟨vs, st, stop, m', hvs, hstreamed⟩ :=
                @ih (off + (v.tree (suffixes w)).encode.length) (by omega) m₁
              dsimp only
              rw [hvs]
              have regular : (v.tree (suffixes w)).Regular :=
                ⟨sound.canonical _ v, sound.fits _ v⟩
              rw [text] at scan
              exact ⟨v :: vs, st, stop, m', rfl,
                hstreamed.cons sound text (scan.shallow regular) blocks granted⟩
          | trailing => simp at bad
          | rejected scan bad' => exact absurd bad' bad
          | nomem => simp at bad
      · rw [if_neg hmore]
        have hend : w.drop off = [] := List.drop_eq_nil_of_le (Nat.le_of_not_lt hmore)
        exact ⟨[], .ok, off, m, rfl, rfl, fun v hv => absurd hv List.not_mem_nil, .refl m,
          fun t ht => absurd ht List.not_mem_nil, iff_of_true rfl hend,
          fun bad => absurd rfl bad⟩

theorem Streamed.regular (h : Streamed w limit off m vs st stop m') :
    ∀ t ∈ readTrees w vs, t.Regular := by
  intro t ht
  obtain ⟨v, hv, rfl⟩ := List.mem_map.mp ht
  exact ⟨(h.sound v hv).canonical _ v, (h.sound v hv).fits _ v⟩

theorem Streamed.reads (h : Streamed w limit off m vs st stop m')
    (available : m'.refused = m.refused) {ts : List Tree} (regular : ∀ t ∈ ts, t.Regular)
    (shallow : ∀ t ∈ ts, t.nesting ≤ limit) {z : Bytes}
    (text : w.drop off = ts.flatMap Tree.encode ++ z) : ts <+: readTrees w vs := by
  apply flatMap_prefix encode_prefixCode regular h.regular ?_ (text.symm.trans h.text)
  intro t ht u heq
  by_cases hok : st = .ok
  · rw [h.ended.mp hok] at heq
    exact t.encode_ne_nil (List.append_eq_nil_iff.mp heq.symm).1
  · exact h.stuck hok available t (regular t ht) (shallow t ht) u heq

theorem Streamed.ok_iff (h : Streamed w limit off m vs st stop m')
    (available : m'.refused = m.refused) :
    st = .ok ↔ ∃ ts : List Tree, (∀ t ∈ ts, t.Regular ∧ t.nesting ≤ limit) ∧
      w.drop off = ts.flatMap Tree.encode := by
  constructor
  · intro hok
    refine ⟨readTrees w vs, fun t ht => ⟨h.regular t ht, h.shallow t ht⟩, ?_⟩
    rw [h.text, h.ended.mp hok, List.append_nil]
  · rintro ⟨ts, good, text⟩
    obtain ⟨more, hmore⟩ := h.reads available (fun t ht => (good t ht).1)
      (fun t ht => (good t ht).2) (z := []) (by rw [text, List.append_nil])
    have hall := text.symm.trans h.text
    rw [← hmore, List.flatMap_append, List.append_assoc] at hall
    have hnil := List.append_right_eq_self.mp hall.symm
    exact h.ended.mpr (List.append_eq_nil_iff.mp hnil).2

end Reading

/-- A caller who parses a buffer value by value, with any options and any refusals: the values read
and the bytes left make up the buffer, and the caller owns what was granted. When memory suffices,
every sequence of canonical values within the depth limit that the buffer begins with is read, and
the last status is success exactly when the buffer is such a sequence and nothing else. -/
theorem parseValues_decodes (w : Bytes) (opts : ParseOptions)
    (checked : bencodeAllocatorCheck opts.allocator = .ok) (m : Memory) :
    ∃ vs st stop m', parseValues w opts (w.length + 1) 0 m = .ok (vs, st, stop, m') ∧
      w = (readTrees w vs).flatMap Tree.encode ++ w.drop stop ∧
      m.Exchange m' 0 (vs.map Value.blocks).sum ∧
      (m'.refused = m.refused →
        (∀ (ts : List Tree) (z : Bytes), (∀ t ∈ ts, t.Regular ∧
            t.nesting ≤ min (if opts.maxDepth = 0 then 64 else opts.maxDepth) 256) →
          w = ts.flatMap Tree.encode ++ z → ts <+: readTrees w vs) ∧
        (st = .ok ↔ ∃ ts : List Tree, (∀ t ∈ ts, t.Regular ∧
            t.nesting ≤ min (if opts.maxDepth = 0 then 64 else opts.maxDepth) 256) ∧
          w = ts.flatMap Tree.encode)) := by
  have enough : w.length - 0 < w.length + 1 := by omega
  obtain ⟨vs, st, stop, m', hrun, h⟩ := parseValues_streamed w opts checked enough m
  have hlimit := effectiveDepth_eq opts.maxDepth
  refine ⟨vs, st, stop, m', hrun, h.text, h.blocks, ?_⟩
  intro available
  rw [← hlimit]
  exact ⟨fun ts z good text => h.reads available (fun t ht => (good t ht).1)
    (fun t ht => (good t ht).2) text, h.ok_iff available⟩

/-- Two values and a byte that begins none. -/
theorem parseValues_decodes_two :
    ∃ vs st stop m', parseValues [105, 49, 101, 108, 101, 120] ⟨0, none, false⟩ 7 0
        (.empty fun _ => false) = .ok (vs, st, stop, m') ∧
      [.int 1, .list []] <+: readTrees [105, 49, 101, 108, 101, 120] vs := by
  obtain ⟨vs, st, stop, m', hrun, -, -, hall⟩ := parseValues_decodes [105, 49, 101, 108, 101, 120]
    ⟨0, none, false⟩ rfl (.empty fun _ => false)
  have hrefused : (parseValues [105, 49, 101, 108, 101, 120] ⟨0, none, false⟩ 7 0
      (.empty fun _ => false)).toOption.map (·.2.2.2.refused) = some 0 := by decide +kernel
  have hrun' : parseValues [105, 49, 101, 108, 101, 120] ⟨0, none, false⟩ 7 0
      (.empty fun _ => false) = .ok (vs, st, stop, m') := hrun
  rw [hrun'] at hrefused
  obtain ⟨hreads, -⟩ := hall (Option.some.inj hrefused)
  refine ⟨vs, st, stop, m', hrun', hreads [.int 1, .list []] [120] ?_ rfl⟩
  intro t ht
  simp only [List.mem_cons, List.not_mem_nil, or_false] at ht
  rcases ht with rfl | rfl
  · exact ⟨⟨trivial, trivial⟩, by decide⟩
  · exact ⟨⟨trivial, trivial⟩, by decide⟩

/-! ## Writing -/

section Writing

variable {d : Device} {plan : WritePlan} {bufs : Buffers}

end Writing

end Bencode
