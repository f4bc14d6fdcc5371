import Bencode.Dom.Run
import Bencode.Value.Zipper

/-!
# Whole runs of a client

A client owns trees and calls the library in any order: builders, clones, parses,
appends, sets and frees, each with any allocator and any refusals. What it may not do
is give away a tree it does not own, or put a tree into itself.
-/

namespace Bencode

/-- The trees the caller owns, and the memory of the process. -/
structure Client where
  roots : Multiset Value
  mem : Memory

namespace Client

/-- A node that the caller can point at through one of its trees. -/
def Holds (c : Client) (v : Value) : Prop := ∃ root ∈ c.roots, root.find? v.self = some v

def receive (roots : Multiset Value) : Status × Option Value × Memory → Client
  | (_, none, m) => ⟨roots, m⟩
  | (_, some v, m) => ⟨v ::ₘ roots, m⟩

def store (root : Value) (p : MemBlock) : Option Value → Value
  | none => root
  | some v => Value.replace p v root

/-- After `child` was offered to the container at `p` in `root`: the caller gives it away when
the call has succeeded. -/
def handOver (child root : Value) (rest : Multiset Value) (p : MemBlock) :
    Status × Option Value × Memory → Client
  | (st, out, m) =>
      ⟨if st = .ok then store root p out ::ₘ rest else child ::ₘ store root p out ::ₘ rest, m⟩

end Client

open Client

/-- One call. The child of `listAppend` and `dictSet` is a tree of its own, apart from the tree
that holds the container. -/
inductive ClientStep : Client → Client → Prop
  | intNew (c : Client) (i : Int64) (a : AllocRef) :
      ClientStep c (receive c.roots (bencodeIntNew i a c.mem))
  | stringNew (c : Client) (bytes : Span) (a : AllocRef) :
      ClientStep c (receive c.roots (bencodeStringNew bytes a c.mem))
  | listNew (c : Client) (a : AllocRef) : ClientStep c (receive c.roots (bencodeListNew a c.mem))
  | dictNew (c : Client) (a : AllocRef) : ClientStep c (receive c.roots (bencodeDictNew a c.mem))
  | clone (c : Client) (bufs : Buffers) (source : Option Value) (a : AllocRef)
      (held : ∀ v, source = some v → c.Holds v) :
      ClientStep c (receive c.roots (bencodeValueClone bufs source a c.mem))
  | parse (c : Client) (bufs : Buffers) (input : InputArg) (opts : Option ParseOptions)
      (r : ParseResult) (run : bencodeParse bufs input opts c.mem = .ok r) :
      ClientStep c (receive c.roots (r.status, r.out, r.mem))
  | listAppend {child root list : Value} {p : MemBlock} (rest : Multiset Value) (m : Memory)
      (found : root.find? p = some list) :
      ClientStep ⟨child ::ₘ root ::ₘ rest, m⟩
        (handOver child root rest p (bencodeListAppend (some list) (some child) m))
  | dictSet {child root dict : Value} {p : MemBlock} (rest : Multiset Value) (m : Memory)
      (key : Span) (found : root.find? p = some dict) :
      ClientStep ⟨child ::ₘ root ::ₘ rest, m⟩
        (handOver child root rest p (bencodeDictSet (some dict) key (some child) m))
  | listAppendNull (c : Client) (list child : Option Value) (null : list = none ∨ child = none) :
      ClientStep c ⟨c.roots, (bencodeListAppend list child c.mem).2.2⟩
  | dictSetNull (c : Client) (dict : Option Value) (key : Span) (child : Option Value)
      (null : dict = none ∨ child = none) :
      ClientStep c ⟨c.roots, (bencodeDictSet dict key child c.mem).2.2⟩
  | valueFree (root : Value) (rest : Multiset Value) (m : Memory) :
      ClientStep ⟨root ::ₘ rest, m⟩ ⟨rest, bencodeValueFree (some root) m⟩
  | valueFreeNull (c : Client) : ClientStep c ⟨c.roots, bencodeValueFree none c.mem⟩

/-- The clients that any sequence of calls can lead to, from no trees and the memory `m`. -/
def Reachable (m : Memory) (c : Client) : Prop := Relation.ReflTransGen ClientStep ⟨0, m⟩ c

/-! ## The invariant -/

/-- The caller's trees are sound and own together exactly what was granted since `m`. -/
structure Consistent (m : Memory) (c : Client) : Prop where
  sound : ∀ v ∈ c.roots, v.Sound
  blocks : m.Exchange c.mem 0 (c.roots.map Value.blocks).sum

namespace Consistent

variable {m : Memory} {c : Client}

theorem start (m : Memory) : Consistent m ⟨0, m⟩ where
  sound := fun _ h => absurd h (Multiset.notMem_zero _)
  blocks := .refl m

theorem live (h : Consistent m c) : (c.roots.map Value.blocks).sum ≤ c.mem.live :=
  h.blocks.came_live (Multiset.zero_le _)

/-- The trees of a client share no blocks, neither with each other nor within one tree. -/
theorem nodup (h : Consistent m c) : (c.roots.map Value.blocks).sum.Nodup :=
  Multiset.nodup_of_le h.live c.mem.nodup

theorem root_le {root : Value} {roots : Multiset Value} (hroot : root ∈ roots) :
    root.blocks ≤ (roots.map Value.blocks).sum := by
  obtain ⟨rest, hrest⟩ := Multiset.exists_cons_of_mem hroot
  rw [hrest, Multiset.map_cons, Multiset.sum_cons]
  exact Multiset.le_add_right _ _

theorem root_nodup (h : Consistent m c) {root : Value} (hroot : root ∈ c.roots) :
    root.blocks.Nodup := Multiset.nodup_of_le (root_le hroot) h.nodup

theorem sound_of_holds (h : Consistent m c) {v : Value} (held : c.Holds v) : v.Sound := by
  obtain ⟨root, hroot, hfound⟩ := held
  obtain ⟨-, ls, rfl⟩ := root.exists_path hfound
  exact sound_of_plug (h.sound _ hroot)

/-! ## Calls that return a tree -/

theorem receive (h : Consistent m c) {st : Status} {out : Option Value} {m' : Memory}
    (call : CleanCall c.mem st out m') : Consistent m (Client.receive c.roots (st, out, m')) := by
  have hall := h.blocks.trans call.blocks
  rw [add_zero] at hall
  cases out with
  | none =>
      rw [rootBlocks, add_zero] at hall
      exact ⟨h.sound, hall⟩
  | some v =>
      refine ⟨fun w hw => ?_, ?_⟩
      · rcases Multiset.mem_cons.mp hw with rfl | hw
        · exact call.sound w rfl
        · exact h.sound w hw
      · apply hall.congr rfl
        rw [Client.receive, Multiset.map_cons, Multiset.sum_cons, add_comm, rootBlocks]

end Consistent

/-! ## Calls that take a child -/

/-- What offering `child` to the node `old` may do: the changed node owns both, or neither has
changed. -/
inductive Offered (old child : Value) (m : Memory) : Status × Option Value × Memory → Prop
  | taken {new : Value} {m' : Memory} (sound : new.Sound) (header : new.header = old.header)
      (blocks : m.Exchange m' (old.blocks + child.blocks) new.blocks) :
      Offered old child m (.ok, some new, m')
  | kept {st : Status} {m' : Memory} (bad : st ≠ .ok) (blocks : m.Exchange m' 0 0) :
      Offered old child m (st, some old, m')

theorem Attached.offered {old child : Value} {made : Value → Prop} {m m' : Memory} {st : Status}
    {out : Option Value} (h : Attached old child made m st out m') :
    Offered old child m (st, out, m') := by
  cases h with
  | ok sound header content blocks granted => exact .taken sound header blocks
  | nomem blocks refused => exact .kept (by simp) blocks

theorem bencodeListAppend_offered {v child : Value} {m : Memory} (sound : v.Sound)
    (hchild : child.Sound) (live : v.blocks ≤ m.live) :
    Offered v child m (bencodeListAppend (some v) (some child) m) := by
  cases v with
  | list h s =>
      generalize hrun : bencodeListAppend (some (.list h s)) (some child) m = r
      obtain ⟨st, out, m'⟩ := r
      exact ((bencodeListAppend_appended sound hchild hrun).attached sound live).offered
  | int h i => exact .kept (by simp) (.refl m)
  | string h str => exact .kept (by simp) (.refl m)
  | dict h s => exact .kept (by simp) (.refl m)

theorem bencodeDictSet_offered {v child : Value} {m : Memory} (key : Span) (sound : v.Sound)
    (hchild : child.Sound) (live : v.blocks ≤ m.live) :
    Offered v child m (bencodeDictSet (some v) key (some child) m) := by
  cases v with
  | dict h s =>
      by_cases hkey : key.isBad = true
      · rw [bencodeDictSet, if_pos hkey]
        exact .kept (by simp) (.refl m)
      · rw [Bool.not_eq_true] at hkey
        generalize hrun : bencodeDictSet (some (.dict h s)) key (some child) m = r
        obtain ⟨st, out, m'⟩ := r
        have hset := bencodeDictSet_wasSet (sound_dict_iff.mp sound).1 hkey hrun
        exact (hset.attached sound hchild live).offered
  | int h i => exact .kept (by simp) (.refl m)
  | string h str => exact .kept (by simp) (.refl m)
  | list h s => exact .kept (by simp) (.refl m)

theorem bencodeListAppend_null {list child : Option Value} (null : list = none ∨ child = none)
    (m : Memory) : bencodeListAppend list child m = (.errInvalidArg, list, m) := by
  rcases null with rfl | rfl
  · rfl
  · cases list with
    | none => rfl
    | some v => cases v <;> rfl

theorem bencodeDictSet_null {dict child : Option Value} (key : Span)
    (null : dict = none ∨ child = none) (m : Memory) :
    bencodeDictSet dict key child m = (.errInvalidArg, dict, m) := by
  rcases null with rfl | rfl
  · rfl
  · cases dict with
    | none => rfl
    | some v => cases v <;> rfl

namespace Consistent

variable {m : Memory} {c : Client} {child root old : Value} {rest : Multiset Value}
  {p : MemBlock} {m₁ : Memory}

theorem split (h : Consistent m ⟨child ::ₘ root ::ₘ rest, m₁⟩) (found : root.find? p = some old) :
    child.Sound ∧ old.Sound ∧ old.blocks + child.blocks ≤ m₁.live := by
  obtain ⟨-, ls, rfl⟩ := root.exists_path found
  refine ⟨h.sound child (by simp), sound_of_plug (h.sound (plug ls old) (by simp)), ?_⟩
  have hlive := h.live
  simp only [Multiset.map_cons, Multiset.sum_cons, blocks_plug] at hlive
  refine le_trans ?_ hlive
  rw [Multiset.le_iff_exists_add]
  refine ⟨pathBlocks ls + (rest.map Value.blocks).sum, ?_⟩
  abel

theorem handOver (h : Consistent m ⟨child ::ₘ root ::ₘ rest, m₁⟩)
    (found : root.find? p = some old) {r : Status × Option Value × Memory}
    (call : Offered old child m₁ r) : Consistent m (Client.handOver child root rest p r) := by
  have hnodup : root.blocks.Nodup := h.root_nodup (by simp)
  have hblocks := h.blocks
  have hsound := h.sound
  cases call with
  | @taken new m' sound header blocks =>
      obtain ⟨ls, rfl, hstore⟩ := Value.replace_found hnodup found new
      rw [Client.handOver, if_pos rfl, store, hstore]
      refine ⟨fun v hv => ?_, ?_⟩
      · rcases Multiset.mem_cons.mp hv with rfl | hv
        · exact sound_plug (hsound (plug ls old) (by simp)) sound
        · exact hsound v (by simp [hv])
      · apply BlockLedger.Exchange.cancel (old.blocks + child.blocks)
        apply (hblocks.trans blocks).congr rfl
        simp only [Multiset.map_cons, Multiset.sum_cons, blocks_plug]
        abel
  | @kept st m' bad blocks =>
      obtain ⟨ls, rfl, hstore⟩ := Value.replace_found hnodup found old
      rw [Client.handOver, if_neg bad, store, hstore]
      exact ⟨hsound, (hblocks.trans blocks).congr (add_zero _) (add_zero _)⟩

theorem step {c d : Client} (h : Consistent m c) (call : ClientStep c d) : Consistent m d := by
  cases call with
  | intNew c i a => exact h.receive (bencodeIntNew_clean i a c.mem)
  | stringNew c bytes a => exact h.receive (bencodeStringNew_clean bytes a c.mem)
  | listNew c a => exact h.receive (bencodeListNew_clean a c.mem)
  | dictNew c a => exact h.receive (bencodeDictNew_clean a c.mem)
  | clone c bufs source a held => exact h.receive (bencodeValueClone_clean bufs source a c.mem)
  | parse c bufs input opts r run =>
      obtain ⟨r', hrun, hclean⟩ := bencodeParse_clean bufs input opts c.mem
      cases run.symm.trans hrun
      exact h.receive hclean
  | listAppend rest m₁ found =>
      obtain ⟨hchild, hlist, hlive⟩ := h.split found
      exact h.handOver found (bencodeListAppend_offered hlist hchild
        ((Multiset.le_add_right _ _).trans hlive))
  | dictSet rest m₁ key found =>
      obtain ⟨hchild, hdict, hlive⟩ := h.split found
      exact h.handOver found (bencodeDictSet_offered key hdict hchild
        ((Multiset.le_add_right _ _).trans hlive))
  | listAppendNull c list child null =>
      rw [bencodeListAppend_null null]
      exact h
  | dictSetNull c dict key child null =>
      rw [bencodeDictSet_null key null]
      exact h
  | valueFree root rest m₁ =>
      have hlive := (root_le (Multiset.mem_cons_self root rest)).trans h.live
      obtain ⟨hfree, -⟩ := frees_value root (h.sound root (by simp)) m₁ hlive
      refine ⟨fun v hv => h.sound v (by simp [hv]), ?_⟩
      apply BlockLedger.Exchange.cancel root.blocks
      apply (h.blocks.trans hfree).congr rfl
      simp only [Multiset.map_cons, Multiset.sum_cons]
      abel
  | valueFreeNull c => exact h

end Consistent

theorem Reachable.consistent {m : Memory} {c : Client} (h : Reachable m c) : Consistent m c := by
  induction h with
  | refl => exact .start m
  | tail run call ih => exact ih.step call

end Bencode
