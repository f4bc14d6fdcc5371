import Bencode.Dom.Shape
import Bencode.Value.Attach

/-!
# Attaching a value to the tree under construction

A value that is attached where the scanner waits for one hangs there, and the memory
of the builder is what its tree owns. A dict entry is always written behind all
others, because the scanner's keys increase.
-/

namespace Bencode

/-! ## Memory of the builder -/

structure Owns (m : Memory) (s : DomState) : Prop where
  checked : bencodeAllocatorCheck s.alloc = .ok
  sound : ∀ v, s.root = some v → v.Sound
  blocks : m.Exchange s.mem 0 (rootBlocks s.root)

theorem Owns.live {m : Memory} {s : DomState} (h : Owns m s) : rootBlocks s.root ≤ s.mem.live :=
  h.blocks.came_live (Multiset.zero_le _)

/-! ## Reaching a container through the root -/

section Reach

variable {s : DomState} {ls : List Layer} {v : Value} {f : DomFrame}

theorem DomState.container?_eq (root : s.root = some (plug ls v))
    (nodup : (plug ls v).blocks.Nodup) (hf : f.container = v.self) : s.container? f = some v := by
  rw [container?, root, hf, Option.bind_some, find?_plug (not_mem_path nodup v.self_mem_blocks),
    Value.find?_self]

theorem DomState.storeContainer_eq (root : s.root = some (plug ls v))
    (nodup : (plug ls v).blocks.Nodup) (hf : f.container = v.self) (new : Value) (m : Memory) :
    s.storeContainer f (some new) m = { s with root := some (plug ls new), mem := m } := by
  rw [storeContainer, root, hf, Option.map_some,
    replace_plug (not_mem_path nodup v.self_mem_blocks), Value.replace_self]

theorem attach_inside {n : Nat} (depth : s.depth = n + 1) (room : n < domFrameCount)
    (found : s.container? (s.frames n) = some v) (value : Option Value) :
    attach s value =
      if bencodeValueType (some v) = .list then
        let r := bencodeListAppend (some v) value s.mem
        (r.1, s.storeContainer (s.frames n) r.2.1 r.2.2)
      else
        let r := bencodeDictSet (some v) (s.frames n).pendingKey value s.mem
        (r.1, (s.storeContainer (s.frames n) r.2.1 r.2.2).setFrame n
          { s.frames n with pendingKey := .null 0, expectingKey := true }) := by
  have hframe : s.frame? n = some (s.frames n) := if_pos room
  rw [attach, if_neg (by omega), depth, Nat.add_sub_cancel, hframe]
  dsimp only
  rw [found]

end Reach

/-! ## What attaching does -/

inductive Placed (bufs : Buffers) (base : Nat) (s : DomState) (stack : List OpenScope)
    (child : Value) (hist : List Event) : Status → DomState → Prop
  | ok {root : Value} {frames : Nat → DomFrame} {m : Memory} (ls : List Layer)
      (hangs : Hangs bufs base stack ls child [] hist
        { s with root := some root, frames := frames, mem := m }) (sound : root.Sound)
      (blocks : s.mem.Exchange m (rootBlocks s.root + child.blocks) root.blocks)
      (granted : m.refused = s.mem.refused) :
      Placed bufs base s stack child hist .ok
        { s with root := some root, frames := frames, mem := m }
  | nomem {frames : Nat → DomFrame} {m : Memory} (blocks : s.mem.Exchange m 0 0)
      (refused : s.mem.refused < m.refused) :
      Placed bufs base s stack child hist .errNomem { s with frames := frames, mem := m }

section Place

variable {bufs : Buffers} {base limit : Nat} {s : DomState} {below : List OpenScope}
  {ls : List Layer} {v child : Value} {hist : List Event}

theorem blocks_plug_attached {m m' : Memory} {old new : Value}
    (h : m.Exchange m' (old.blocks + child.blocks) new.blocks) (ls : List Layer) :
    m.Exchange m' ((plug ls old).blocks + child.blocks) (plug ls new).blocks := by
  refine (h.frame (pathBlocks ls)).congr ?_ ?_
  · rw [blocks_plug]
    abel
  · rw [blocks_plug, add_comm]

theorem attach_list {done : List Tree} (depth : s.depth = below.length + 1)
    (room : below.length < domFrameCount)
    (hangs : Hangs bufs base below ls v (v.openVisits ++ (OpenScope.list done).pending) hist s)
    (holds : ScopeHolds bufs (.list done) v)
    (frame : FrameHolds v (s.frames below.length) (.list done)) (sound : (plug ls v).Sound)
    (live : (plug ls v).blocks + child.blocks ≤ s.mem.live) (hchild : child.Sound) :
    ∃ st s', attach s (some child) = (st, s') ∧
      Placed bufs base s (.list done :: below) child hist st s' := by
  obtain ⟨root, layers, frames, told⟩ := hangs
  have hlive := (Multiset.le_add_right _ _).trans live
  have nodup := Multiset.nodup_of_le hlive s.mem.nodup
  have hcontainer := DomState.container?_eq root nodup frame
  rw [attach_inside depth room hcontainer]
  cases v with
  | int => exact False.elim holds
  | string => exact False.elim holds
  | dict => exact False.elim holds
  | list hd slots =>
      have htype : bencodeValueType (some (Value.list hd slots)) = .list := rfl
      rw [if_pos htype]
      dsimp only
      generalize hrun : bencodeListAppend (some (.list hd slots)) (some child) s.mem = r
      obtain ⟨st, out, m⟩ := r
      have hlist := sound_of_plug sound
      have hvlive : (Value.list hd slots).blocks ≤ s.mem.live := by
        rw [blocks_plug] at hlive
        exact (Multiset.le_add_left _ _).trans hlive
      cases (bencodeListAppend_appended hlist hchild hrun).attached hlist hvlive with
      | nomem blocks refused =>
          refine ⟨_, _, rfl, ?_⟩
          dsimp only
          rw [DomState.storeContainer_eq root nodup frame, ← root]
          exact .nomem blocks refused
      | ok hnew header content blocks granted =>
          obtain ⟨s', rfl, items⟩ := content
          refine ⟨_, _, rfl, ?_⟩
          dsimp only
          rw [DomState.storeContainer_eq root nodup frame]
          have hfill : Value.list hd s' =
              Layer.fill (.list hd s'.block s'.capacity slots.items []) child := by
            rw [Layer.fill, ← items]
          refine .ok (.list hd s'.block s'.capacity slots.items [] :: ls)
            ⟨?_, .cons ⟨holds, rfl⟩ layers, ⟨?_, frames⟩, ?_⟩ (sound_plug sound hnew) ?_ granted
          · rw [plug, ← hfill]
          · rw [← layers.length_eq]
            exact frame
          · simpa [pathVisits, Layer.visits, Value.openVisits, OpenScope.pending] using told
          · rw [root, rootBlocks]
            exact blocks_plug_attached blocks ls

theorem attach_dict {done : List (Bytes × Tree)} {k : Bytes} (depth : s.depth = below.length + 1)
    (room : below.length < domFrameCount)
    (hangs : Hangs bufs base below ls v
      (v.openVisits ++ (OpenScope.dict done (some k)).pending) hist s)
    (holds : ScopeHolds bufs (.dict done (some k)) v)
    (frame : FrameHolds v (s.frames below.length) (.dict done (some k)))
    (above : ∀ l ∈ entryKeys done, l < k) (sound : (plug ls v).Sound)
    (live : (plug ls v).blocks + child.blocks ≤ s.mem.live) (hchild : child.Sound) :
    ∃ st s', attach s (some child) = (st, s') ∧
      Placed bufs base s (.dict done (some k) :: below) child hist st s' := by
  obtain ⟨root, layers, frames, told⟩ := hangs
  obtain ⟨hself, hexpect, hpending⟩ := frame
  have hlive := (Multiset.le_add_right _ _).trans live
  have nodup := Multiset.nodup_of_le hlive s.mem.nodup
  have hcontainer := DomState.container?_eq root nodup hself
  rw [attach_inside depth room hcontainer]
  cases v with
  | int => exact False.elim holds
  | string => exact False.elim holds
  | list => exact False.elim holds
  | dict hd slots =>
      have hkeys : storedKeys slots.items = entryKeys done := by
        rw [← entryKeys_entryTrees bufs, (holds : entryTrees bufs slots.items = done)]
      rw [if_neg (by simp [bencodeValueType]), hpending]
      dsimp only
      generalize hrun :
        bencodeDictSet (some (.dict hd slots)) (.mem k) (some child) s.mem = r
      obtain ⟨st, out, m⟩ := r
      have hdict := sound_of_plug sound
      have hvlive : (Value.dict hd slots).blocks ≤ s.mem.live := by
        rw [blocks_plug] at hlive
        exact (Multiset.le_add_left _ _).trans hlive
      have hset := bencodeDictSet_wasSet (sound_dict_iff.mp hdict).1 rfl hrun
      cases hset.attached hdict hchild hvlive with
      | nomem blocks refused =>
          refine ⟨_, _, rfl, ?_⟩
          dsimp only
          rw [DomState.storeContainer_eq root nodup hself, ← root, DomState.setFrame, if_pos room]
          exact .nomem blocks refused
      | ok hnew header content blocks granted =>
          obtain ⟨s', rfl, items⟩ := content
          obtain ⟨copy, hcopy, items⟩ := items (hkeys ▸ above)
          have hcopy : copy.bytes = k := hcopy
          refine ⟨_, _, rfl, ?_⟩
          dsimp only
          rw [DomState.storeContainer_eq root nodup hself, DomState.setFrame, if_pos room]
          have hfill : Value.dict hd s' =
              Layer.fill (.dict hd s'.block s'.capacity slots.items copy []) child := by
            rw [Layer.fill, ← items]
          refine .ok (.dict hd s'.block s'.capacity slots.items copy [] :: ls)
            ⟨?_, .cons ⟨holds, hcopy, rfl⟩ layers, ⟨?_, ?_⟩, ?_⟩ (sound_plug sound hnew) ?_
            granted
          · rw [plug, ← hfill]
          · rw [← layers.length_eq]
            dsimp only
            rw [Function.update_self]
            exact ⟨hself, rfl, rfl⟩
          · exact frames.update layers.length_eq.ge _
          · simpa [pathVisits, Layer.visits, Value.openVisits, OpenScope.pending, hcopy] using told
          · rw [root, rootBlocks]
            exact blocks_plug_attached blocks ls

/-- Keys that wait for their value are above all keys of their dict. -/
theorem WellOpen.key_above {done : List (Bytes × Tree)} {k : Bytes}
    (h : WellOpen limit (.dict done (some k) :: below)) : ∀ l ∈ entryKeys done, l < k := fun l hl =>
  (List.pairwise_append.mp h.1.1).2.2 l hl k (by simp)

theorem WellOpen.frame_room {o : OpenScope} (h : WellOpen limit (o :: below))
    (cap : limit ≤ internalMaxDepth) : below.length < domFrameCount := by
  have hlen := h.length_le
  rw [List.length_cons] at hlen
  simp only [domFrameCount, internalMaxDepth] at cap ⊢
  omega

/-- Where the scanner waits for a value, one can be attached. -/
theorem attach_placed {stack : List OpenScope} (growing : Growing bufs base s stack none hist)
    (await : Awaits stack) (well : WellOpen limit stack) (cap : limit ≤ internalMaxDepth)
    (sound : ∀ v, s.root = some v → v.Sound)
    (live : rootBlocks s.root + child.blocks ≤ s.mem.live) (hchild : child.Sound) :
    ∃ st s', attach s (some child) = (st, s') ∧ Placed bufs base s stack child hist st s' := by
  cases growing with
  | empty root depth =>
      refine ⟨.ok, { s with root := some child }, by rw [attach, if_pos depth], ?_⟩
      refine .ok [] ⟨rfl, .nil, trivial, .nil⟩ hchild ⟨?_, rfl, Nat.le_refl _⟩ rfl
      rw [root, rootBlocks, zero_add]
  | @inside o below hist v ls depth hangs holds frame =>
      have room := well.frame_room cap
      have hsound := sound _ hangs.root
      rw [hangs.root, rootBlocks] at live
      cases o with
      | list done => exact attach_list depth room hangs holds frame hsound live hchild
      | dict done key =>
          cases key with
          | none => exact False.elim await
          | some k =>
              exact attach_dict depth room hangs holds frame well.key_above hsound live hchild

end Place

end Bencode
