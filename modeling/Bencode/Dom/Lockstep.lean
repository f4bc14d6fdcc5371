import Bencode.Dom.Run
import Bencode.Sax.CallOrder

/-!
# The frames of the builder and the scopes of the parser

Whenever the parser calls the builder back, the builder has a frame for every container the
scanner has open. The parser pushes a scope before it tells that a container begins and pops it
before it tells that one ends, so then the two depths differ by one.
-/

namespace Bencode

open LabelledMachine Delivery

variable {bufs : Buffers} {base limit : Nat} {m : Memory} {s : DomState}
  {stack below : List OpenScope} {hist : List Event}

/-! ## The type of a frame -/

/-- The type of the node that frame `i` points at in the tree under construction. -/
def DomState.frameType (s : DomState) (i : Nat) : ValueType :=
  bencodeValueType (s.container? (s.frames i))

def kindType (isDict : Bool) : ValueType := if isDict then .dict else .list

theorem ScopeHolds.type {o : OpenScope} {v : Value} (h : ScopeHolds bufs o v) :
    bencodeValueType (some v) = kindType o.isDict := by
  cases o <;> cases v <;> first | rfl | exact False.elim h

theorem LayerHolds.type {o : OpenScope} {l : Layer} (h : LayerHolds bufs o l) (v : Value) :
    bencodeValueType (some (l.fill v)) = kindType o.isDict := by
  cases o with
  | list done =>
      cases l with
      | list => rfl
      | dict => exact False.elim h
  | dict done key =>
      cases l with
      | list => cases key <;> exact False.elim h
      | dict => rfl

theorem LayerFrame.container {f : DomFrame} {l : Layer} (h : LayerFrame f l) (v : Value) :
    f.container = (l.fill v).self := by
  cases l with
  | list => exact h
  | dict => exact h.1

/-- No key is left in the frame of a dict that waits for a container in it. -/
theorem LayerFrame.pending {f : DomFrame} {l : Layer} (h : LayerFrame f l) {v : Value}
    (hdict : bencodeValueType (some (l.fill v)) = .dict) : f.pendingKey = .null 0 := by
  cases l with
  | list => cases hdict
  | dict => exact h.2.2

def FramesBelow (s : DomState) : List OpenScope → Prop
  | [] => True
  | o :: below =>
      (s.frameType below.length = kindType o.isDict ∧
        (s.frameType below.length = .dict → (s.frames below.length).pendingKey = .null 0)) ∧
      FramesBelow s below

theorem framesBelow_path {ls : List Layer} {v : Value} (root : s.root = some (plug ls v))
    (nodup : (plug ls v).blocks.Nodup) (layers : List.Forall₂ (LayerHolds bufs) below ls)
    (frames : PathFrames s.frames ls) : FramesBelow s below := by
  induction layers generalizing v with
  | nil => trivial
  | @cons o l below ls hl hls ih =>
      obtain ⟨frame, frames⟩ := frames
      rw [← hls.length_eq] at frame
      have hcontainer := DomState.container?_eq (v := l.fill v) root nodup (frame.container v)
      refine ⟨?_, ih root nodup frames⟩
      rw [DomState.frameType, hcontainer]
      exact ⟨hl.type v, frame.pending⟩

theorem FramesBelow.pending (h : FramesBelow s stack) {i : Nat} (hi : i < stack.length)
    (hdict : s.frameType i = .dict) : (s.frames i).pendingKey = .null 0 := by
  induction stack with
  | nil => cases hi
  | cons o below ih =>
      rcases Nat.lt_succ_iff_lt_or_eq.mp hi with hlt | rfl
      · exact ih h.2 hlt
      · exact h.1.2 hdict

theorem FramesBelow.type (h : FramesBelow s stack) {scopes : Nat → SaxScope}
    (kinds : KindsMatch scopes stack) {i : Nat} (hi : i < stack.length) :
    s.frameType i = kindType (scopes i).isDict := by
  induction stack with
  | nil => cases hi
  | cons o below ih =>
      rcases Nat.lt_succ_iff_lt_or_eq.mp hi with hlt | rfl
      · exact ih h.2 kinds.2 hlt
      · rw [kinds.1]
        exact h.1.1

theorem Builds.frames {o : OpenScope} (h : Builds bufs base m (o :: below) none hist s) :
    s.frameType below.length = kindType o.isDict ∧ FramesBelow s below := by
  have hnodup := Multiset.nodup_of_le h.running.owns.live s.mem.nodup
  obtain ⟨-, growing⟩ := h
  cases growing with
  | inside v ls depth hangs holds frame =>
      rw [hangs.root, rootBlocks] at hnodup
      refine ⟨?_, framesBelow_path hangs.root hnodup hangs.layers hangs.frames⟩
      rw [DomState.frameType, DomState.container?_eq hangs.root hnodup frame.container]
      exact holds.type

theorem Builds.depth_eq (h : Builds bufs base m stack none hist s) : s.depth = stack.length :=
  h.growing.depth_eq

theorem Builds.type (h : Builds bufs base m stack none hist s) {scopes : Nat → SaxScope}
    (kinds : KindsMatch scopes stack) {i : Nat} (hi : i < stack.length) :
    s.frameType i = kindType (scopes i).isDict := by
  cases stack with
  | nil => cases hi
  | cons o below =>
      obtain ⟨top, outer⟩ := h.frames
      rcases Nat.lt_succ_iff_lt_or_eq.mp hi with hlt | rfl
      · exact outer.type kinds.2 hlt
      · rw [kinds.1]
        exact top

theorem Builds.pending (h : Builds bufs base m stack none hist s) {i : Nat}
    (hi : i + 1 < stack.length) (hdict : s.frameType i = .dict) :
    (s.frames i).pendingKey = .null 0 := by
  cases stack with
  | nil => cases hi
  | cons o below => exact h.frames.2.pending (Nat.succ_lt_succ_iff.mp hi) hdict

/-- A dict on top is the innermost container, and its frame knows what is due in it. -/
theorem Builds.top (h : Builds bufs base m stack none hist s) {i : Nat} (hi : s.depth = i + 1)
    (hdict : s.frameType i = .dict) : ∃ done key below, stack = .dict done key :: below ∧
      i = below.length ∧ (s.frames i).expectingKey = key.isNone := by
  rw [h.depth_eq] at hi
  cases stack with
  | nil => cases hi
  | cons o below =>
      rw [List.length_cons, Nat.succ_inj] at hi
      subst hi
      cases o with
      | list done =>
          rw [h.frames.1] at hdict
          cases hdict
      | dict done key =>
          refine ⟨done, key, below, rfl, rfl, ?_⟩
          cases h.growing with
          | inside v ls depth hangs holds frame =>
              cases key with
              | none => exact frame.2.1
              | some k => exact frame.2.1

theorem Builds.top_key (h : Builds bufs base m stack none hist s) (due : ¬ Awaits stack) :
    ∃ i, s.depth = i + 1 ∧ s.frameType i = .dict := by
  have hdepth := h.depth_eq
  cases stack with
  | nil => exact absurd trivial due
  | cons o below =>
      refine ⟨below.length, hdepth, ?_⟩
      rw [h.frames.1]
      cases o with
      | list => exact absurd trivial due
      | dict => rfl

/-! ## Lockstep -/

/-- The builder and the parser at the call `k`, which the calls `before` have led to. -/
structure Lockstep (before : List (Call DomState)) (k : Call DomState) : Prop where
  /-- One frame per open scope, up to the one that is being opened or closed. -/
  depth : k.state.user.depth + k.event.opens.toNat = k.state.depth + k.event.closes.toNat
  kinds : ∀ i < k.state.user.depth,
    k.state.user.frameType i = kindType (k.state.scopes i).isDict
  /-- No key is left below the top. -/
  below : ∀ i, i + 1 < k.state.user.depth → k.state.user.frameType i = .dict →
    (k.state.user.frames i).pendingKey = .null 0
  /-- A dict on top expects a key exactly when the parser delivers one. -/
  mode : k.event.closes = false → ∀ i, k.state.user.depth = i + 1 →
    k.state.user.frameType i = .dict → (k.state.user.frames i).expectingKey = k.isKey
  key : k.event.closes = false → k.isKey = true →
    ∃ i, k.state.user.depth = i + 1 ∧ k.state.user.frameType i = .dict
  /-- A value for a dict finds the key that the call just before has delivered for this dict. -/
  pending : k.event.closes = false → k.isKey = false → ∀ i, k.state.user.depth = i + 1 →
    k.state.user.frameType i = .dict → ∃ earlier k' off key,
      before = earlier ++ [k'] ∧ k'.event = .string off key ∧ k'.isKey = true ∧
      k'.state.user.depth = i + 1 ∧
      (k'.state.user.frames i).container = (k.state.user.frames i).container ∧
      (k.state.user.frames i).pendingKey = .mem key
  /-- Only the first call finds no frame. -/
  root : k.state.user.depth = 0 → before = []
  room : k.state.user.depth < k.state.user.depthCap ∧ k.state.user.depthCap = domFrameCount
  answer : (callBack (some domCallbacks) k.event k.state.user).1 ≠ .errNestingTooDeep

section Calls

variable {alloc : AllocRef} {before : List (Call DomState)} {k : Call DomState} {d : Config}

theorem Follows.builds (checked : bencodeAllocatorCheck alloc = .ok)
    (cap : limit ≤ internalMaxDepth) {u : DomState}
    (h : Follows limit (some domCallbacks) (.start (bufs base)) (domStart (.buffer base) alloc m)
      before d u) :
    Sound limit (bufs base) (before.map Call.event) d ∧
      Builds bufs base m d.stack d.result (before.map Call.event) u := by
  have hanswer := domStart_run checked h.run cap m
  rw [h.told] at hanswer
  cases hanswer with
  | ok hbuilds => exact hbuilds

theorem Builds.keyed {done : List (Bytes × Tree)} {off : Nat} {key : Bytes} {u : DomState}
    (h : Builds bufs base m (.dict done none :: below) none hist s)
    (well : WellOpen limit (.dict done none :: below)) (cap : limit ≤ internalMaxDepth)
    (told : callBack (some domCallbacks) (.string off key) s = (.ok, u)) :
    (s.frames below.length).container = (u.frames below.length).container ∧
      (u.frames below.length).pendingKey = .mem key := by
  have hdepth : s.depth = below.length + 1 := h.depth_eq
  have hrun : callBack (some domCallbacks) (.string off key) s = domOnString off key s := rfl
  rw [hrun, domOnString, keyFrame?_key h well cap] at told
  dsimp only at told
  rw [hdepth, Nat.add_sub_cancel, DomState.setFrame, if_pos (well.frame_room cap)] at told
  cases told
  simp

section Lawfulness

variable {calls after : List (Call DomState)}

theorem Builds.mode (h : Builds bufs base m d.stack none hist k.state.user)
    (meets : Meets limit d k) (hcloses : k.event.closes = false) {i : Nat}
    (hi : k.state.user.depth = i + 1) (hdict : k.state.user.frameType i = .dict) :
    (k.state.user.frames i).expectingKey = k.isKey := by
  obtain ⟨done, key, below, hstack, -, hexpect⟩ := h.top hi hdict
  have hkey := meets.key hcloses
  rw [hstack] at hkey
  rw [hexpect]
  cases key with
  | none => exact (hkey.mpr not_false).symm
  | some key => exact (Bool.eq_false_iff.mpr fun h => hkey.mp h trivial).symm

theorem Lawful.pending (checked : bencodeAllocatorCheck alloc = .ok)
    (cap : limit ≤ internalMaxDepth)
    (lawful : Lawful limit (some domCallbacks) (.start (bufs base))
      (domStart (.buffer base) alloc m) calls)
    (hsplit : calls = before ++ k :: after)
    (follows : Follows limit (some domCallbacks) (.start (bufs base))
      (domStart (.buffer base) alloc m) before d k.state.user)
    {done : List (Bytes × Tree)} {key : Bytes} (hstack : d.stack = .dict done (some key) :: below) :
    ∃ earlier k' off, before = earlier ++ [k'] ∧ k'.event = .string off key ∧ k'.isKey = true ∧
      k'.state.user.depth = below.length + 1 ∧
      (k'.state.user.frames below.length).container =
        (k.state.user.frames below.length).container ∧
      (k.state.user.frames below.length).pendingKey = .mem key := by
  obtain ⟨earlier, k', c, off, hbefore, hc, follows', meets', hevent, hkey, told⟩ :=
    lawful.key_before hsplit follows hstack
  obtain ⟨sound, builds⟩ := follows'.builds checked cap
  obtain ⟨_, hstep⟩ := meets'.emits
  have hwell := sound.well
  rw [(scanStep_emit hstep).1, hc] at builds hwell
  rw [hevent] at told
  have hkeyed := builds.keyed hwell cap told
  exact ⟨earlier, k', off, hbefore, hevent, hkey, builds.depth_eq, hkeyed⟩

/-- Every call of a lawful log finds the builder in lockstep with the parser. -/
theorem Lawful.lockstep (checked : bencodeAllocatorCheck alloc = .ok)
    (cap : limit ≤ internalMaxDepth)
    (lawful : Lawful limit (some domCallbacks) (.start (bufs base))
      (domStart (.buffer base) alloc m) calls)
    (hsplit : calls = before ++ k :: after) : Lockstep before k := by
  obtain ⟨d, follows, meets⟩ := lawful before k after hsplit
  obtain ⟨d', hstep⟩ := meets.emits
  obtain ⟨hopen, tok, rest, next, hr, read, -⟩ := scanStep_emit hstep
  obtain ⟨sound, builds⟩ := follows.builds checked cap
  have hslice := sound.sliced hr read
  have hwell := sound.well
  have htold := sound.told
  rw [hopen] at builds hwell htold
  have hanswer := builds.step hwell cap read hslice
  have hdepth := builds.depth_eq
  constructor
  case depth =>
    rw [hdepth]
    exact meets.depth.symm
  case kinds =>
    intro i hi
    exact builds.type meets.kinds (hdepth ▸ hi)
  case below =>
    intro i hi hdict
    exact builds.pending (hdepth ▸ hi) hdict
  case mode =>
    intro hcloses i hi hdict
    exact builds.mode meets hcloses hi hdict
  case key =>
    intro hcloses hkey
    exact builds.top_key ((meets.key hcloses).mp hkey)
  case pending =>
    intro hcloses hvalue i hi hdict
    obtain ⟨done, key, below, hstack, rfl, -⟩ := builds.top hi hdict
    cases key with
    | none =>
        have hkey := (meets.key hcloses).mpr (by rw [hstack]; exact not_false)
        rw [hvalue] at hkey
        cases hkey
    | some key =>
        obtain ⟨earlier, k', off, hpending⟩ := lawful.pending checked cap hsplit follows hstack
        exact ⟨earlier, k', off, key, hpending⟩
  case root =>
    intro hzero
    rw [hdepth, List.length_eq_zero_iff] at hzero
    rw [hzero] at htold
    exact List.map_eq_nil_iff.mp htold
  case room =>
    have hlen := WellOpen.length_le hwell
    rw [hdepth, builds.running.cap]
    refine ⟨?_, rfl⟩
    simp only [domFrameCount, internalMaxDepth] at cap ⊢
    omega
  case answer =>
    generalize callBack (some domCallbacks) k.event k.state.user = r at hanswer
    cases hanswer with
    | ok => exact fun h => (by cases h)
    | nomem => exact fun h => (by cases h)

end Lawfulness

end Calls

/-- While `bencode_parse_sax` drives the DOM builder, at every call of a callback the frames of the
builder and the scopes of the parser are in lockstep, whatever the input, the depth limit and the
refusals of the allocator. -/
theorem bencodeParseSax_lockstep (bufs : Buffers) (input : InputArg) (alloc : AllocRef)
    (checked : bencodeAllocatorCheck alloc = .ok) (maxDepth : Nat) (m : Memory) :
    ∃ r calls,
      bencodeParseSaxLog (input.span bufs) (some domCallbacks) (domStart input alloc m) maxDepth =
        .ok (r, calls) ∧
      bencodeParseSax (input.span bufs) (some domCallbacks) (domStart input alloc m) maxDepth =
        .ok r ∧
      (deliver .ok (callBack (some domCallbacks)) (calls.map Call.event)
        (domStart input alloc m)).2 = r.user ∧
      ∀ before k after, calls = before ++ k :: after → Lockstep before k := by
  cases input with
  | null n =>
      refine ⟨_, [], ?_, bencodeParseSax_nullInput n _ _ _, rfl, ?_⟩
      · by_cases hn : n = 0
        · simp [bencodeParseSaxLog, InputArg.span, Span.isBad, Span.len, hn]
        · simp [bencodeParseSaxLog, InputArg.span, Span.isBad, hn]
      · intro before k after h
        cases before <;> cases h
  | buffer base =>
      obtain ⟨r, calls, hrun, told, lawful⟩ := bencodeParseSaxLog_lawful (.mem (bufs base)) rfl
        (some domCallbacks) (domStart (.buffer base) alloc m) maxDepth
      have hplain := bencodeParseSaxLog_result (.mem (bufs base)) (some domCallbacks)
        (domStart (.buffer base) alloc m) maxDepth
      rw [hrun] at hplain
      exact ⟨r, calls, hrun, hplain.symm, told, fun before k after hsplit =>
        lawful.lockstep checked (effectiveDepth_le maxDepth) hsplit⟩

/-- The calls for a dict with a list in it, in a run that ends when the sixth request for memory
is refused. -/
theorem bencodeParseSax_lockstep_dict :
    ∃ r calls,
      bencodeParseSaxLog (.mem [100, 49, 58, 97, 108, 105, 49, 101, 101, 101]) (some domCallbacks)
        (domStart (.buffer 0) none (.empty fun i => i == 5)) 0 = .ok (r, calls) ∧
      calls.map Call.event = [.dictBegin, .string 3 [97], .listBegin, .int 1] ∧
      ∀ before k after, calls = before ++ k :: after → Lockstep before k := by
  obtain ⟨r, calls, hrun, -, -, hall⟩ := bencodeParseSax_lockstep
    (fun _ => [100, 49, 58, 97, 108, 105, 49, 101, 101, 101]) (.buffer 0) none rfl 0
    (.empty fun i => i == 5)
  have hevents : (bencodeParseSaxLog (.mem [100, 49, 58, 97, 108, 105, 49, 101, 101, 101])
      (some domCallbacks) (domStart (.buffer 0) none (.empty fun i => i == 5)) 0).toOption.map
        (fun p => p.2.map Call.event) =
      some [.dictBegin, .string 3 [97], .listBegin, .int 1] := by decide +kernel
  have hrun' : bencodeParseSaxLog (.mem [100, 49, 58, 97, 108, 105, 49, 101, 101, 101])
      (some domCallbacks) (domStart (.buffer 0) none (.empty fun i => i == 5)) 0 =
        .ok (r, calls) := hrun
  rw [hrun'] at hevents
  exact ⟨r, calls, hrun', Option.some.inj hevents, hall⟩

end Bencode
