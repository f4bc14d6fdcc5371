import Bencode.Dom.Attach
import Bencode.Value.Build

/-!
# The builder follows the scanner

Each callback of the DOM builder either brings the tree under construction to where
the scanner's step has brought its stack, or runs out of memory, and then the tree
still owns all that was taken.
-/

namespace Bencode

/-! ## States of the builder -/

/-- Nothing has gone wrong: no request since `m` was refused. -/
structure Running (base : Nat) (m : Memory) (s : DomState) : Prop where
  owns : Owns m s
  granted : s.mem.refused = m.refused
  input : s.input = base
  cap : s.depthCap = domFrameCount

/-- A request since `m` was refused; the tree can still be freed. -/
structure Failed (m : Memory) (s : DomState) : Prop where
  owns : Owns m s
  refused : m.refused < s.mem.refused

structure Builds (bufs : Buffers) (base : Nat) (m : Memory) (stack : List OpenScope)
    (result : Option Tree) (hist : List Event) (s : DomState) : Prop where
  running : Running base m s
  growing : Growing bufs base s stack result hist

inductive Answer (m : Memory) (P : DomState → Prop) : Status × DomState → Prop
  | ok {s : DomState} (h : P s) : Answer m P (.ok, s)
  | nomem {s : DomState} (h : Failed m s) : Answer m P (.errNomem, s)

theorem Answer.mono {m : Memory} {P Q : DomState → Prop} {r : Status × DomState}
    (h : Answer m P r) (imp : ∀ s, P s → Q s) : Answer m Q r := by
  cases h with
  | ok h => exact .ok (imp _ h)
  | nomem h => exact .nomem h

section Step

variable {bufs : Buffers} {base limit : Nat} {m : Memory} {s s' : DomState}
  {stack below : List OpenScope} {hist : List Event}

/-- The shape does not depend on the memory. -/
theorem Growing.setMem {result : Option Tree} (h : Growing bufs base s stack result hist)
    (m' : Memory) : Growing bufs base { s with mem := m' } stack result hist := by
  cases h with
  | empty root depth => exact .empty root depth
  | whole root depth told => exact .whole root depth told
  | inside v ls depth hangs holds frame =>
      exact .inside v ls depth ⟨hangs.root, hangs.layers, hangs.frames, hangs.told⟩ holds frame

theorem Growing.depth_eq (h : Growing bufs base s stack none hist) : s.depth = stack.length := by
  cases h with
  | empty root depth => exact depth
  | inside v ls depth => exact depth

/-! ## A new node -/

structure Hung (bufs : Buffers) (base : Nat) (m : Memory) (stack : List OpenScope)
    (hist : List Event) (depth : Nat) (v : Value) (s : DomState) : Prop where
  running : Running base m s
  depth_eq : s.depth = depth
  hangs : ∃ ls, Hangs bufs base stack ls v [] hist s

theorem attachNew_answer {intended : Value → Prop} {r : Status × Option Value × Memory}
    (h : Builds bufs base m stack none hist s) (await : Awaits stack) (well : WellOpen limit stack)
    (cap : limit ≤ internalMaxDepth) (built : Built s.alloc intended s.mem r) :
    Answer m (fun s' => ∃ v, r.2.1 = some v ∧ intended v ∧
      Hung bufs base m stack hist s.depth v s') (attachNew s r) := by
  obtain ⟨⟨⟨checked, sound, owned⟩, granted, input, depthCap⟩, growing⟩ := h
  cases built with
  | @nomem m₁ blocks refused =>
      rw [attachNew, if_pos (by simp)]
      exact .nomem ⟨⟨checked, sound, (owned.trans blocks).congr rfl (add_zero _)⟩,
        granted ▸ refused⟩
  | @ok child m₁ hchild content alloc blocks granted' =>
      have hlive := blocks.still_live (owned.came_live (Multiset.zero_le _))
      obtain ⟨st, s', hrun, hplaced⟩ := attach_placed (growing.setMem m₁) await well cap sound
        hlive hchild
      rw [attachNew, if_neg (by simp)]
      dsimp only
      rw [hrun]
      cases hplaced with
      | @ok root frames m₂ ls hangs hroot blocks₂ granted₂ =>
          rw [if_neg (by simp)]
          refine .ok ⟨child, rfl, content, ⟨⟨checked, ?_, ?_⟩, ?_, input, depthCap⟩, rfl, ls, hangs⟩
          · rintro v ⟨⟩
            exact hroot
          · apply BlockLedger.Exchange.cancel (rootBlocks s.root + child.blocks)
            refine ((owned.trans blocks).trans blocks₂).congr ?_ ?_
            · simp only [zero_add]
            · exact add_comm _ _
          · exact granted₂.trans (granted'.trans granted)
      | @nomem frames m₂ blocks₂ refused₂ =>
          rw [if_pos (by simp)]
          have hlive₂ := blocks₂.still_live hlive
          rw [add_zero] at hlive₂
          obtain ⟨hfree, hsame⟩ := frees_value child hchild m₂
            ((Multiset.le_add_left _ _).trans hlive₂)
          refine .nomem ⟨⟨checked, sound, ?_⟩, ?_⟩
          · apply BlockLedger.Exchange.cancel child.blocks
            exact (((owned.trans blocks).trans blocks₂).trans hfree).congr (by simp)
              (by simp [rootBlocks])
          · have hmore : m₁.refused < m₂.refused := refused₂
            show m.refused < (valueFree child m₂).refused
            omega

theorem Hung.settle {v : Value} {es : List Event} (h : Hung bufs base m stack hist s.depth v s')
    (depth : s.depth = stack.length) (told : List.Forall₂ (Visit.Tells bufs base) v.visits es) :
    Builds bufs base m (settle stack (v.tree bufs)).1 (settle stack (v.tree bufs)).2
      (hist ++ es) s' := by
  obtain ⟨running, hdepth, ls, hangs⟩ := h
  have htold := hangs.tell told
  rw [List.nil_append] at htold
  exact ⟨running, htold.settle (hdepth.trans depth)⟩

theorem domOnInt_answer (h : Builds bufs base m stack none hist s) (await : Awaits stack)
    (well : WellOpen limit stack) (cap : limit ≤ internalMaxDepth) (i : Int64) :
    Answer m (Builds bufs base m (settle stack (.int i)).1 (settle stack (.int i)).2
      (hist ++ [.int i])) (domOnInt i s) := by
  have hbuilt := bencodeIntNew_built h.running.owns.checked s.mem i
  apply (attachNew_answer h await well cap hbuilt).mono
  rintro s' ⟨v, -, ⟨hd, rfl⟩, hung⟩
  exact hung.settle h.growing.depth_eq (.cons rfl .nil)

/-! ## Strings -/

theorem keyFrame?_value (h : Builds bufs base m stack none hist s) (await : Awaits stack)
    (well : WellOpen limit stack) (cap : limit ≤ internalMaxDepth) : s.keyFrame? = none := by
  have hnodup := Multiset.nodup_of_le h.running.owns.live s.mem.nodup
  obtain ⟨-, growing⟩ := h
  cases growing with
  | empty root depth => rw [DomState.keyFrame?, if_neg (by omega)]
  | @inside o below hist v ls depth hangs holds frame =>
      have hroom := well.frame_room cap
      have hframe : s.frame? below.length = some (s.frames below.length) := if_pos hroom
      rw [hangs.root, rootBlocks] at hnodup
      rw [DomState.keyFrame?, if_pos (by omega), depth, Nat.add_sub_cancel, hframe]
      dsimp only
      rw [if_neg]
      rintro ⟨htype, hexpect⟩
      cases o with
      | list done =>
          rw [DomState.container?_eq hangs.root hnodup frame] at htype
          cases v with
          | int => exact holds
          | string => exact holds
          | list => cases htype
          | dict => exact holds
      | dict done key =>
          cases key with
          | none => exact await
          | some k =>
              rw [frame.2.1] at hexpect
              cases hexpect

theorem domOnString_value (h : Builds bufs base m stack none hist s) (await : Awaits stack)
    (well : WellOpen limit stack) (cap : limit ≤ internalMaxDepth) {off : Nat} {bytes : Bytes}
    (fits : bytes.length ≤ sizeMax)
    (slice : ((bufs base).drop off).take bytes.length = bytes) :
    Answer m (Builds bufs base m (settle stack (.string bytes)).1
      (settle stack (.string bytes)).2 (hist ++ [.string off bytes])) (domOnString off bytes s) := by
  have hbuilt := bencodeStringNewBorrowed_built h.running.owns.checked s.mem ⟨s.input, off⟩ fits
  rw [domOnString, keyFrame?_value h await well cap]
  apply (attachNew_answer h await well cap hbuilt).mono
  rintro s' ⟨v, -, ⟨hd, rfl⟩, hung⟩
  rw [h.running.input] at hung
  have hread : (parsedPayload base off bytes.length).read bufs = bytes :=
    parsedPayload_read slice
  have htree : (Value.string hd (parsedPayload base off bytes.length)).tree bufs =
      .string bytes := congrArg Tree.string hread
  rw [← htree]
  exact hung.settle h.growing.depth_eq (.cons ⟨rfl, hread⟩ .nil)

theorem keyFrame?_key {done : List (Bytes × Tree)}
    (h : Builds bufs base m (.dict done none :: below) none hist s)
    (well : WellOpen limit (.dict done none :: below)) (cap : limit ≤ internalMaxDepth) :
    s.keyFrame? = some (s.frames below.length) := by
  have hnodup := Multiset.nodup_of_le h.running.owns.live s.mem.nodup
  obtain ⟨-, growing⟩ := h
  cases growing with
  | inside v ls depth hangs holds frame =>
      obtain ⟨hself, hexpect, -⟩ := frame
      have hframe : s.frame? below.length = some (s.frames below.length) :=
        if_pos (well.frame_room cap)
      rw [hangs.root, rootBlocks] at hnodup
      rw [DomState.keyFrame?, if_pos (by omega), depth, Nat.add_sub_cancel, hframe]
      dsimp only
      rw [DomState.container?_eq hangs.root hnodup hself, if_pos]
      refine ⟨?_, hexpect⟩
      cases v with
      | int => exact False.elim holds
      | string => exact False.elim holds
      | list => exact False.elim holds
      | dict => rfl

theorem domOnString_key {done : List (Bytes × Tree)}
    (h : Builds bufs base m (.dict done none :: below) none hist s)
    (well : WellOpen limit (.dict done none :: below)) (cap : limit ≤ internalMaxDepth) {off : Nat}
    {k : Bytes} (slice : ((bufs base).drop off).take k.length = k) :
    ∃ s', domOnString off k s = (.ok, s') ∧
      Builds bufs base m (.dict done (some k) :: below) none (hist ++ [.string off k]) s' := by
  have hkey := keyFrame?_key h well cap
  obtain ⟨running, growing⟩ := h
  cases growing with
  | inside v ls depth hangs holds frame =>
      obtain ⟨hself, hexpect, hpending⟩ := frame
      have hroom := well.frame_room cap
      have hholds : ScopeHolds bufs (.dict done (some k)) v := by cases v <;> exact holds
      refine ⟨_, by rw [domOnString, hkey], ?_⟩
      rw [depth, Nat.add_sub_cancel, DomState.setFrame, if_pos hroom]
      have hkeyTold : List.Forall₂ (Visit.Tells bufs base) [.key k] [.string off k] :=
        .cons ⟨rfl, slice⟩ .nil
      have htold := hangs.tell hkeyTold
      refine ⟨⟨⟨running.owns.checked, running.owns.sound, running.owns.blocks⟩, running.granted,
        running.input, running.cap⟩, .inside v ls depth ⟨hangs.root, hangs.layers, ?_, ?_⟩
          hholds ?_⟩
      · exact hangs.frames.update hangs.layers.length_eq.ge _
      · simpa [OpenScope.pending] using htold.told
      · dsimp only
        rw [Function.update_self]
        exact ⟨hself, rfl, rfl⟩

/-! ## Containers -/

theorem Hung.opened {v : Value} {o : OpenScope} {es : List Event} {f : DomFrame}
    (h : Hung bufs base m stack hist s.depth v s') (depth : s.depth = stack.length)
    (room : stack.length < domFrameCount)
    (told : List.Forall₂ (Visit.Tells bufs base) (v.openVisits ++ o.pending) es)
    (holds : ScopeHolds bufs o v) (frame : FrameHolds v f o) :
    ¬ s'.depth ≥ s'.depthCap ∧ Builds bufs base m (o :: stack) none (hist ++ es)
      { s'.setFrame s'.depth f with depth := (s'.setFrame s'.depth f).depth + 1 } := by
  obtain ⟨running, hdepth, ls, hangs⟩ := h
  have hlen : s'.depth = stack.length := hdepth.trans depth
  refine ⟨by rw [running.cap, hlen]; omega, ?_⟩
  rw [DomState.setFrame, if_pos (by omega), hlen]
  refine ⟨⟨⟨running.owns.checked, running.owns.sound, running.owns.blocks⟩, running.granted,
    running.input, running.cap⟩, .inside v ls rfl ?_ holds ?_⟩
  · have htold := (hangs.tell told).told
    exact ⟨hangs.root, hangs.layers, hangs.frames.update hangs.layers.length_eq.ge _, htold⟩
  · dsimp only
    rw [Function.update_self]
    exact frame

theorem openContainer_answer {type : ValueType} {intended : Value → Prop}
    {built : Status × Option Value × Memory} {o : OpenScope} {e : Event}
    (h : Builds bufs base m stack none hist s) (await : Awaits stack) (well : WellOpen limit stack)
    (cap : limit ≤ internalMaxDepth) (room : stack.length < limit)
    (new : (if type = .list then bencodeListNew s.alloc s.mem
      else bencodeDictNew s.alloc s.mem) = built)
    (hbuilt : Built s.alloc intended s.mem built)
    (told : ∀ v, intended v →
      List.Forall₂ (Visit.Tells bufs base) (v.openVisits ++ o.pending) [e])
    (holds : ∀ v, intended v → ScopeHolds bufs o v)
    (frame : ∀ v, intended v → FrameHolds v ⟨v.self, type = .dict, .null 0⟩ o) :
    Answer m (Builds bufs base m (o :: stack) none (hist ++ [e])) (openContainer s type) := by
  have hanswer := attachNew_answer h await well cap hbuilt
  rw [openContainer]
  dsimp only
  rw [new]
  generalize attachNew s built = r at hanswer ⊢
  cases hanswer with
  | nomem hfail =>
      rw [if_pos (by simp)]
      exact .nomem hfail
  | @ok s' hdone =>
      obtain ⟨v, hv, hnew, hung⟩ := hdone
      obtain ⟨hroom, hnext⟩ := hung.opened h.growing.depth_eq
        (room.trans_le (cap.trans (by decide))) (told v hnew) (holds v hnew) (frame v hnew)
      rw [if_neg (by simp), hv]
      dsimp only
      rw [if_neg hroom]
      exact .ok hnext

theorem domOnListBegin_answer (h : Builds bufs base m stack none hist s) (await : Awaits stack)
    (well : WellOpen limit stack) (cap : limit ≤ internalMaxDepth) (room : stack.length < limit) :
    Answer m (Builds bufs base m (.list [] :: stack) none (hist ++ [.listBegin]))
      (domOnListBegin s) := by
  apply openContainer_answer h await well cap room (if_pos rfl)
    (bencodeListNew_built h.running.owns.checked s.mem)
  · rintro v ⟨hd, rfl⟩
    exact .cons trivial .nil
  · rintro v ⟨hd, rfl⟩
    rfl
  · rintro v ⟨hd, rfl⟩
    rfl

theorem domOnDictBegin_answer (h : Builds bufs base m stack none hist s) (await : Awaits stack)
    (well : WellOpen limit stack) (cap : limit ≤ internalMaxDepth) (room : stack.length < limit) :
    Answer m (Builds bufs base m (.dict [] none :: stack) none (hist ++ [.dictBegin]))
      (domOnDictBegin s) := by
  apply openContainer_answer h await well cap room (if_neg (by decide))
    (bencodeDictNew_built h.running.owns.checked s.mem)
  · rintro v ⟨hd, rfl⟩
    exact .cons trivial .nil
  · rintro v ⟨hd, rfl⟩
    rfl
  · rintro v ⟨hd, rfl⟩
    exact ⟨rfl, rfl, rfl⟩

/-- The innermost container is complete and settled where it hangs. -/
theorem popFrame_builds {o : OpenScope} {e : Event} {t : Tree}
    (h : Builds bufs base m (o :: below) none hist s) (pending : o.pending = [])
    (complete : ∀ v, ScopeHolds bufs o v → v.tree bufs = t ∧ ∃ last,
      v.visits = v.openVisits ++ [last] ∧ last.Tells bufs base e) :
    ∃ s', popFrame s = (.ok, s') ∧
      Builds bufs base m (settle below t).1 (settle below t).2 (hist ++ [e]) s' := by
  obtain ⟨running, growing⟩ := h
  cases growing with
  | inside v ls depth hangs holds frame =>
      obtain ⟨rfl, last, hvisits, htells⟩ := complete v holds
      refine ⟨_, rfl, ?_⟩
      rw [if_pos (by omega)]
      refine ⟨⟨⟨running.owns.checked, running.owns.sound, running.owns.blocks⟩, running.granted,
        running.input, running.cap⟩, ?_⟩
      have hlast : List.Forall₂ (Visit.Tells bufs base) [last] [e] := .cons htells .nil
      have htold := hangs.tell hlast
      rw [pending, List.append_nil, ← hvisits] at htold
      refine Hangs.settle ⟨htold.root, htold.layers, htold.frames, htold.told⟩ ?_
      dsimp only
      omega

theorem domOnListEnd_builds {done : List Tree}
    (h : Builds bufs base m (.list done :: below) none hist s) :
    ∃ s', domOnListEnd s = (.ok, s') ∧ Builds bufs base m (settle below (.list done)).1
      (settle below (.list done)).2 (hist ++ [.listEnd]) s' := by
  apply popFrame_builds h rfl
  intro v holds
  cases v with
  | int => exact False.elim holds
  | string => exact False.elim holds
  | dict => exact False.elim holds
  | list hd slots => exact ⟨congrArg Tree.list holds, .listEnd, rfl, trivial⟩

theorem domOnDictEnd_builds {done : List (Bytes × Tree)}
    (h : Builds bufs base m (.dict done none :: below) none hist s) :
    ∃ s', domOnDictEnd s = (.ok, s') ∧ Builds bufs base m (settle below (.dict done)).1
      (settle below (.dict done)).2 (hist ++ [.dictEnd]) s' := by
  apply popFrame_builds h rfl
  intro v holds
  cases v with
  | int => exact False.elim holds
  | string => exact False.elim holds
  | list => exact False.elim holds
  | dict hd slots => exact ⟨congrArg Tree.dict holds, .dictEnd, rfl, trivial⟩

/-! ## One step -/

def Sliced (w : Bytes) : Event → Prop
  | .string off bytes => (w.drop off).take bytes.length = bytes
  | _ => True

/-- A callback follows the step whose event it is told. -/
theorem Builds.step {pos : Nat} {tok : Bytes} {e : Event} {next : List OpenScope × Option Tree}
    (h : Builds bufs base m stack none hist s) (well : WellOpen limit stack)
    (cap : limit ≤ internalMaxDepth) (read : Reads limit stack pos tok e next)
    (slice : Sliced (bufs base) e) :
    Answer m (Builds bufs base m next.1 next.2 (hist ++ [e]))
      (callBack (some domCallbacks) e s) := by
  cases read with
  | int await i => exact domOnInt_answer h await well cap i
  | string await bytes fits => exact domOnString_value h await well cap fits slice
  | listBegin await room => exact domOnListBegin_answer h await well cap room
  | dictBegin await room => exact domOnDictBegin_answer h await well cap room
  | key done below k order fits =>
      obtain ⟨s', hrun, hnext⟩ := domOnString_key h well cap slice
      show Answer m _ (domOnString _ k s)
      rw [hrun]
      exact .ok hnext
  | listEnd done below =>
      obtain ⟨s', hrun, hnext⟩ := domOnListEnd_builds h
      show Answer m _ (domOnListEnd s)
      rw [hrun]
      exact .ok hnext
  | dictEnd done below =>
      obtain ⟨s', hrun, hnext⟩ := domOnDictEnd_builds h
      show Answer m _ (domOnDictEnd s)
      rw [hrun]
      exact .ok hnext

end Step

end Bencode
