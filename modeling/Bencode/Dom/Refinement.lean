import Bencode.Dom.Run
import Bencode.Sax.Watch

/-!
# The DOM parser refines the SAX parser

Unless memory runs out, `bencode_parse` reports the verdict of `bencode_parse_sax`,
a walk over its tree tells the SAX events, and every entry the builder writes goes
behind all others of its dict.
-/

namespace Bencode

open LabelledMachine Delivery

/-! ## Calls of `bencode_dict_set` -/

/-- The innermost open container, when it is a dict, with the key that waits in its frame. -/
def DomState.topDict (s : DomState) : Option (Slots (Entry Value) × Span) :=
  match s.frame? (s.depth - 1) with
  | none => none
  | some f =>
      match s.container? f with
      | some (.dict _ slots) => some (slots, f.pendingKey)
      | _ => none

/-- The dict and the key of the `bencode_dict_set` call that the callback for `e` makes, when
it makes one: a value is attached inside a dict. -/
def DomState.dictSetBy (s : DomState) (e : Event) : Option (Slots (Entry Value) × Span) :=
  if s.depth = 0 then none
  else
    match e with
    | .listEnd => none
    | .dictEnd => none
    | .string _ _ => if s.keyFrame?.isSome then none else s.topDict
    | _ => s.topDict

theorem attach_topDict {s : DomState} {slots : Slots (Entry Value)} {key : Span}
    (depth : s.depth ≠ 0) (h : s.topDict = some (slots, key)) (value : Option Value) :
    ∃ hd f, s.container? f = some (.dict hd slots) ∧
      (attach s value).1 = (bencodeDictSet (some (.dict hd slots)) key value s.mem).1 := by
  unfold DomState.topDict at h
  cases hframe : s.frame? (s.depth - 1) with
  | none =>
      rw [hframe] at h
      cases h
  | some f =>
      rw [hframe] at h
      dsimp only at h
      split at h
      · next hd slots' hfound =>
          cases h
          refine ⟨hd, f, hfound, ?_⟩
          rw [attach, if_neg depth, hframe]
          dsimp only
          rw [hfound]
          rfl
      · cases h

/-- Every such call is made on the innermost container. -/
theorem DomState.topDict_of_dictSetBy {s : DomState} {e : Event}
    {call : Slots (Entry Value) × Span} (depth : s.depth ≠ 0) (h : s.dictSetBy e = some call) :
    s.topDict = some call := by
  unfold dictSetBy at h
  rw [if_neg depth] at h
  cases e with
  | string off bytes =>
      dsimp only at h
      split at h
      · cases h
      · exact h
  | listEnd => cases h
  | dictEnd => cases h
  | int i => exact h
  | listBegin => exact h
  | dictBegin => exact h

theorem Builds.no_set {bufs : Buffers} {base limit : Nat} {m : Memory} {s : DomState}
    {below : List OpenScope} {hist : List Event} {done : List (Bytes × Tree)} {pos : Nat}
    {tok : Bytes} {e : Event} {next : List OpenScope × Option Tree}
    (h : Builds bufs base m (.dict done none :: below) none hist s)
    (well : WellOpen limit (.dict done none :: below)) (cap : limit ≤ internalMaxDepth)
    (read : Reads limit (.dict done none :: below) pos tok e next) : s.dictSetBy e = none := by
  unfold DomState.dictSetBy
  split
  · rfl
  cases read with
  | int await => exact False.elim await
  | string await => exact False.elim await
  | listBegin await => exact False.elim await
  | dictBegin await => exact False.elim await
  | dictEnd => rfl
  | key done below k order =>
      dsimp only [stringEvent]
      rw [keyFrame?_key h well cap]
      rfl

section Inserts

variable {bufs : Buffers} {base limit : Nat} {m : Memory} {s : DomState}
  {stack below : List OpenScope} {hist : List Event}

/-- In every state of a run, an entry is written behind all others. -/
theorem Builds.inserts_last {pos : Nat} {tok : Bytes} {e : Event}
    {next : List OpenScope × Option Tree} (h : Builds bufs base m stack none hist s)
    (well : WellOpen limit stack) (cap : limit ≤ internalMaxDepth)
    (read : Reads limit stack pos tok e next) {slots : Slots (Entry Value)} {key : Span}
    (hset : s.dictSetBy e = some (slots, key)) :
    dictSearch slots.items key = .ok (slots.items.length, false) := by
  have hnodup := Multiset.nodup_of_le h.running.owns.live s.mem.nodup
  have hsound := h.running.owns.sound
  have growing := h.growing
  cases growing with
  | empty root depth =>
      unfold DomState.dictSetBy at hset
      rw [if_pos depth] at hset
      cases hset
  | @inside o below hist v ls depth hangs holds frame =>
      have hroom := well.frame_room cap
      have hframe : s.frame? below.length = some (s.frames below.length) := if_pos hroom
      rw [hangs.root, rootBlocks] at hnodup
      have hcontainer := DomState.container?_eq hangs.root hnodup frame.container
      have hslots := DomState.topDict_of_dictSetBy (by omega) hset
      rw [DomState.topDict, depth, Nat.add_sub_cancel, hframe] at hslots
      dsimp only at hslots
      rw [hcontainer] at hslots
      cases v with
      | int => cases hslots
      | string => cases hslots
      | list => cases hslots
      | dict hd slots' =>
          cases hslots
          cases o with
          | list done => exact False.elim holds
          | dict done k =>
              have hdict := sound_dict_iff.mp (sound_of_plug (hsound _ hangs.root))
              have hkeys : storedKeys slots.items = entryKeys done := by
                rw [← entryKeys_entryTrees bufs, (holds : entryTrees bufs slots.items = done)]
              cases k with
              | some k =>
                  rw [frame.2.2]
                  exact dictSearch_last rfl hdict.1.sorted (hkeys ▸ well.key_above)
              | none =>
                  rw [h.no_set well cap read] at hset
                  cases hset

end Inserts

/-! ## Verdicts -/

/-- What the DOM parser makes of the SAX verdict `st` at the offset `off`. -/
def domVerdict (trailing : Bool) (size off : Nat) (st : Status) : Status :=
  if st = .ok ∧ trailing = false ∧ off ≠ size then .errUnexpectedByte else st

theorem Parsed.refines {bufs : Buffers} {base limit : Nat} {trailing : Bool} {w : Bytes}
    {m : Memory} {r : ParseResult} (h : Parsed bufs base limit trailing w m r)
    (granted : r.mem.refused = m.refused) {es : List Event} {st : Status} {off : Nat}
    (scan : Scans limit w es st off) :
    r.consumed = off ∧ r.status = domVerdict trailing w.length off st ∧
      (r.status = .ok → ∃ v, r.out = some v ∧ List.Forall₂ (Visit.Tells bufs base) v.visits es) := by
  cases h with
  | @accepted v rest es' m' scan' text whole sound told blocks granted' =>
      obtain ⟨rfl, heq⟩ := scan.unique scan'
      cases heq
      refine ⟨rfl, (if_neg ?_).symm, fun _ => ⟨v, rfl, told⟩⟩
      rintro ⟨-, hstrict, hmore⟩
      rcases whole with hwhole | rfl
      · rw [hstrict] at hwhole
        cases hwhole
      · rw [text, List.append_nil] at hmore
        exact hmore rfl
  | trailing scan' strict more blocks granted' =>
      obtain ⟨rfl, heq⟩ := scan.unique scan'
      cases heq
      refine ⟨rfl, (if_pos ⟨rfl, strict, more⟩).symm, ?_⟩
      intro h
      cases h
  | rejected scan' bad blocks granted' =>
      obtain ⟨rfl, heq⟩ := scan.unique scan'
      cases heq
      exact ⟨rfl, (if_neg fun h => bad h.1).symm, fun h => absurd h bad⟩
  | nomem blocks refused =>
      dsimp only at granted
      omega

/-- Every dict entry that a watched run writes goes behind all others. -/
def AppendsOnly (log : List (DomState × Event)) : Prop :=
  ∀ s e, (s, e) ∈ log → ∀ slots key, s.dictSetBy e = some (slots, key) →
    dictSearch slots.items key = .ok (slots.items.length, false)

theorem watched_appendsOnly {bufs : Buffers} {base limit : Nat} {alloc : AllocRef} {m : Memory}
    (checked : bencodeAllocatorCheck alloc = .ok) (cap : limit ≤ internalMaxDepth)
    {log : List (DomState × Event)}
    (calls : ∀ s e, (s, e) ∈ log → ∃ pre d,
      Reaches (scanStep limit) (.start (bufs base)) (pre ++ [e]) d ∧
        deliver .ok (callBack (some domCallbacks)) pre (domStart (.buffer base) alloc m) =
          (.ok, s)) : AppendsOnly log := by
  intro s e hlog slots key hset
  obtain ⟨pre, d, run, told⟩ := calls s e hlog
  obtain ⟨c, hfirst, hlast⟩ := run.split
  have hanswer := domStart_run checked hfirst cap m
  rw [told] at hanswer
  cases hanswer with
  | ok h =>
      obtain ⟨sound, builds⟩ := h
      cases hlast with
      | next head tail =>
          obtain ⟨hopen, tok, rest, next, hr, read, -⟩ := scanStep_emit head
          have hwell := sound.well
          rw [hopen] at builds hwell
          exact builds.inserts_last hwell cap read hset

/-- `bencode_parse` refines `bencode_parse_sax`: while no request is refused it reports the same
verdict, up to the check for trailing bytes, at the same offset; a walk over its tree tells the
SAX events, each string a slice of the input; and its builder only ever writes dict entries
behind all others. -/
theorem bencodeParse_refines (bufs : Buffers) (input : InputArg) (opts : Option ParseOptions)
    (checked : bencodeAllocatorCheck (opts.getD .default).allocator = .ok) (m : Memory) :
    ∃ (r : ParseResult) (st : Status) (off : Nat) (es : List Event)
        (u : SaxResult (DomState × List (DomState × Event))),
      bencodeParse bufs input opts m = .ok r ∧
      bencodeParseSax (input.span bufs) none () (opts.getD .default).maxDepth = .ok ⟨st, off, ()⟩ ∧
      bencodeParseSax (input.span bufs) (some recorder) [] (opts.getD .default).maxDepth =
        .ok ⟨st, off, es⟩ ∧
      (r.mem.refused = m.refused → r.consumed = off ∧
        ((opts.getD .default).allowTrailing = true → r.status = st) ∧
        ((opts.getD .default).allowTrailing = false → r.status =
          if st = .ok ∧ off ≠ (input.span bufs).len then .errUnexpectedByte else st) ∧
        (r.status = .ok → ∃ v, r.out = some v ∧
          List.Forall₂ (Visit.Tells bufs input.base) v.visits es)) ∧
      bencodeParseSax (input.span bufs) (some domCallbacks.watched)
        (domStart input (opts.getD .default).allocator m, [])
        (opts.getD .default).maxDepth = .ok u ∧
      bencodeParseSax (input.span bufs) (some domCallbacks)
        (domStart input (opts.getD .default).allocator m) (opts.getD .default).maxDepth =
          .ok ⟨u.status, u.consumed, u.user.1⟩ ∧
      AppendsOnly u.user.2 := by
  have hverdict : ∀ trailing size off st,
      (trailing = true → domVerdict trailing size off st = st) ∧
      (trailing = false → domVerdict trailing size off st =
        if st = .ok ∧ off ≠ size then .errUnexpectedByte else st) := by
    intro trailing size off st
    constructor
    · rintro rfl
      simp [domVerdict]
    · rintro rfl
      simp [domVerdict]
  cases input with
  | null n =>
      have hrun : bencodeParse bufs (.null n) opts m = _ :=
        bencodeParse_eq checked (bencodeParseSax_nullInput n _ _ _)
      have bad : (if n = 0 then Status.errTruncated else Status.errInvalidArg) ≠ .ok := by
        split <;> simp
      rw [parseEnd_bad bad] at hrun
      refine ⟨_, _, _, [], _, hrun, bencodeParseSax_nullInput n _ _ _,
        bencodeParseSax_nullInput n _ _ _, fun _ => ⟨rfl, fun _ => rfl, fun _ => ?_, fun h => ?_⟩,
        bencodeParseSax_nullInput n _ _ _, bencodeParseSax_nullInput n _ _ _, ?_⟩
      · exact (if_neg fun h => bad h.1).symm
      · exact absurd h bad
      · intro s e h
        cases h
  | buffer base =>
      obtain ⟨r, hrun, hparsed⟩ := bencodeParse_parsed bufs base opts checked m
      obtain ⟨es, st, off, hrec, scan⟩ :=
        bencodeParseSax_recorder (.mem (bufs base)) rfl (opts.getD .default).maxDepth
      obtain ⟨es', st', off', hnull, scan'⟩ :=
        bencodeParseSax_null (.mem (bufs base)) rfl (opts.getD .default).maxDepth
      obtain ⟨rfl, heq⟩ := scan.unique scan'
      cases heq
      obtain ⟨u, hwatched, hplain, hcalls⟩ :=
        bencodeParseSax_watched domCallbacks (.mem (bufs base)) rfl
          (domStart (.buffer base) (opts.getD .default).allocator m) (opts.getD .default).maxDepth
      refine ⟨r, st, off, es, u, hrun, hnull, hrec, fun granted => ?_, hwatched, hplain,
        watched_appendsOnly checked (effectiveDepth_le _) hcalls⟩
      obtain ⟨hoff, hst, htree⟩ := hparsed.refines granted scan
      obtain ⟨hloose, hstrict⟩ :=
        hverdict (opts.getD .default).allowTrailing (bufs base).length off st
      exact ⟨hoff, fun h => hst.trans (hloose h), fun h => hst.trans (hstrict h), htree⟩

/-- A dict with a nested list and a trailing byte, read with memory to spare. -/
theorem bencodeParse_refines_dict :
    ∃ r v es, bencodeParse (fun _ => [100, 49, 58, 97, 108, 101, 101, 120]) (.buffer 0)
        (some ⟨0, none, true⟩) (.empty fun _ => false) = .ok r ∧ r.status = .ok ∧
      r.consumed = 7 ∧ r.out = some v ∧
      List.Forall₂ (Visit.Tells (fun _ => [100, 49, 58, 97, 108, 101, 101, 120]) 0) v.visits es := by
  obtain ⟨r, st, off, es, u, hrun, hnull, -, hsame, -⟩ :=
    bencodeParse_refines (fun _ => [100, 49, 58, 97, 108, 101, 101, 120]) (.buffer 0)
      (some ⟨0, none, true⟩) rfl (.empty fun _ => false)
  have hgranted : (bencodeParse (fun _ => [100, 49, 58, 97, 108, 101, 101, 120]) (.buffer 0)
      (some ⟨0, none, true⟩) (.empty fun _ => false)).toOption.map (·.mem.refused) = some 0 := by
    decide +kernel
  have hsax : bencodeParseSax (.mem [100, 49, 58, 97, 108, 101, 101, 120]) none () 0 =
      .ok ⟨.ok, 7, ()⟩ := rfl
  rw [hrun] at hgranted
  obtain ⟨hoff, hst, -, htree⟩ := hsame (Option.some.inj hgranted)
  have hsax' := hnull.symm.trans hsax
  cases hsax'
  obtain ⟨v, hv, htells⟩ := htree (hst rfl)
  exact ⟨r, v, es, hrun, hst rfl, hoff, hv, htells⟩

end Bencode
