import Bencode.Dom.Refinement
import Bencode.Value.Footprint

/-!
# How much memory a parse takes

The builder's arrays grow by doubling only, so at every call of a callback the tree under
construction is tight, and what it takes is bounded by the bytes that have been read.
-/

namespace Bencode

open LabelledMachine Delivery

/-! ## Callbacks keep the tree tight -/

def DomState.Tight (s : DomState) : Prop := ∀ v, s.root = some v → v.Tight

/-- The tree of the builder is sound and its nodes are different blocks. -/
structure DomState.Whole (s : DomState) : Prop where
  sound : ∀ v, s.root = some v → v.Sound
  nodup : (rootBlocks s.root).Nodup

section Callbacks

variable {s s' : DomState} {child : Value}

theorem Owns.whole {m : Memory} (h : Owns m s) : s.Whole :=
  ⟨h.sound, Multiset.nodup_of_le h.live s.mem.nodup⟩

@[simp] theorem DomState.setFrame_root (s : DomState) (i : Nat) (f : DomFrame) :
    (s.setFrame i f).root = s.root := by
  unfold setFrame
  split <;> rfl

theorem DomState.Tight.store {f : DomFrame} {old new : Value} {m : Memory} (tight : s.Tight)
    (whole : s.Whole) (found : s.container? f = some old) (hnew : new.Tight) :
    (s.storeContainer f (some new) m).Tight := by
  intro v hv
  unfold DomState.container? at found
  cases hroot : s.root with
  | none =>
      rw [hroot] at found
      cases found
  | some root =>
      have hnodup := whole.nodup
      rw [hroot] at found hnodup
      obtain ⟨ls, hls, hreplace⟩ := Value.replace_found hnodup found new
      have htight := tight root hroot
      rw [hls] at htight
      simp only [DomState.storeContainer, hroot, Option.map_some, Option.some.injEq] at hv
      rw [← hv, hreplace]
      exact tight_plug htight hnew

theorem DomState.Whole.container (whole : s.Whole) {f : DomFrame} {c : Value}
    (found : s.container? f = some c) : c.Sound := by
  unfold DomState.container? at found
  cases hroot : s.root with
  | none =>
      rw [hroot] at found
      cases found
  | some root =>
      rw [hroot] at found
      obtain ⟨-, ls, rfl⟩ := root.exists_path found
      exact sound_of_plug (whole.sound _ hroot)

theorem DomState.Tight.container (tight : s.Tight) {f : DomFrame} {c : Value}
    (found : s.container? f = some c) : c.Tight := by
  unfold DomState.container? at found
  cases hroot : s.root with
  | none =>
      rw [hroot] at found
      cases found
  | some root =>
      rw [hroot] at found
      obtain ⟨-, ls, rfl⟩ := root.exists_path found
      exact tight_of_plug (tight _ hroot)

theorem attach_tight (tight : s.Tight) (whole : s.Whole) (hchild : child.Sound)
    (tightChild : child.Tight) (run : attach s (some child) = (.ok, s')) : s'.Tight := by
  unfold attach at run
  split at run
  · cases run
    rintro v ⟨⟩
    exact tightChild
  · split at run
    · cases run
    · next f hframe =>
        split at run
        · cases run
        · next c found =>
            have hsound := whole.container found
            have htight := tight.container found
            split at run
            · next hlist =>
                cases c with
                | list h slots =>
                    generalize happend : bencodeListAppend (some (.list h slots)) (some child)
                      s.mem = r at run
                    obtain ⟨st, out, m⟩ := r
                    cases bencodeListAppend_appended hsound hchild happend with
                    | nomem => cases run
                    | ok =>
                        cases run
                        exact tight.store whole found
                          (bencodeListAppend_tight hsound hchild htight tightChild happend)
                | int => cases hlist
                | string => cases hlist
                | dict => cases hlist
            · cases c with
              | dict h slots =>
                  generalize hset : bencodeDictSet (some (.dict h slots)) f.pendingKey
                    (some child) s.mem = r at run
                  obtain ⟨st, out, m⟩ := r
                  obtain ⟨hst, hs'⟩ := Prod.mk.inj run
                  dsimp only at hst hs'
                  subst hst
                  have hdict := (sound_dict_iff.mp hsound).1
                  have hkey := bencodeDictSet_key hset
                  intro v hv
                  rw [← hs', DomState.setFrame_root] at hv
                  cases bencodeDictSet_wasSet hdict hkey hset with
                  | replaced =>
                      have hnew := bencodeDictSet_tight hdict htight tightChild hset
                      exact tight.store whole found hnew v hv
                  | inserted =>
                      have hnew := bencodeDictSet_tight hdict htight tightChild hset
                      exact tight.store whole found hnew v hv
              | int => cases run
              | string => cases run
              | list => contradiction

theorem attachNew_tight {r : Status × Option Value × Memory} {a : AllocRef} (tight : s.Tight)
    (whole : s.Whole) (built : Built a Value.Tight s.mem r) (run : attachNew s r = (.ok, s')) :
    s'.Tight := by
  cases built with
  | nomem blocks refused =>
      rw [attachNew, if_pos (by simp)] at run
      cases run
  | @ok child m hchild tightChild alloc blocks granted =>
      rw [attachNew, if_neg (by simp)] at run
      dsimp only at run
      generalize hattach : attach { s with mem := m } (some child) = r at run
      obtain ⟨st, s₁⟩ := r
      by_cases hst : st = .ok
      · subst hst
        rw [if_neg (by simp)] at run
        cases run
        exact attach_tight (s := { s with mem := m }) tight ⟨whole.sound, whole.nodup⟩ hchild
          tightChild hattach
      · rw [if_pos hst] at run
        cases run
        exact absurd rfl hst

theorem openContainer_tight {type : ValueType} (checked : bencodeAllocatorCheck s.alloc = .ok)
    (tight : s.Tight) (whole : s.Whole) (run : openContainer s type = (.ok, s')) : s'.Tight := by
  have hempty : ∀ (P : Value → Prop), (∀ v, P v → (∃ h, v = .list h ⟨none, 0, []⟩) ∨
      ∃ h, v = .dict h ⟨none, 0, []⟩) → ∀ v, P v → v.Tight := by
    rintro P hP v hv
    rcases hP v hv with ⟨h, rfl⟩ | ⟨h, rfl⟩
    · exact tight_list_iff.mpr ⟨rfl, by simp⟩
    · exact tight_dict_iff.mpr ⟨rfl, by simp⟩
  have hbuilt : Built s.alloc Value.Tight s.mem
      (if type = .list then bencodeListNew s.alloc s.mem else bencodeDictNew s.alloc s.mem) := by
    split
    · exact (bencodeListNew_built checked s.mem).mono (hempty _ fun v hv => .inl hv)
    · exact (bencodeDictNew_built checked s.mem).mono (hempty _ fun v hv => .inr hv)
  unfold openContainer at run
  generalize (if type = .list then bencodeListNew s.alloc s.mem
    else bencodeDictNew s.alloc s.mem) = built at hbuilt run
  dsimp only at run
  generalize hattach : attachNew s built = r at run
  obtain ⟨st, s₁⟩ := r
  by_cases hst : st = .ok
  · subst hst
    rw [if_neg (by simp)] at run
    have htight := attachNew_tight tight whole hbuilt hattach
    split at run
    · cases run
    · split at run
      · cases run
      · cases run
        intro v hv
        exact htight v (by simpa using hv)
  · rw [if_pos hst] at run
    cases run
    exact absurd rfl hst

def Event.Fits : Event → Prop
  | .string _ bytes => bytes.length ≤ sizeMax
  | _ => True

theorem callBack_tight {e : Event} (checked : bencodeAllocatorCheck s.alloc = .ok)
    (fits : e.Fits) (tight : s.Tight) (whole : s.Whole)
    (run : callBack (some domCallbacks) e s = (.ok, s')) : s'.Tight := by
  have hpop : popFrame s = (.ok, s') → s'.Tight := by
    intro run
    unfold popFrame at run
    cases run
    split
    · exact tight
    · exact tight
  cases e with
  | int i =>
      refine attachNew_tight tight whole ((bencodeIntNew_built checked s.mem i).mono ?_) run
      rintro v ⟨h, rfl⟩
      trivial
  | string off bytes =>
      have hrun : domOnString off bytes s = (.ok, s') := run
      unfold domOnString at hrun
      split at hrun
      · cases hrun
        intro v hv
        exact tight v (by simpa using hv)
      · have hbuilt := bencodeStringNewBorrowed_built checked s.mem ⟨s.input, off⟩ fits
        refine attachNew_tight tight whole (hbuilt.mono ?_) hrun
        rintro v ⟨h, rfl⟩
        trivial
  | listBegin => exact openContainer_tight checked tight whole run
  | dictBegin => exact openContainer_tight checked tight whole run
  | listEnd => exact hpop run
  | dictEnd => exact hpop run

end Callbacks

/-! ## Runs -/

section Runs

variable {bufs : Buffers} {base limit : Nat} {m : Memory}

theorem Reads.event_fits {stack : List OpenScope} {pos : Nat} {tok : Bytes} {e : Event}
    {next : List OpenScope × Option Tree} (h : Reads limit stack pos tok e next) : e.Fits := by
  cases h with
  | string await bytes fits => exact fits
  | key done below k order fits => exact fits
  | int => trivial
  | listBegin => trivial
  | dictBegin => trivial
  | listEnd => trivial
  | dictEnd => trivial

/-- Wherever the builder has been told all events of a run, its tree is tight. -/
theorem domStart_tight {alloc : AllocRef} (checked : bencodeAllocatorCheck alloc = .ok)
    (cap : limit ≤ internalMaxDepth) {d : Config} {es : List Event}
    (run : Reaches (scanStep limit) (.start (bufs base)) es d) {s : DomState}
    (told : deliver .ok (callBack (some domCallbacks)) es (domStart (.buffer base) alloc m) =
      (.ok, s)) : s.Tight := by
  induction es using List.reverseRecOn generalizing d s with
  | nil =>
      cases told
      rintro v ⟨⟩
  | append_singleton es e ih =>
      obtain ⟨c, hfirst, hlast⟩ := run.split
      have hanswer := domStart_run checked hfirst cap m
      have hcall : deliver .ok (callBack (some domCallbacks)) (es ++ [e])
          (domStart (.buffer base) alloc m) = (.ok, s) := told
      generalize hbefore : deliver .ok (callBack (some domCallbacks)) es
        (domStart (.buffer base) alloc m) = r at hanswer
      cases hanswer with
      | nomem h =>
          rw [deliver_append, hbefore, if_neg (by simp)] at hcall
          cases hcall
      | @ok u h =>
          rw [deliver_append_of_go hbefore, deliver_singleton] at hcall
          cases hlast with
          | next head tail =>
              obtain ⟨-, tok, rest, next, -, read, -⟩ := scanStep_emit head
              have howns := h.2.running.owns
              exact callBack_tight howns.checked read.event_fits (ih hfirst hbefore) howns.whole
                hcall

/-! ## The bytes behind the tree -/

/-- The encoding of the tree around an open container: what has been read of the scopes further
out, the container, and one closing byte for each of them. -/
theorem plug_length {stack : List OpenScope} {ls : List Layer}
    (layers : List.Forall₂ (LayerHolds bufs) stack ls) (v : Value) :
    ((plug ls v).tree bufs).encode.length =
      (openEncode stack).length + (v.tree bufs).encode.length + stack.length := by
  induction layers generalizing v with
  | nil => simp [plug, openEncode]
  | @cons o l stack ls hl layers ih =>
      rw [plug, ih]
      cases l with
      | list hd block capacity front back =>
          cases o with
          | dict done key => cases key <;> simp [LayerHolds] at hl
          | list done =>
              obtain ⟨rfl, rfl⟩ := hl
              have hfill : (Layer.fill (.list hd block capacity front []) v).tree bufs =
                  .list (itemTrees bufs front ++ [v.tree bufs]) := by
                rw [Layer.fill, Value.tree, itemTrees_append]
                rfl
              simp only [hfill, Tree.encode, encodeItems_append, encodeItems, openEncode,
                OpenScope.encode, List.length_append, List.length_cons, List.length_nil]
              omega
      | dict hd block capacity front key back =>
          cases o with
          | list done => simp [LayerHolds] at hl
          | dict done k =>
              cases k with
              | none => simp [LayerHolds] at hl
              | some k =>
                  obtain ⟨rfl, rfl, rfl⟩ := hl
                  have hfill : (Layer.fill (.dict hd block capacity front key []) v).tree bufs =
                      .dict (entryTrees bufs front ++ [(key.bytes, v.tree bufs)]) := by
                    rw [Layer.fill, Value.tree, entryTrees_append]
                    rfl
                  simp only [hfill, Tree.encode, encodeEntries_append, encodeEntries, openEncode,
                    OpenScope.encode, List.length_append, List.length_cons, List.length_nil]
                  omega

/-- An open container is written with at most one byte more than has been read of it. -/
theorem ScopeHolds.length_le {o : OpenScope} {v : Value} (h : ScopeHolds bufs o v) :
    (v.tree bufs).encode.length ≤ o.encode.length + 1 := by
  cases v with
  | int => cases o <;> exact False.elim h
  | string => cases o <;> exact False.elim h
  | list hd slots =>
      cases o with
      | dict => exact False.elim h
      | list done =>
          obtain ⟨block, capacity, items⟩ := slots
          cases h
          simp [Value.tree, Tree.encode, OpenScope.encode]
  | dict hd slots =>
      cases o with
      | list => exact False.elim h
      | dict done key =>
          obtain ⟨block, capacity, entries⟩ := slots
          cases h
          cases key with
          | none => simp [Value.tree, Tree.encode, OpenScope.encode]
          | some k => simp [Value.tree, Tree.encode, OpenScope.encode]

theorem Builds.used_le {stack : List OpenScope} {result : Option Tree} {hist : List Event}
    {s : DomState} (h : Builds bufs base m stack result hist s) (tight : s.Tight) :
    s.mem.used ≤ m.used +
      bytesPerByte * ((consumedBy (stack, result)).length + stack.length) := by
  have howns := h.running.owns
  have hused : s.mem.used = m.used + weight (rootBlocks s.root) := howns.blocks.used_eq
  rw [hused]
  apply Nat.add_le_add_left
  cases h.growing with
  | empty root depth =>
      rw [root]
      exact Nat.zero_le _
  | @whole v _ root depth told =>
      have hle := v.weight_le bufs (howns.sound v root) (tight v root)
      rw [root, rootBlocks]
      simp only [consumedBy, List.length_nil, Nat.add_zero]
      omega
  | @inside o below _ v ls depth hangs holds frame =>
      have hle := (plug ls v).weight_le bufs (howns.sound _ hangs.root) (tight _ hangs.root)
      have hlen := plug_length hangs.layers v
      have hopen := holds.length_le
      rw [hangs.root, rootBlocks]
      refine (Nat.le_add_right _ 32).trans (hle.trans (Nat.mul_le_mul_left _ ?_))
      simp only [consumedBy, openEncode, List.length_append, List.length_cons] at hlen ⊢
      omega

/-! ## `bencode_parse` -/

theorem parseEnd_out {trailing : Bool} {size : Nat} {r : SaxResult DomState} {v : Value}
    (out : (parseEnd trailing size r).out = some v) : r.user.root = some v := by
  unfold parseEnd at out
  generalize (if r.status = .ok ∧ trailing = false ∧ r.consumed ≠ size then
    Status.errUnexpectedByte else r.status) = st at out
  dsimp only at out
  split at out
  · cases out
  · exact out

theorem bencodeParse_tight {input : InputArg} {opts : Option ParseOptions} {r : ParseResult}
    (run : bencodeParse bufs input opts m = .ok r) {v : Value} (out : r.out = some v) :
    v.Tight := by
  by_cases checked : bencodeAllocatorCheck (opts.getD .default).allocator = .ok
  · cases input with
    | null n =>
        have hparse : bencodeParse bufs (.null n) opts m = _ :=
          bencodeParse_eq checked (bencodeParseSax_nullInput n _ _ _)
        rw [hparse, parseEnd_bad (by dsimp only; split <;> simp)] at run
        cases run
        cases out
    | buffer base =>
        have cap := effectiveDepth_le (opts.getD .default).maxDepth
        obtain ⟨r', hrun, hreplay⟩ := bencodeParseSax_replays (.mem (bufs base)) rfl
          (some domCallbacks) (domStart (.buffer base) (opts.getD .default).allocator m)
          (opts.getD .default).maxDepth
        have hparse : bencodeParse bufs (.buffer base) opts m = _ := bencodeParse_eq checked hrun
        rw [hparse] at run
        cases run
        cases hreplay with
        | finished es scan told =>
            obtain ⟨d, reach, -⟩ := scan
            apply domStart_tight checked cap reach told v
            exact parseEnd_out out
        | refused es e d u bad reach pos told refusal =>
            rw [parseEnd_bad bad] at out
            cases out
  · rw [bencodeParse_unchecked checked] at run
    cases run
    cases out

theorem Parsed.used_le {trailing : Bool} {w : Bytes} {r : ParseResult}
    (h : Parsed bufs base limit trailing w m r) (tight : ∀ v, r.out = some v → v.Tight) :
    (r.status = .ok → r.mem.used + 32 ≤ m.used + bytesPerByte * r.consumed) ∧
      (r.status ≠ .ok → r.mem.used = m.used) := by
  cases h with
  | @accepted v rest es m' scan text whole sound told blocks granted =>
      refine ⟨fun _ => ?_, fun bad => absurd rfl bad⟩
      have hle := v.weight_le bufs sound (tight v rfl)
      have hused : m'.used = m.used + weight v.blocks := blocks.used_eq
      dsimp only
      omega
  | trailing scan strict more blocks granted =>
      exact ⟨fun h => (by cases h), fun _ => blocks.used_eq⟩
  | rejected scan bad blocks granted =>
      exact ⟨fun h => absurd h bad, fun _ => blocks.used_eq⟩
  | nomem blocks refused => exact ⟨fun h => (by cases h), fun _ => blocks.used_eq⟩

end Runs

/-- While `bencode_parse` builds a tree, whenever a callback is called the memory it has taken is
at most 36 bytes for each byte of the input and for each container that is open, of which there
are at most 256. The tree it returns takes at most 36 bytes for each byte it was read from, less
32, and when it returns none, nothing is taken. -/
theorem bencodeParse_footprint (bufs : Buffers) (input : InputArg) (opts : Option ParseOptions)
    (checked : bencodeAllocatorCheck (opts.getD .default).allocator = .ok) (m : Memory) :
    ∃ (r : ParseResult) (u : SaxResult (DomState × List (DomState × Event))),
      bencodeParse bufs input opts m = .ok r ∧
      bencodeParseSax (input.span bufs) (some domCallbacks.watched)
        (domStart input (opts.getD .default).allocator m, [])
        (opts.getD .default).maxDepth = .ok u ∧
      bencodeParseSax (input.span bufs) (some domCallbacks)
        (domStart input (opts.getD .default).allocator m) (opts.getD .default).maxDepth =
          .ok ⟨u.status, u.consumed, u.user.1⟩ ∧
      (∀ s e, (s, e) ∈ u.user.2 → s.depth ≤ 256 ∧
        s.mem.used ≤ m.used + 36 * ((input.span bufs).bytes.length + s.depth)) ∧
      (r.status = .ok → r.mem.used + 32 ≤ m.used + 36 * r.consumed) ∧
      (r.status ≠ .ok → r.mem.used = m.used) := by
  cases input with
  | null n =>
      have bad : (if n = 0 then Status.errTruncated else Status.errInvalidArg) ≠ .ok := by
        split <;> simp
      have hrun : bencodeParse bufs (.null n) opts m = _ :=
        bencodeParse_eq checked (bencodeParseSax_nullInput n _ _ _)
      rw [parseEnd_bad bad] at hrun
      refine ⟨_, _, hrun, bencodeParseSax_nullInput n _ _ _, bencodeParseSax_nullInput n _ _ _,
        ?_, fun h => absurd h bad, fun _ => rfl⟩
      intro s e h
      cases h
  | buffer base =>
      have cap := effectiveDepth_le (opts.getD .default).maxDepth
      obtain ⟨r, hrun, hparsed⟩ := bencodeParse_parsed bufs base opts checked m
      obtain ⟨u, hwatched, hplain, hcalls⟩ :=
        bencodeParseSax_watched domCallbacks (.mem (bufs base)) rfl
          (domStart (.buffer base) (opts.getD .default).allocator m) (opts.getD .default).maxDepth
      obtain ⟨hok, hbad⟩ := hparsed.used_le fun v hv => bencodeParse_tight hrun hv
      refine ⟨r, u, hrun, hwatched, hplain, ?_, hok, hbad⟩
      intro s e hcall
      obtain ⟨pre, d, reach, told⟩ := hcalls s e hcall
      obtain ⟨c, hfirst, hlast⟩ := reach.split
      have hanswer := domStart_run checked hfirst cap m
      rw [told] at hanswer
      cases hanswer with
      | ok h =>
          obtain ⟨sound, builds⟩ := h
          cases hlast with
          | next head tail =>
              obtain ⟨hopen, -⟩ := scanStep_emit head
              have hused := builds.used_le (domStart_tight checked cap hfirst told)
              have htext := congrArg List.length sound.consumed
              have hwell := sound.well
              rw [hopen] at builds hwell
              have hdepth := builds.growing.depth_eq
              have hlimit := WellOpen.length_le hwell
              rw [List.length_append] at htext
              rw [hdepth]
              refine ⟨hlimit.trans cap, hused.trans ?_⟩
              apply Nat.add_le_add_left
              apply Nat.mul_le_mul_left
              show _ ≤ (bufs base).length + _
              omega

/-- A list of two empty lists. -/
theorem bencodeParse_footprint_list :
    ∃ r, bencodeParse (fun _ => [108, 108, 101, 108, 101, 101]) (.buffer 0) (some ⟨0, none, true⟩)
        (.empty fun _ => false) = .ok r ∧ r.status = .ok ∧ r.mem.used + 32 ≤ 36 * 6 := by
  obtain ⟨r, u, hrun, -, -, -, hok, -⟩ :=
    bencodeParse_footprint (fun _ => [108, 108, 101, 108, 101, 101]) (.buffer 0)
      (some ⟨0, none, true⟩) rfl (.empty fun _ => false)
  have hresult : (bencodeParse (fun _ => [108, 108, 101, 108, 101, 101]) (.buffer 0)
      (some ⟨0, none, true⟩) (.empty fun _ => false)).toOption.map
        (fun r => (r.status, r.consumed)) = some (.ok, 6) := by decide +kernel
  rw [hrun] at hresult
  obtain ⟨hst, hconsumed⟩ := Prod.mk.inj (Option.some.inj hresult)
  have hle := hok hst
  rw [hconsumed] at hle
  exact ⟨r, hrun, hst, hle⟩

end Bencode
