import Bencode.Client.Simulation
import Bencode.Dom.Footprint
import Bencode.Spec.Completeness
import Bencode.Value.Requests

/-!
# Every call is answered by the shelf

The calls one by one: each is carried out, with the reply of the shelf, and leaves the trees
that the shelf has then.
-/

namespace Bencode

open LabelledMachine

/-! ## Containers -/

section Containers

variable {s : Desk} {bufs : Buffers} {m : Memory}

theorem listAppend_nothing {ts : Shelf} {p : Place} {child : Nat} (apart : child ≠ p.handle)
    (nothing : ts.at? p = none ∨ ts.tree? child = none) :
    ts.takes (.listAppend p child apart) = some (.errInvalidArg, ts) := by
  rw [Shelf.takes]
  rcases nothing with h | h
  · simp only [h]
  · rw [h]
    split
    · contradiction
    · rfl

theorem dictSet_nothing {ts : Shelf} {p : Place} {child : Nat} (key : Span)
    (apart : child ≠ p.handle) (nothing : ts.at? p = none ∨ ts.tree? child = none) :
    ts.takes (.dictSet p key child apart) = some (.errInvalidArg, ts) := by
  rw [Shelf.takes]
  rcases nothing with h | h
  · simp only [h]
  · rw [h]
    split
    · contradiction
    · rfl

theorem listAppend_offering {v w : Value} {p : Place} {child : Nat} (apart : child ≠ p.handle)
    (hv : v.Sound) (hw : w.Sound) (live : v.blocks ≤ s.mem.live)
    (here : (s.trees bufs).at? p = some (v.tree bufs))
    (offered : (s.trees bufs).tree? child = some (w.tree bufs)) :
    Offering bufs s p child (.listAppend p child apart) v w
      (bencodeListAppend (some v) (some w) s.mem) := by
  cases v with
  | list h slots =>
      generalize hrun : bencodeListAppend (some (.list h slots)) (some w) s.mem = r
      obtain ⟨st, out, m'⟩ := r
      have happended := bencodeListAppend_appended hv hw hrun
      refine .attached (t := .list (itemTrees bufs slots.items ++ [w.tree bufs]))
        (happended.attached hv live) ?_ ?_
      · rintro new rfl rfl
        cases happended with
        | @ok slots' m' sound items blocks =>
            obtain ⟨block', capacity', items'⟩ := slots'
            have hitems : items' = slots.items ++ [w] := items
            rw [Value.tree, hitems, itemTrees_append]
            rfl
      · obtain ⟨block, capacity, items⟩ := slots
        simp only [Shelf.takes, here, offered, Value.tree]
  | int => exact .rejected (by simp only [Shelf.takes, here, offered, Value.tree])
  | string => exact .rejected (by simp only [Shelf.takes, here, offered, Value.tree])
  | dict => exact .rejected (by simp only [Shelf.takes, here, offered, Value.tree])

theorem dictSet_offering {v w : Value} {p : Place} {child : Nat} (key : Span)
    (apart : child ≠ p.handle) (hv : v.Sound) (hw : w.Sound) (live : v.blocks ≤ s.mem.live)
    (here : (s.trees bufs).at? p = some (v.tree bufs))
    (offered : (s.trees bufs).tree? child = some (w.tree bufs)) :
    Offering bufs s p child (.dictSet p key child apart) v w
      (bencodeDictSet (some v) key (some w) s.mem) := by
  cases v with
  | dict h slots =>
      by_cases hbad : key.isBad = true
      · have hrun : bencodeDictSet (some (.dict h slots)) key (some w) s.mem =
            (.errInvalidArg, some (.dict h slots), s.mem) := by
          rw [bencodeDictSet, if_pos hbad]
        rw [hrun]
        obtain ⟨block, capacity, entries⟩ := slots
        exact .rejected (by simp only [Shelf.takes, here, offered, Value.tree, if_pos hbad])
      · have hvalid := Bool.eq_false_iff.mpr hbad
        generalize hrun : bencodeDictSet (some (.dict h slots)) key (some w) s.mem = r
        obtain ⟨st, out, m'⟩ := r
        have hdict := (sound_dict_iff.mp hv).1
        have hset := bencodeDictSet_wasSet hdict hvalid hrun
        refine .attached
          (t := .dict (setEntry key.bytes (w.tree bufs) (entryTrees bufs slots.items)))
          (hset.attached hv hw live) ?_ ?_
        · rintro new rfl rfl
          exact hset.tree hdict.sorted
        · obtain ⟨block, capacity, entries⟩ := slots
          simp only [Shelf.takes, here, offered, Value.tree, if_neg hbad]
  | int => exact .rejected (by simp only [Shelf.takes, here, offered, Value.tree])
  | string => exact .rejected (by simp only [Shelf.takes, here, offered, Value.tree])
  | list => exact .rejected (by simp only [Shelf.takes, here, offered, Value.tree])

theorem listAppend_mirrors (consistent : Consistent m s.client) (p : Place) (child : Nat)
    (apart : child ≠ p.handle) :
    ∃ r, s.act bufs (.listAppend p child apart) = .ok r ∧
      Mirrors bufs s (.listAppend p child apart) r := by
  obtain ⟨out, hresolve, resolved⟩ := @resolve_resolved s bufs m consistent p
  refine ⟨_, by rw [Desk.act, hresolve]; rfl, ?_⟩
  apply offer_mirrors consistent apart resolved
  · exact fun null => bencodeListAppend_null null s.mem
  · exact listAppend_nothing apart
  · exact fun rest found => .listAppend rest s.mem found
  · exact listAppend_offering apart

theorem dictSet_mirrors (consistent : Consistent m s.client) (p : Place) (key : Span)
    (child : Nat) (apart : child ≠ p.handle) :
    ∃ r, s.act bufs (.dictSet p key child apart) = .ok r ∧
      Mirrors bufs s (.dictSet p key child apart) r := by
  obtain ⟨out, hresolve, resolved⟩ := @resolve_resolved s bufs m consistent p
  refine ⟨_, by rw [Desk.act, hresolve]; rfl, ?_⟩
  refine @offer_mirrors s bufs m p child _ (fun v w m => bencodeDictSet v key w m) consistent
    apart out resolved ?_ ?_ ?_ ?_
  · exact fun null => bencodeDictSet_null key null s.mem
  · exact dictSet_nothing key apart
  · exact fun rest found => .dictSet rest s.mem key found
  · exact dictSet_offering key apart

end Containers

/-! ## Parsing -/

mutual

theorem Tree.fits_of_events (t : Tree) {pos : Nat} (h : ∀ e ∈ t.events pos, e.Fits) :
    t.Fits := by
  cases t with
  | int i => trivial
  | string bytes => exact h _ (List.mem_singleton_self _)
  | list items =>
      refine @fitsItems_of_events items (pos + 1) ?_
      intro e he
      exact h e (List.mem_cons_of_mem _ (List.mem_append_left _ he))
  | dict entries =>
      refine @fitsEntries_of_events entries (pos + 1) ?_
      intro e he
      exact h e (List.mem_cons_of_mem _ (List.mem_append_left _ he))

theorem fitsItems_of_events (ts : List Tree) {pos : Nat} (h : ∀ e ∈ itemsEvents ts pos, e.Fits) :
    FitsItems ts := by
  cases ts with
  | nil => trivial
  | cons t ts =>
      exact ⟨t.fits_of_events fun e he => h e (List.mem_append_left _ he),
        fitsItems_of_events ts fun e he => h e (List.mem_append_right _ he)⟩

theorem fitsEntries_of_events (es : List (Bytes × Tree)) {pos : Nat}
    (h : ∀ e ∈ entriesEvents es pos, e.Fits) : FitsEntries es := by
  cases es with
  | nil => trivial
  | cons e es =>
      obtain ⟨k, t⟩ := e
      refine ⟨h _ List.mem_cons_self, ?_, ?_⟩
      · apply t.fits_of_events
        intro e he
        exact h e (List.mem_cons_of_mem _ (List.mem_append_left _ he))
      · apply fitsEntries_of_events es
        intro e he
        exact h e (List.mem_cons_of_mem _ (List.mem_append_right _ he))

end

theorem reaches_fits {limit : Nat} {c d : Config} {es : List Event}
    (run : Reaches (scanStep limit) c es d) : ∀ e ∈ es, e.Fits := by
  induction run with
  | refl => exact fun e he => absurd he List.not_mem_nil
  | next head tail ih =>
      obtain ⟨-, tok, rest, next, -, read, -⟩ := scanStep_emit head
      intro e he
      rcases List.mem_cons.mp he with rfl | he
      · exact read.event_fits
      · exact ih e he

theorem Scans.regular {limit : Nat} {w : Bytes} {es : List Event} {off : Nat}
    (scan : Scans limit w es .ok off) :
    ∃ (t : Tree) (z : Bytes), w = t.encode ++ z ∧ off = t.encode.length ∧ t.Canonical ∧ t.Fits ∧
      t.nesting ≤ limit := by
  obtain ⟨t, z, text, hoff, hes, canonical, shallow⟩ := scan.sound
  obtain ⟨d, run, -⟩ := scan
  have hfits := reaches_fits run
  rw [hes] at hfits
  exact ⟨t, z, text, hoff, canonical, t.fits_of_events hfits, shallow⟩

section Parsing

variable {s : Desk} {bufs : Buffers}

def parsedDesk (s : Desk) (r : ParseResult) : Reply × Desk :=
  (.parsed r.status r.consumed, ⟨s.handles ++ [r.out], r.mem⟩)

theorem parsedDesk_trees (s : Desk) (r : ParseResult) :
    (parsedDesk s r).2.trees bufs = s.trees bufs ++ [r.out.map (Value.tree bufs)] := by
  simp [parsedDesk, Desk.trees]

theorem Decodes.acts {input : InputArg} {opts : Option ParseOptions} {r : ParseResult}
    (h : Decodes bufs (opts.getD .default) input r.status r.consumed
      (r.out.map (Value.tree bufs)))
    (granted : r.mem.refused = s.mem.refused) :
    (s.trees bufs).Acts bufs ⟨.parse input opts, (parsedDesk s r).1,
      decide (s.mem.refused < (parsedDesk s r).2.mem.refused)⟩ ((parsedDesk s r).2.trees bufs) := by
  rw [parsedDesk_trees]
  simp only [parsedDesk, granted, Nat.lt_irrefl, decide_false]
  exact .parsed h

theorem Parsed.acts {base : Nat} {opts : Option ParseOptions} {r : ParseResult}
    (checked : bencodeAllocatorCheck (opts.getD .default).allocator = .ok)
    (h : Parsed bufs base (effectiveDepth (opts.getD .default).maxDepth)
      (opts.getD .default).allowTrailing (bufs base) s.mem r) :
    (s.trees bufs).Acts bufs ⟨.parse (.buffer base) opts, (parsedDesk s r).1,
      decide (s.mem.refused < (parsedDesk s r).2.mem.refused)⟩ ((parsedDesk s r).2.trees bufs) := by
  cases h with
  | @accepted v rest es m' scan text whole sound told blocks granted =>
      obtain ⟨t, z, htext, hoff, canonical, fits, shallow⟩ := scan.regular
      have hsame := Tree.encode_injective (sound.canonical bufs v) (sound.fits bufs v) canonical
        fits (text.symm.trans htext)
      refine Decodes.acts (.value checked (sound.canonical bufs v) (sound.fits bufs v) ?_ text
        whole) granted
      rw [hsame.1]
      exact shallow
  | @trailing es off m' scan strict more blocks granted =>
      obtain ⟨t, z, htext, hoff, canonical, fits, shallow⟩ := scan.regular
      subst hoff
      refine Decodes.acts (.trailing checked canonical fits shallow htext strict ?_) granted
      rintro rfl
      rw [List.append_nil] at htext
      exact more (by rw [htext])
  | rejected scan bad blocks granted =>
      exact Decodes.acts (.flawed checked bad ((scans_flaw_iff scan bad).mp ⟨rfl, rfl⟩)) granted
  | nomem blocks refused =>
      rw [parsedDesk_trees]
      simp only [parsedDesk, refused, decide_true]
      exact .unparsed checked

theorem parse_mirrors (s : Desk) (bufs : Buffers) (input : InputArg)
    (opts : Option ParseOptions) :
    ∃ r, s.act bufs (.parse input opts) = .ok r ∧ Mirrors bufs s (.parse input opts) r := by
  have hclient : ∀ {r : ParseResult}, bencodeParse bufs input opts s.mem = .ok r →
      s.act bufs (.parse input opts) = .ok (parsedDesk s r) ∧
        ClientStep s.client (parsedDesk s r).2.client ∧ s.mem.refused ≤ r.mem.refused := by
    intro r hrun
    have hstep := ClientStep.parse s.client bufs input opts r hrun
    rw [← Desk.receive_client] at hstep
    obtain ⟨r', hrun', hclean⟩ := bencodeParse_clean bufs input opts s.mem
    cases hrun.symm.trans hrun'
    exact ⟨by rw [Desk.act, hrun]; rfl, hstep, hclean.blocks.refused⟩
  by_cases checked : bencodeAllocatorCheck (opts.getD .default).allocator = .ok
  · cases input with
    | null n =>
        have bad : (if n = 0 then Status.errTruncated else Status.errInvalidArg) ≠ .ok := by
          split <;> simp
        have hrun : bencodeParse bufs (.null n) opts s.mem = _ :=
          bencodeParse_eq checked (bencodeParseSax_nullInput n _ _ _)
        rw [parseEnd_bad bad] at hrun
        obtain ⟨hact, hstep, hrefused⟩ := hclient hrun
        exact ⟨_, hact, .inr hstep, hrefused, Decodes.acts (.null checked) rfl⟩
    | buffer base =>
        obtain ⟨r, hrun, hparsed⟩ := bencodeParse_parsed bufs base opts checked s.mem
        obtain ⟨hact, hstep, hrefused⟩ := hclient hrun
        exact ⟨_, hact, .inr hstep, hrefused, hparsed.acts checked⟩
  · obtain ⟨hact, hstep, hrefused⟩ := hclient (bencodeParse_unchecked checked)
    exact ⟨_, hact, .inr hstep, hrefused, Decodes.acts (.unchecked checked) rfl⟩

end Parsing

/-! ## New trees -/

section Making

variable {s : Desk} {bufs : Buffers} {m : Memory}

theorem receive_mirrors {c : Command} {r : Status × Option Value × Memory}
    (call : ClientStep s.client (Client.receive s.client.roots r))
    (clean : CleanCall s.mem r.1 r.2.1 r.2.2)
    (acts : (s.trees bufs).Acts bufs ⟨c, (s.receive r).1,
      decide (s.mem.refused < (s.receive r).2.mem.refused)⟩ ((s.receive r).2.trees bufs)) :
    Mirrors bufs s c (s.receive r) :=
  ⟨.inr (s.receive_client r ▸ call), clean.blocks.refused, acts⟩

theorem clone_mirrors (consistent : Consistent m s.client) (p : Place) (a : AllocRef) :
    ∃ r, s.act bufs (.clone p a) = .ok r ∧ Mirrors bufs s (.clone p a) r := by
  obtain ⟨out, hresolve, resolved⟩ := @resolve_resolved s bufs m consistent p
  refine ⟨s.receive (bencodeValueClone bufs out a s.mem), by rw [Desk.act, hresolve]; rfl, ?_⟩
  have hclean := bencodeValueClone_clean bufs out a s.mem
  cases resolved with
  | null nothing =>
      have hmakes : (s.trees bufs).makes (.clone p a) = some (checkedBy a none) := by
        rw [Shelf.makes, nothing]
      have hrun : bencodeValueClone bufs none a s.mem =
          ((checkedBy a none).1, none, s.mem) := by
        rw [bencodeValueClone, checkedBy]
        by_cases checked : bencodeAllocatorCheck a = .ok
        · rw [if_pos checked, checked]
        · rw [if_neg checked, allocatorCheck_bad checked]
      refine receive_mirrors (.clone s.client bufs none a fun v hv => (by cases hv)) hclean ?_
      rw [hrun]
      apply rejected_acts
      rw [hmakes, checkedBy]
      split <;> rfl
  | @node root v ls handle plugged here around =>
      have hresolved : Resolved bufs s p (some v) := .node handle plugged here around
      have held := hresolved.holds consistent
      refine receive_mirrors (.clone s.client bufs (some v) a ?_) hclean ?_
      · rintro w ⟨⟩
        exact held
      · have hsound := consistent.sound_of_holds held
        apply (bencodeValueClone_creates (hsound.canonical bufs v) a s.mem).acts
        rw [Shelf.makes, here]

theorem stringNew_mirrors (s : Desk) (bufs : Buffers) (bytes : Span) (a : AllocRef) :
    Mirrors bufs s (.stringNew bytes a) (s.receive (bencodeStringNew bytes a s.mem)) := by
  refine receive_mirrors (.stringNew s.client bytes a) (bencodeStringNew_clean bytes a s.mem) ?_
  by_cases hbad : bytes.isBad = true
  · have hrun : bencodeStringNew bytes a s.mem = (.errInvalidArg, none, s.mem) := by
      rw [bencodeStringNew, if_pos hbad]
    rw [hrun]
    apply rejected_acts
    rw [Shelf.makes, if_pos hbad]
  · apply (bencodeStringNew_creates bufs (Bool.eq_false_iff.mpr hbad) a s.mem).acts
    rw [Shelf.makes, if_neg hbad]

theorem free_mirrors (s : Desk) (bufs : Buffers) (handle : Nat) :
    Mirrors bufs s (.free handle)
      (.freed, ⟨s.handles.set handle none, bencodeValueFree (s.pointer handle) s.mem⟩) := by
  have hrefused := (bencodeValueFree_quiet (s.pointer handle) s.mem).refused
  refine ⟨?_, Nat.le_of_eq hrefused.symm, ?_⟩
  · cases hp : s.pointer handle with
    | some v =>
        right
        have hroots := Desk.roots_pointer (Desk.pointer_eq_some.mp hp)
        have hstep := ClientStep.valueFree v (Desk.roots (s.handles.set handle none)) s.mem
        rwa [← hroots] at hstep
    | none =>
        left
        have hsame : s.handles.set handle none = s.handles := by
          apply List.ext_getElem?
          intro i
          by_cases hi : handle = i
          · subst hi
            rw [Desk.pointer, Option.join_eq_none_iff] at hp
            rw [List.getElem?_set_self']
            rcases hp with h | h
            · rw [h]
              rfl
            · rw [h]
              rfl
          · rw [List.getElem?_set_ne hi]
        rw [hsame]
        rfl
  · simp only [hrefused, Nat.lt_irrefl, decide_false, Desk.trees, List.map_set, Option.map_none]
    exact .freed handle

end Making

/-! ## Readers -/

section Reading

variable {s : Desk} {bufs : Buffers} {m : Memory} {p : Place} {out : Option Value}

theorem readers_eq (bufs : Buffers) (out : Option Value) :
    Desk.readers bufs out = Tree.facts (out.map (Value.tree bufs)) := by
  cases out with
  | none => rfl
  | some v =>
      cases v with
      | int => rfl
      | string => rfl
      | list h slots =>
          obtain ⟨block, capacity, items⟩ := slots
          simp [Desk.readers, Tree.facts, Value.tree, length_itemTrees, bencodeValueType,
            bencodeValueInt, bencodeValueString, bencodeListSize, bencodeDictSize]
      | dict h slots =>
          obtain ⟨block, capacity, entries⟩ := slots
          simp [Desk.readers, Tree.facts, Value.tree, length_entryTrees, bencodeValueType,
            bencodeValueInt, bencodeValueString, bencodeListSize, bencodeDictSize]

theorem readKey_eq (bufs : Buffers) (i : Nat) (out : Option Value) :
    Desk.readKey out i = Tree.keyAt i (out.map (Value.tree bufs)) := by
  cases out with
  | none => rfl
  | some v =>
      cases v with
      | int => rfl
      | string => rfl
      | list h slots => rfl
      | dict h slots =>
          obtain ⟨block, capacity, entries⟩ := slots
          have hentry : (entryTrees bufs entries)[i]? =
              entries[i]?.map fun e => (e.key.bytes, e.value.tree bufs) := by
            rw [entryTrees_eq_map, List.getElem?_map]
          simp only [Desk.readKey, bencodeDictAt, Option.map_some, Value.tree, Tree.keyAt, hentry]
          cases entries[i]? with
          | none => rfl
          | some e =>
              have hbytes : e.key.span.bytes = e.key.bytes := by cases e.key <;> rfl
              simp only [Option.map_some, hbytes]

theorem written_eq {v : Value} (fits : (v.tree bufs).Fits) :
    Desk.written bufs (some v) = Tree.written (some (v.tree bufs)) := by
  obtain ⟨user', hrun⟩ := bencodeEmit_accepting bufs v fits (fun _ (u : Unit) => u) ()
  simp only [Desk.written, hrun, Tree.written]

theorem Resolved.at?_eq (h : Resolved bufs s p out) :
    (s.trees bufs).at? p = out.map (Value.tree bufs) := by
  cases h with
  | null nothing => exact nothing
  | node handle plugged here around => exact here

theorem tells_mirrors {c : Command} {reply : Reply}
    (tells : (s.trees bufs).tells c = some reply) : Mirrors bufs s c (reply, s) := by
  refine ⟨.inl rfl, Nat.le_refl _, ?_⟩
  simp only [Nat.lt_irrefl, decide_false]
  exact .told tells

end Reading

/-! ## One call -/

/-- Every call is carried out, and the shelf gives the same reply. -/
theorem act_mirrors {s : Desk} {m : Memory} (consistent : Consistent m s.client)
    (bufs : Buffers) (c : Command) : ∃ r, s.act bufs c = .ok r ∧ Mirrors bufs s c r := by
  cases c with
  | intNew i a =>
      exact ⟨_, rfl, receive_mirrors (.intNew s.client i a) (bencodeIntNew_clean i a s.mem)
        ((bencodeIntNew_creates bufs i a s.mem).acts rfl)⟩
  | stringNew bytes a => exact ⟨_, rfl, stringNew_mirrors s bufs bytes a⟩
  | listNew a =>
      exact ⟨_, rfl, receive_mirrors (.listNew s.client a) (bencodeListNew_clean a s.mem)
        ((bencodeListNew_creates bufs a s.mem).acts rfl)⟩
  | dictNew a =>
      exact ⟨_, rfl, receive_mirrors (.dictNew s.client a) (bencodeDictNew_clean a s.mem)
        ((bencodeDictNew_creates bufs a s.mem).acts rfl)⟩
  | clone p a => exact clone_mirrors consistent p a
  | parse input opts => exact parse_mirrors s bufs input opts
  | listAppend p child apart => exact listAppend_mirrors consistent p child apart
  | dictSet p key child apart => exact dictSet_mirrors consistent p key child apart
  | free handle => exact ⟨_, rfl, free_mirrors s bufs handle⟩
  | look p =>
      obtain ⟨out, hresolve, resolved⟩ := @resolve_resolved s bufs m consistent p
      refine ⟨_, by rw [Desk.act, hresolve]; rfl, tells_mirrors ?_⟩
      rw [Shelf.tells, resolved.at?_eq, readers_eq]
  | keyAt p i =>
      obtain ⟨out, hresolve, resolved⟩ := @resolve_resolved s bufs m consistent p
      refine ⟨_, by rw [Desk.act, hresolve]; rfl, tells_mirrors ?_⟩
      rw [Shelf.tells, resolved.at?_eq, readKey_eq bufs]
  | emit p =>
      obtain ⟨out, hresolve, resolved⟩ := @resolve_resolved s bufs m consistent p
      refine ⟨_, by rw [Desk.act, hresolve]; rfl, tells_mirrors ?_⟩
      rw [Shelf.tells, resolved.at?_eq]
      cases resolved with
      | null nothing => rfl
      | @node root v ls handle plugged here around =>
          have hresolved : Resolved bufs s p (some v) := .node handle plugged here around
          have hsound := consistent.sound_of_holds (hresolved.holds consistent)
          rw [written_eq (hsound.fits bufs v)]
          rfl

end Bencode
