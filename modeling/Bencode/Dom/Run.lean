import Bencode.Dom.Steps
import Bencode.Sax.Refinement
import Bencode.Value.Clean

/-!
# Whole runs of the DOM parser

Driven by the SAX parser the builder follows the scanner's run to its end, or runs
out of memory on the way. `bencode_parse` returns the finished tree or frees what
it has.
-/

namespace Bencode

open LabelledMachine Delivery

variable {bufs : Buffers} {base limit : Nat} {m : Memory}

/-! ## Following a run -/

theorem Sound.sliced {w : Bytes} {hist : List Event} {c : Config} (h : Sound limit w hist c)
    {tok rest : Bytes} (hr : c.rest = tok ++ rest) {e : Event}
    {next : List OpenScope × Option Tree} (read : Reads limit c.stack c.pos tok e next) :
    Sliced w e := by
  have hw := h.consumed
  have hpos := h.pos
  rw [hr] at hw
  have hstring : ∀ bytes, tok = encodeString bytes → Sliced w (stringEvent c.pos bytes) := by
    rintro bytes rfl
    have hlen : c.pos + (formatNat bytes.length).length + 1 =
        (consumedBy (c.stack, c.result) ++
          (formatNat bytes.length ++ [':'.toUInt8])).length := by
      simp [hpos, Nat.add_assoc]
    have hsplit : w = (consumedBy (c.stack, c.result) ++
        (formatNat bytes.length ++ [':'.toUInt8])) ++ (bytes ++ rest) := by
      rw [hw, encodeString]
      simp
    rw [stringEvent, Sliced, hlen, hsplit, List.drop_left, List.take_left]
  generalize c.stack = stack at read
  cases read with
  | int => trivial
  | string await bytes => exact hstring bytes rfl
  | listBegin => trivial
  | dictBegin => trivial
  | key done below k => exact hstring k rfl
  | listEnd => trivial
  | dictEnd => trivial

/-- The builder follows a run of the scanner. -/
theorem Builds.run {c d : Config} {es : List Event} (run : Reaches (scanStep limit) c es d)
    {hist : List Event} {s : DomState} (cap : limit ≤ internalMaxDepth)
    (sound : Sound limit (bufs base) hist c)
    (h : Builds bufs base m c.stack c.result hist s) :
    Answer m (fun s' => Sound limit (bufs base) (hist ++ es) d ∧
        Builds bufs base m d.stack d.result (hist ++ es) s')
      (deliver .ok (callBack (some domCallbacks)) es s) := by
  induction run generalizing hist s with
  | refl c =>
      rw [deliver_nil, List.append_nil]
      exact .ok ⟨sound, h⟩
  | @next c c₁ d e es head tail ih =>
      have sound₁ := sound.step head
      obtain ⟨hopen, tok, rest, next, hr, read, rfl⟩ := scanStep_emit head
      have hslice := sound.sliced hr read
      have hwell := sound.well
      rw [hopen] at h hwell
      have hstep := h.step hwell cap read hslice
      rw [deliver_cons]
      generalize callBack (some domCallbacks) e s = r at hstep
      cases hstep with
      | ok hnext =>
          rw [if_pos rfl]
          have htail := ih sound₁ hnext
          rwa [List.append_assoc] at htail
      | nomem hfail =>
          rw [if_neg (by simp)]
          exact .nomem hfail

theorem domStart_builds {alloc : AllocRef} (checked : bencodeAllocatorCheck alloc = .ok)
    (input : InputArg) (m : Memory) :
    Builds bufs input.base m [] none [] (domStart input alloc m) where
  running := {
    owns := ⟨checked, fun _ h => (by cases h), .refl m⟩
    granted := rfl
    input := rfl
    cap := rfl }
  growing := .empty rfl rfl

theorem domStart_run {alloc : AllocRef} (checked : bencodeAllocatorCheck alloc = .ok)
    {d : Config} {es : List Event} (run : Reaches (scanStep limit) (.start (bufs base)) es d)
    (cap : limit ≤ internalMaxDepth) (m : Memory) :
    Answer m (fun s => Sound limit (bufs base) es d ∧
        Builds bufs base m d.stack d.result es s)
      (deliver .ok (callBack (some domCallbacks)) es (domStart (.buffer base) alloc m)) :=
  Builds.run run cap (.of_reaches (.refl _)) (domStart_builds checked (.buffer base) m)

/-! ## `bencode_parse` -/

inductive Parsed (bufs : Buffers) (base limit : Nat) (trailing : Bool) (w : Bytes) (m : Memory) :
    ParseResult → Prop
  | accepted {v : Value} {rest : Bytes} {es : List Event} {m' : Memory}
      (scan : Scans limit w es .ok (v.tree bufs).encode.length)
      (text : w = (v.tree bufs).encode ++ rest) (whole : trailing = true ∨ rest = [])
      (sound : v.Sound) (told : List.Forall₂ (Visit.Tells bufs base) v.visits es)
      (blocks : m.Exchange m' 0 v.blocks) (granted : m'.refused = m.refused) :
      Parsed bufs base limit trailing w m ⟨.ok, some v, (v.tree bufs).encode.length, m'⟩
  | trailing {es : List Event} {off : Nat} {m' : Memory} (scan : Scans limit w es .ok off)
      (strict : trailing = false) (more : off ≠ w.length) (blocks : m.Exchange m' 0 0)
      (granted : m'.refused = m.refused) :
      Parsed bufs base limit trailing w m ⟨.errUnexpectedByte, none, off, m'⟩
  | rejected {es : List Event} {st : Status} {off : Nat} {m' : Memory}
      (scan : Scans limit w es st off) (bad : st ≠ .ok) (blocks : m.Exchange m' 0 0)
      (granted : m'.refused = m.refused) :
      Parsed bufs base limit trailing w m ⟨st, none, off, m'⟩
  | nomem {off : Nat} {m' : Memory} (blocks : m.Exchange m' 0 0)
      (refused : m.refused < m'.refused) :
      Parsed bufs base limit trailing w m ⟨.errNomem, none, off, m'⟩

theorem Owns.freed {s : DomState} (h : Owns m s) :
    m.Exchange (bencodeValueFree s.root s.mem) 0 0 ∧
      (bencodeValueFree s.root s.mem).refused = s.mem.refused := by
  obtain ⟨hfree, hsame⟩ := frees_root h.sound s.mem h.live
  exact ⟨((h.blocks.trans hfree).congr rfl (add_comm _ _)).cancel _, hsame⟩

theorem Failed.parsed {trailing : Bool} {w : Bytes} {s : DomState} {off : Nat}
    (h : Failed m s) : Parsed bufs base limit trailing w m
      ⟨.errNomem, none, off, bencodeValueFree s.root s.mem⟩ := by
  obtain ⟨hfree, hsame⟩ := h.owns.freed
  exact .nomem hfree (hsame ▸ h.refused)

/-- The end of `bencode_parse`, after the SAX run has returned `r`. -/
def parseEnd (trailing : Bool) (size : Nat) (r : SaxResult DomState) : ParseResult :=
  let st :=
    if r.status = .ok ∧ trailing = false ∧ r.consumed ≠ size then Status.errUnexpectedByte
    else r.status
  if st ≠ .ok then ⟨st, none, r.consumed, bencodeValueFree r.user.root r.user.mem⟩
  else ⟨.ok, r.user.root, r.consumed, r.user.mem⟩

theorem parseEnd_bad {trailing : Bool} {size : Nat} {r : SaxResult DomState}
    (bad : r.status ≠ .ok) : parseEnd trailing size r =
      ⟨r.status, none, r.consumed, bencodeValueFree r.user.root r.user.mem⟩ := by
  simp [parseEnd, bad]

theorem bencodeParse_eq {input : InputArg} {opts : Option ParseOptions} {r : SaxResult DomState}
    (checked : bencodeAllocatorCheck (opts.getD .default).allocator = .ok)
    (run : bencodeParseSax (input.span bufs) (some domCallbacks)
      (domStart input (opts.getD .default).allocator m) (opts.getD .default).maxDepth = .ok r) :
    bencodeParse bufs input opts m =
      .ok (parseEnd (opts.getD .default).allowTrailing (input.span bufs).len r) := by
  unfold bencodeParse
  simp only [checked, run]
  rw [if_neg (by simp), SaxM.ok_bind]
  exact (apply_ite Except.ok _ _ _).symm

/-- An allocator with a missing function is rejected before anything is read. -/
theorem bencodeParse_unchecked {input : InputArg} {opts : Option ParseOptions}
    (bad : bencodeAllocatorCheck (opts.getD .default).allocator ≠ .ok) :
    bencodeParse bufs input opts m =
      .ok ⟨bencodeAllocatorCheck (opts.getD .default).allocator, none, 0, m⟩ := by
  unfold bencodeParse
  rw [if_pos bad]
  rfl

/-- A finished run: its verdict decides, and trailing bytes may turn success into an error. -/
theorem Builds.parsed {trailing : Bool} {d : Config} {es : List Event} {st : Status} {off : Nat}
    {s : DomState} (run : Reaches (scanStep limit) (.start (bufs base)) es d)
    (stop : scanStep limit d = .stop (st, off)) (sound : Sound limit (bufs base) es d)
    (h : Builds bufs base m d.stack d.result es s) :
    Parsed bufs base limit trailing (bufs base) m (parseEnd trailing (bufs base).length
      ⟨st, off, s⟩) := by
  obtain ⟨running, growing⟩ := h
  obtain ⟨hfree, hsame⟩ := running.owns.freed
  have hgranted := hsame.trans running.granted
  have scan : Scans limit (bufs base) es st off := ⟨d, run, stop⟩
  by_cases bad : st ≠ .ok
  · rw [parseEnd_bad bad]
    exact .rejected scan bad hfree hgranted
  have hst : st = .ok := not_not.mp bad
  subst hst
  obtain ⟨t, ht, hoff⟩ := scanStep_stop_ok stop
  by_cases hmore : trailing = false ∧ off ≠ (bufs base).length
  · obtain ⟨rfl, hne⟩ := hmore
    simp only [parseEnd, hne, ne_eq, not_false_eq_true, and_self, if_true, reduceCtorEq]
    exact .trailing scan rfl hne hfree hgranted
  have hend : parseEnd trailing (bufs base).length ⟨.ok, off, s⟩ = ⟨.ok, s.root, off, s.mem⟩ := by
    simp only [parseEnd, true_and, if_neg hmore, ne_eq, not_true_eq_false, if_false]
  rw [hend]
  have htext := sound.consumed
  have hpos := sound.pos
  generalize d.stack = stack at growing htext hpos
  rw [ht] at growing htext hpos
  cases growing with
  | @whole v _ root depth told =>
      have hlen : off = (v.tree bufs).encode.length := hoff.trans hpos
      subst hlen
      have howned := running.owns.blocks
      rw [root] at howned
      rw [root]
      refine .accepted scan htext ?_ (running.owns.sound v root) told howned running.granted
      by_cases htrail : trailing = true
      · exact .inl htrail
      · right
        have hall : ((v.tree bufs).encode).length = (bufs base).length := by
          by_contra hne
          exact hmore ⟨by simpa using htrail, hne⟩
        rw [htext, consumedBy, List.length_append] at hall
        exact List.length_eq_zero_iff.mp (by omega)

theorem bencodeParse_parsed (bufs : Buffers) (base : Nat) (opts : Option ParseOptions)
    (checked : bencodeAllocatorCheck (opts.getD .default).allocator = .ok) (m : Memory) :
    ∃ r, bencodeParse bufs (.buffer base) opts m = .ok r ∧
      Parsed bufs base (effectiveDepth (opts.getD .default).maxDepth)
        (opts.getD .default).allowTrailing (bufs base) m r := by
  have cap := effectiveDepth_le (opts.getD .default).maxDepth
  obtain ⟨r, hrun, hreplay⟩ := bencodeParseSax_replays (.mem (bufs base)) rfl (some domCallbacks)
    (domStart (.buffer base) (opts.getD .default).allocator m) (opts.getD .default).maxDepth
  refine ⟨_, bencodeParse_eq checked hrun, ?_⟩
  show Parsed bufs base _ _ _ m (parseEnd _ (bufs base).length r)
  cases hreplay with
  | finished es scan told =>
      obtain ⟨d, run, stop⟩ := scan
      have hanswer := domStart_run checked run cap m
      rw [told] at hanswer
      obtain ⟨st, off, s⟩ := r
      cases hanswer with
      | ok h => exact h.2.parsed run stop h.1
  | refused es e d u bad run pos told refusal =>
      have hanswer := domStart_run checked run cap m
      rw [deliver_append_of_go told, deliver_singleton, refusal] at hanswer
      rw [parseEnd_bad bad]
      obtain ⟨st, off, s⟩ := r
      cases hanswer with
      | ok => exact absurd rfl bad
      | nomem h => exact h.parsed

/-! ## Memory -/

theorem Parsed.clean {trailing : Bool} {w : Bytes} {r : ParseResult}
    (h : Parsed bufs base limit trailing w m r) : CleanCall m r.status r.out r.mem := by
  have hsame : ∀ {m' : Memory}, m'.refused = m.refused → ¬ m.refused < m'.refused :=
    fun h => h ▸ Nat.lt_irrefl _
  cases h with
  | accepted scan text whole sound told blocks granted =>
      refine ⟨?_, blocks, fun bad => absurd rfl bad, fun h => absurd h (hsame granted)⟩
      rintro v ⟨⟩
      exact sound
  | trailing scan strict more blocks granted =>
      exact ⟨fun _ h => (by cases h), blocks, fun _ => rfl, fun h => absurd h (hsame granted)⟩
  | rejected scan bad blocks granted =>
      exact ⟨fun _ h => (by cases h), blocks, fun _ => rfl, fun h => absurd h (hsame granted)⟩
  | nomem blocks refused => exact ⟨fun _ h => (by cases h), blocks, fun _ => rfl, fun _ => rfl⟩

/-- `bencode_parse` ends on every input, and returns a tree that owns what was granted or
nothing. -/
theorem bencodeParse_clean (bufs : Buffers) (input : InputArg) (opts : Option ParseOptions)
    (m : Memory) :
    ∃ r, bencodeParse bufs input opts m = .ok r ∧ CleanCall m r.status r.out r.mem := by
  by_cases checked : bencodeAllocatorCheck (opts.getD .default).allocator = .ok
  · cases input with
    | null n =>
        refine ⟨_, bencodeParse_eq checked (bencodeParseSax_nullInput n _ _ _), ?_⟩
        rw [parseEnd_bad (by dsimp only; split <;> simp)]
        exact .idle m _
    | buffer base =>
        obtain ⟨r, hrun, hparsed⟩ := bencodeParse_parsed bufs base opts checked m
        exact ⟨r, hrun, hparsed.clean⟩
  · exact ⟨_, bencodeParse_unchecked checked, .idle m _⟩

end Bencode
