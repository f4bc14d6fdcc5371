import Bencode.Cli.Output
import Bencode.Dom.RoundTrip
import Bencode.Spec.Blocked
import Bencode.Spec.Completeness

/-!
# Reading the input

`read_all` returns the whole file, unless the file cannot be read or memory runs out, and
`load` returns the tree of the content or the exit code of what went wrong.
-/

namespace Bencode

/-! ## Memory that is given back -/

theorem free_refused (ptr : Option MemBlock) (m : Memory) : (free ptr m).refused = m.refused :=
  bencodeFree_refused none ptr m

mutual

theorem valueFree_refused (v : Value) (m : Memory) : (valueFree v m).refused = m.refused := by
  cases v with
  | int h i => exact bencodeFree_refused _ _ m
  | string h str =>
      cases str with
      | literal => exact bencodeFree_refused _ _ m
      | borrowed ptr len => exact bencodeFree_refused _ _ m
      | owned block bytes => rw [valueFree, bencodeFree_refused, bencodeFree_refused]
  | list h slots =>
      obtain ⟨block, capacity, items⟩ := slots
      rw [valueFree, bencodeFree_refused, bencodeFree_refused, freeItems_refused items]
  | dict h slots =>
      obtain ⟨block, capacity, entries⟩ := slots
      rw [valueFree, bencodeFree_refused, bencodeFree_refused, freeEntries_refused entries]

theorem freeItems_refused (vs : List Value) (m : Memory) :
    (freeItems vs m).refused = m.refused := by
  cases vs with
  | nil => rfl
  | cons v vs => rw [freeItems, freeItems_refused vs, valueFree_refused v]

theorem freeEntries_refused (es : List (Entry Value)) (a : AllocRef) (m : Memory) :
    (freeEntries es a m).refused = m.refused := by
  cases es with
  | nil => rfl
  | cons e es =>
      obtain ⟨key, v⟩ := e
      rw [freeEntries, freeEntries_refused es, valueFree_refused v, bencodeFree_refused]

end

theorem bencodeValueFree_refused (value : Option Value) (m : Memory) :
    (bencodeValueFree value m).refused = m.refused := by
  cases value with
  | none => rfl
  | some v => exact valueFree_refused v m

/-! ## `read_all` -/

/-- The capacity at which the buffer cannot be doubled any more. -/
def largestBuffer : Nat := 2 ^ 63

/-- The file can be read to its end, and the end is seen before the buffer has become too large. -/
structure InputFile.Readable (file : InputFile) : Prop where
  opens : file.opens = true
  ends : file.fails = false
  fits : file.content.length < largestBuffer

inductive ReadEnd (fails : Bool) (content : Bytes) (m : Memory) : Option ReadBuffer → Memory → Prop
  | read {buf : ReadBuffer} {m' : Memory} (whole : buf.bytes = content) (ends : fails = false)
      (fits : content.length < largestBuffer) (granted : m'.refused = m.refused) :
      ReadEnd fails content m (some buf) m'
  | unreadable {m' : Memory} (bad : fails = true ∨ largestBuffer ≤ content.length)
      (granted : m'.refused = m.refused) : ReadEnd fails content m none m'
  | nomem {m' : Memory} (refused : m.refused < m'.refused) : ReadEnd fails content m none m'

theorem malloc_some {size : Nat} {m m' : Memory} {b : MemBlock} (h : malloc size m = (some b, m')) :
    m'.refused = m.refused := (BlockLedger.request_some h).2.2.2.1

theorem malloc_none {size : Nat} {m m' : Memory} (h : malloc size m = (none, m')) :
    m.refused < m'.refused := by
  have hrefused := (BlockLedger.request_none h).1
  omega

structure ReadBuffer.Doubled (buf : ReadBuffer) : Prop where
  power : ∃ k, k ≤ 63 ∧ buf.cap = 2 ^ k
  count : buf.bytes.length ≤ buf.cap

inductive RoomMade (buf : ReadBuffer) (m : Memory) : Option ReadBuffer → Memory → Prop
  | grown {buf' : ReadBuffer} {m' : Memory} (doubled : buf'.Doubled)
      (same : buf'.bytes = buf.bytes) (room : buf'.bytes.length < buf'.cap)
      (granted : m'.refused = m.refused) : RoomMade buf m (some buf') m'
  | tooLarge {m' : Memory} (large : largestBuffer ≤ buf.bytes.length)
      (granted : m'.refused = m.refused) : RoomMade buf m none m'
  | nomem {m' : Memory} (refused : m.refused < m'.refused) : RoomMade buf m none m'

theorem growBuf_roomMade {buf : ReadBuffer} (doubled : buf.Doubled)
    (full : buf.bytes.length = buf.cap) (m : Memory) :
    RoomMade buf m (growBuf buf m).1 (growBuf buf m).2 := by
  obtain ⟨k, hk, hcap⟩ := doubled.power
  have hhalf : sizeMax / 2 = 2 ^ 63 - 1 := by decide
  unfold growBuf
  by_cases hlarge : buf.cap > sizeMax / 2
  · rw [if_pos hlarge]
    refine .tooLarge ?_ (free_refused _ m)
    unfold largestBuffer
    omega
  · rw [if_neg hlarge]
    have hk' : k ≤ 62 := by
      by_contra hne
      have heq : k = 63 := by omega
      rw [hcap, heq, hhalf] at hlarge
      exact hlarge (by decide)
    have hnext : buf.cap * 2 % sizeMod = 2 ^ (k + 1) := by
      rw [hcap, ← Nat.pow_succ]
      exact Nat.mod_eq_of_lt (Nat.pow_lt_pow_right (by decide) (by omega))
    cases halloc : malloc (buf.cap * 2 % sizeMod) m with
    | mk grown m₁ =>
        cases grown with
        | none =>
            refine .nomem ?_
            dsimp only
            rw [free_refused]
            exact malloc_none halloc
        | some grown =>
            have hlt : buf.bytes.length < 2 ^ (k + 1) := by
              rw [full, hcap]
              exact Nat.pow_lt_pow_right (by decide) (Nat.lt_succ_self k)
            dsimp only
            rw [hnext]
            refine .grown ⟨⟨k + 1, by omega, rfl⟩, hlt.le⟩ rfl hlt ?_
            rw [free_refused]
            exact malloc_some halloc

theorem room_roomMade {buf : ReadBuffer} (doubled : buf.Doubled) (m : Memory) :
    RoomMade buf m (if buf.bytes.length = buf.cap then growBuf buf m else (some buf, m)).1
      (if buf.bytes.length = buf.cap then growBuf buf m else (some buf, m)).2 := by
  by_cases full : buf.bytes.length = buf.cap
  · simp only [if_pos full]
    exact growBuf_roomMade doubled full m
  · simp only [if_neg full]
    exact .grown doubled rfl (Nat.lt_of_le_of_ne doubled.count full) rfl

theorem ReadEnd.later {fails : Bool} {content : Bytes} {m m₁ m' : Memory} {r : Option ReadBuffer}
    (h : ReadEnd fails content m₁ r m') (granted : m₁.refused = m.refused) :
    ReadEnd fails content m r m' := by
  cases h with
  | read whole ends fits granted' => exact .read whole ends fits (granted'.trans granted)
  | unreadable bad granted' => exact .unreadable bad (granted'.trans granted)
  | nomem refused => exact .nomem (granted ▸ refused)

theorem readLoop_end (fails : Bool) (fuel : Nat) (rest : Bytes) (buf : ReadBuffer)
    (doubled : buf.Doubled) (hfuel : rest.length < fuel) (m : Memory) :
    ∃ r m', readLoop fails fuel rest buf m = .ok (r, m') ∧
      ReadEnd fails (buf.bytes ++ rest) m r m' := by
  induction fuel generalizing rest buf m with
  | zero => exact absurd hfuel (Nat.not_lt_zero _)
  | succ fuel ih =>
      have hmade := room_roomMade doubled m
      rw [readLoop]
      generalize (if buf.bytes.length = buf.cap then growBuf buf m else (some buf, m)) = r at hmade
      obtain ⟨made, m₁⟩ := r
      cases hmade with
      | tooLarge large granted =>
          refine ⟨none, m₁, rfl, .unreadable (.inr ?_) granted⟩
          rw [List.length_append]
          omega
      | nomem refused => exact ⟨none, m₁, rfl, .nomem refused⟩
      | @grown buf' _ doubled' same room granted =>
          dsimp only
          obtain ⟨tail, htail⟩ := List.take_prefix (buf'.cap - buf'.bytes.length) rest
          have hgot := List.length_take (l := rest) (i := buf'.cap - buf'.bytes.length)
          generalize rest.take (buf'.cap - buf'.bytes.length) = got at htail hgot ⊢
          subst htail
          rw [List.length_append] at hgot hfuel
          by_cases hend : got.length = 0
          · rw [if_pos hend]
            have hgotNil : got = [] := List.length_eq_zero_iff.mp hend
            have htailNil : tail = [] := List.length_eq_zero_iff.mp (by omega)
            rw [hgotNil, htailNil, List.append_nil, List.append_nil, ← same]
            cases fails with
            | true =>
                exact ⟨none, _, rfl, .unreadable (.inl rfl) ((free_refused _ m₁).trans granted)⟩
            | false =>
                refine ⟨some buf', m₁, rfl, .read rfl rfl ?_ granted⟩
                obtain ⟨k, hk, hcap⟩ := doubled'.power
                have hle : 2 ^ k ≤ 2 ^ 63 := Nat.pow_le_pow_right (by decide) hk
                unfold largestBuffer
                omega
          · rw [if_neg hend, List.drop_left]
            have hcount : (buf'.bytes ++ got).length ≤ buf'.cap := by
              rw [List.length_append]
              omega
            obtain ⟨r, m', hrun, hdone⟩ := ih tail { buf' with bytes := buf'.bytes ++ got }
              ⟨doubled'.power, hcount⟩ (by omega) m₁
            refine ⟨r, m', hrun, ?_⟩
            dsimp only at hdone
            rw [List.append_assoc, same] at hdone
            exact hdone.later granted

/-- `read_all` ends, with the whole content of a readable file unless memory was refused. -/
theorem readAll_end (file : InputFile) (m : Memory) :
    ∃ r m', readAll file m = .ok (r, m') ∧
      ((∃ buf, r = some buf ∧ buf.bytes = file.content ∧ file.Readable ∧
          m'.refused = m.refused) ∨
        (r = none ∧ ¬ file.Readable ∧ m'.refused = m.refused) ∨
        (r = none ∧ m.refused < m'.refused)) := by
  unfold readAll
  by_cases hopens : file.opens = true
  · rw [if_pos hopens]
    cases halloc : malloc 4096 m with
    | mk block m₁ =>
        cases block with
        | none => exact ⟨none, m₁, rfl, .inr (.inr ⟨rfl, malloc_none halloc⟩)⟩
        | some block =>
            have doubled : (⟨block, 4096, []⟩ : ReadBuffer).Doubled :=
              ⟨⟨12, by decide, rfl⟩, Nat.zero_le _⟩
            obtain ⟨r, m', hrun, hdone⟩ := readLoop_end file.fails (file.content.length + 1)
              file.content ⟨block, 4096, []⟩ doubled (Nat.lt_succ_self _) m₁
            refine ⟨r, m', hrun, ?_⟩
            cases hdone.later (malloc_some halloc) with
            | @read buf _ whole ends fits granted =>
                exact .inl ⟨buf, rfl, whole, ⟨hopens, ends, fits⟩, granted⟩
            | unreadable bad granted =>
                refine .inr (.inl ⟨rfl, fun hread => ?_, granted⟩)
                rcases bad with hfails | hlarge
                · rw [hread.ends] at hfails
                  cases hfails
                · exact absurd hread.fits (Nat.not_lt_of_le hlarge)
            | nomem refused => exact .inr (.inr ⟨rfl, refused⟩)
  · rw [if_neg hopens]
    exact ⟨none, m, rfl, .inr (.inl ⟨rfl, fun hread => hopens hread.opens, rfl⟩)⟩

/-! ## Verdicts -/

/-- Strict `bencode_parse` accepts the content and returns the tree, given memory. -/
def Accepts (content : Bytes) (t : Tree) : Prop :=
  ∃ m r v, bencodeParse (fun _ => content) (.buffer 0) (some ⟨0, none, false⟩) m = .ok r ∧
    r.status = .ok ∧ r.out = some v ∧ v.tree (fun _ => content) = t

theorem bencodeParse_strict (content : Bytes) (m : Memory) :
    ∃ r, bencodeParse (fun _ => content) (.buffer 0) (some ⟨0, none, false⟩) m = .ok r ∧
      Parsed (fun _ => content) 0 (effectiveDepth 0) false content m r :=
  bencodeParse_parsed (fun _ => content) 0 (some ⟨0, none, false⟩) rfl m

/-- An accepted content is the encoding of its tree, and the scanner reads it to its end. -/
theorem Accepts.encodes {content : Bytes} {t : Tree} (h : Accepts content t) :
    t.encode = content ∧ t.Canonical ∧ t.Fits ∧
      ∃ es, Scans (effectiveDepth 0) content es .ok content.length := by
  obtain ⟨m, r, v, hrun, hstatus, hout, rfl⟩ := h
  obtain ⟨r', hrun', hparsed⟩ := bencodeParse_strict content m
  cases hrun.symm.trans hrun'
  cases hparsed with
  | @accepted v' rest es m' scan text whole sound told blocks granted =>
      cases hout
      have hnil : rest = [] := whole.resolve_left Bool.false_ne_true
      rw [hnil, List.append_nil] at text
      rw [← text] at scan
      exact ⟨text.symm, sound.canonical _ v, sound.fits _ v, es, scan⟩
  | trailing => cases hstatus
  | rejected scan bad => exact absurd hstatus bad
  | nomem => cases hstatus

theorem Accepts.unique {content : Bytes} {t u : Tree} (h : Accepts content t)
    (h' : Accepts content u) : t = u := by
  obtain ⟨ht, canonical, fits, -⟩ := h.encodes
  obtain ⟨hu, canonical', fits', -⟩ := h'.encodes
  have hsame : t.encode ++ [] = u.encode ++ [] := by rw [ht, hu]
  exact (Tree.encode_injective canonical fits canonical' fits' hsame).1

/-- The status and the offset with which strict parsing rejects the content: those of the SAX
parser, and an unexpected byte where the content goes on behind a value. -/
def Rejects (content : Bytes) (st : Status) (off : Nat) : Prop :=
  ∃ st', bencodeParseSax (.mem content) none () 0 = .ok ⟨st', off, ()⟩ ∧
    ((st' ≠ .ok ∧ st = st') ∨ (st' = .ok ∧ off ≠ content.length ∧ st = .errUnexpectedByte))

theorem sax_of_scans {content : Bytes} {es : List Event} {st : Status} {off : Nat}
    (scan : Scans (effectiveDepth 0) content es st off) :
    bencodeParseSax (.mem content) none () 0 = .ok ⟨st, off, ()⟩ := by
  obtain ⟨es', st', off', hrun, scan'⟩ := bencodeParseSax_null (.mem content) rfl 0
  obtain ⟨-, heq⟩ := scan.unique scan'
  cases heq
  exact hrun

theorem Rejects.unique {content : Bytes} {st st' : Status} {off off' : Nat}
    (h : Rejects content st off) (h' : Rejects content st' off') : st = st' ∧ off = off' := by
  obtain ⟨s, hrun, hs⟩ := h
  obtain ⟨s', hrun', hs'⟩ := h'
  rw [hrun] at hrun'
  cases hrun'
  rcases hs with ⟨hne, rfl⟩ | ⟨hok, -, rfl⟩
  · rcases hs' with ⟨-, rfl⟩ | ⟨hok, -, -⟩
    · exact ⟨rfl, rfl⟩
    · exact absurd hok hne
  · rcases hs' with ⟨hne, -⟩ | ⟨-, -, rfl⟩
    · exact absurd hok hne
    · exact ⟨rfl, rfl⟩

/-! ## `load` -/

inductive LoadSaid (prog : Bytes) (path : Option Bytes) (file : InputFile) (m : Memory) :
    Loaded × Bytes → Prop
  | unreadable {m' : Memory} (bad : ¬ file.Readable) (granted : m'.refused = m.refused) :
      LoadSaid prog path file m (⟨2, none, m'⟩, unreadText prog path)
  | rejected {st : Status} {off : Nat} {m' : Memory} (readable : file.Readable)
      (bad : ∀ t, ¬ Accepts file.content t) (verdict : Rejects file.content st off)
      (granted : m'.refused = m.refused) :
      LoadSaid prog path file m (⟨1, none, m'⟩, rejectText prog st off)
  | accepted {buf : ReadBuffer} {v : Value} {m' : Memory} (readable : file.Readable)
      (whole : buf.bytes = file.content) (accepts : Accepts file.content (v.tree buf.bufs))
      (sound : v.Sound) (granted : m'.refused = m.refused) :
      LoadSaid prog path file m (⟨0, some (buf, some v), m'⟩, [])
  | nomem {rc : Nat} {m' : Memory} {err : Bytes} (refused : m.refused < m'.refused) :
      LoadSaid prog path file m (⟨rc, none, m'⟩, err)

theorem load_said (prog : Bytes) (path : Option Bytes) (file : InputFile) (m : Memory) :
    ∃ l, load prog path file m = .ok l ∧ LoadSaid prog path file m l := by
  obtain ⟨r, m₁, hread, hdone⟩ := readAll_end file m
  unfold load
  rw [hread]
  rcases hdone with ⟨buf, rfl, whole, readable, granted⟩ | ⟨rfl, bad, granted⟩ | ⟨rfl, refused⟩
  · have hbufs : buf.bufs = fun _ => file.content := funext fun _ => whole
    obtain ⟨r, hrun, hparsed⟩ := bencodeParse_strict file.content m₁
    dsimp only
    rw [hbufs, hrun]
    dsimp only
    cases hparsed with
    | @accepted v rest es m' scan text all sound told blocks granted' =>
        refine ⟨_, if_neg (by simp), .accepted readable whole ?_ sound (granted'.trans granted)⟩
        rw [hbufs]
        exact ⟨m₁, _, v, hrun, rfl, rfl, rfl⟩
    | @trailing es off m' scan strict more blocks granted' =>
        refine ⟨_, if_pos (by simp), .rejected readable (fun t hacc => ?_)
          ⟨.ok, sax_of_scans scan, .inr ⟨rfl, more, rfl⟩⟩ ?_⟩
        · obtain ⟨-, -, -, fs, hscan⟩ := hacc.encodes
          exact more (Prod.mk.inj (scan.unique hscan).2).2
        · exact (free_refused _ _).trans (granted'.trans granted)
    | @rejected es st off m' scan bad blocks granted' =>
        have hexit : statusToExit st = 1 := by
          rw [statusToExit, if_neg bad, if_neg scan.ne_errIo]
        refine ⟨_, if_pos bad, ?_⟩
        rw [hexit]
        refine .rejected readable (fun t hacc => ?_) ⟨st, sax_of_scans scan, .inl ⟨bad, rfl⟩⟩ ?_
        · obtain ⟨-, -, -, fs, hscan⟩ := hacc.encodes
          exact bad (Prod.mk.inj (scan.unique hscan).2).1
        · exact (free_refused _ _).trans (granted'.trans granted)
    | @nomem off m' blocks refused =>
        refine ⟨_, if_pos (by simp), .nomem ?_⟩
        dsimp only
        rw [free_refused]
        omega
  · exact ⟨_, rfl, .unreadable bad granted⟩
  · exact ⟨_, rfl, .nomem refused⟩

end Bencode
