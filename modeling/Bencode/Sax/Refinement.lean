import Bencode.Sax.Represents

/-!
# The SAX parser refines the scanner

Called on a represented configuration, each function of the mutual recursion
replays the scanner's run through the callbacks and leaves the scopes below it
alone. The entry point therefore reports the scanner's verdict, unless a callback
refuses an event first.
-/

namespace Bencode

open LabelledMachine Delivery

variable {σ : Type} {limit : Nat}

/-! ## Leaves -/

/-- `run` ends in a state that keeps the scopes of `base` and matches the scanner. -/
def Answers (limit : Nat) (base : List OpenScope) (s : SaxState σ) (c : Config)
    (run : SaxM (Status × SaxState σ)) : Prop :=
  ∃ st s', run = .ok (st, s') ∧ Frame base s s' ∧ Ends limit base s c s' st

section Leaves

variable {s : SaxState σ} {c : Config} {b : UInt8} {bs : Bytes}

theorem Represents.answers_stop (h : Represents limit s c) {r : Bytes} {st : Status}
    (hr : r <:+ c.rest) (hstep : scanStep limit c = .stop (st, c.offset r)) (bad : st ≠ .ok) :
    Answers limit c.stack s c (.ok (st, s.seek r)) :=
  ⟨st, s.seek r, rfl, h.frame_seek r, .stop (h.offset_eq hr ▸ hstep) bad rfl⟩

theorem Represents.answers_here (h : Represents limit s c) {st : Status}
    (hstep : scanStep limit c = .stop (st, c.pos)) (bad : st ≠ .ok) :
    Answers limit c.stack s c (.ok (st, s)) := by
  have hoff : c.offset c.rest = c.pos := by rw [Config.offset, Nat.sub_self, Nat.add_zero]
  have hstop := h.answers_stop (List.suffix_refl c.rest) (hoff.symm ▸ hstep) bad
  rwa [← h.rest, SaxState.seek_rest h.inBounds] at hstop

/-- A reader that has read a complete leaf and tells it. -/
theorem Represents.answers_leaf (h : Represents limit s c) {r : Bytes} {e : Event} {t : Tree}
    (hr : r <:+ c.rest) (shorter : r.length < c.rest.length)
    (hstep : scanStep limit c = .emit e ((c.readTo r).give t)) :
    Answers limit c.stack s c (.ok ((s.seek r).notify e)) := by
  rw [h.complete hr] at hstep
  refine ⟨_, _, rfl, (h.frame_seek r).notify e, .finish hstep rfl rfl ?_⟩
  rwa [h.rest_eq hr]

theorem parseInt_answers (h : Represents limit s c) (hr : c.rest = 'i'.toUInt8 :: bs)
    (hstep : scanStep limit c = scanValue limit c 'i'.toUInt8 bs) :
    Answers limit c.stack s c (parseInt s) := by
  have hsuf := (scanInt_suffix bs).trans (List.suffix_cons 'i'.toUInt8 bs)
  rw [← hr] at hsuf
  rw [parseInt_eq s (h.rest.trans hr)]
  rw [scanValue, if_pos rfl] at hstep
  cases hscan : scanInt bs with
  | ok i r =>
      have hlen := (scanInt_suffix bs).length_le
      rw [hscan] at hstep hsuf hlen
      refine h.answers_leaf hsuf ?_ hstep
      rw [hr]
      exact Nat.lt_succ_of_le hlen
  | err st r =>
      rw [hscan] at hstep hsuf
      exact h.answers_stop hsuf hstep (scanInt_err hscan)

theorem Represents.string_event (h : Represents limit s c) {bytes r : Bytes}
    (hscan : scanString c.rest = .ok bytes r) :
    Event.string (s.input.length - r.length - bytes.length)
        ((s.seek r).slice (s.input.length - r.length - bytes.length) bytes.length) =
      c.stringEvent bytes r := by
  have hsuf := scanString_suffix c.rest
  have hcut := h.payload_drop (scanString_payload hscan)
  rw [hscan, Token.left_ok] at hsuf
  rw [SaxState.slice, SaxState.seek_input, hcut, List.take_left, Config.stringEvent,
    h.offset_eq hsuf]
  rfl

theorem parseString_answers (h : Represents limit s c) (hr : c.rest = b :: bs)
    (hb : isDigit b = true) (hstep : scanStep limit c = scanValue limit c b bs) :
    Answers limit c.stack s c (do
      let (st, bytes, len, s) ← parseString s
      if st ≠ .ok then return (st, s)
      return s.notify (.string bytes (s.slice bytes len))) := by
  have hsuf := scanString_suffix c.rest
  rw [parseString_eq s h.inBounds, h.rest]
  rw [scanValue, if_neg (ne_of_isDigit hb (by decide)), if_neg (ne_of_isDigit hb (by decide)),
    if_neg (ne_of_isDigit hb (by decide)), if_pos hb, ← hr] at hstep
  cases hscan : scanString c.rest with
  | ok bytes r =>
      rw [hscan] at hstep hsuf
      have hlen := scanString_shorter hscan
      have hleaf := h.answers_leaf hsuf hlen hstep
      rw [← h.string_event hscan] at hleaf
      exact hleaf
  | err st r =>
      have bad := scanString_err hscan
      rw [hscan] at hstep hsuf
      have hstop := h.answers_stop hsuf hstep bad
      simpa [Token.payload, bad] using hstop

end Leaves

/-! ## Keys -/

theorem Represents.keyed {s : SaxState σ} {c : Config} (h : Represents limit s c)
    {done : List (Bytes × Tree)} {key : Option Bytes} {base : List OpenScope} {k r : Bytes}
    (hstack : c.stack = .dict done key :: base) (hscan : scanString c.rest = .ok k r)
    (scopes : Nat → SaxScope) (hsame : ∀ i < base.length, scopes i = s.scopes i)
    (hexpect : (scopes base.length).expectingKey = false)
    (hlast : (scopes base.length).lastKey = some (s.input.length - r.length - k.length))
    (hlen : (scopes base.length).lastKeyLen = k.length) :
    Represents limit { s.seek r with scopes := scopes }
      { c.readTo r with stack := .dict done (some k) :: base } := by
  have hsuf := scanString_suffix c.rest
  rw [hscan, Token.left_ok] at hsuf
  have hcut := h.payload_drop (scanString_payload hscan)
  have hbelow := h.scopes
  have hroom := h.room
  have hdepth := h.depth
  rw [hstack] at hbelow hroom hdepth
  have hrep := h.seek hsuf
  exact {
    inBounds := hrep.inBounds
    rest := hrep.rest
    pos := hrep.pos
    depth := hdepth
    maxDepth := h.maxDepth
    capped := h.capped
    room := hroom
    scopes := ⟨⟨hexpect, _, hlast, hlen, hcut ▸ List.prefix_append k r⟩, hbelow.2.congr hsame⟩
    unfinished := h.unfinished }

/-- The order check of `parse_dict_key` is the scanner's. -/
theorem keyOrder_spec {input : Bytes} {sc : SaxScope} {last : Option Bytes} {k : Bytes} {off : Nat}
    (hlast : PointsAt input sc.lastKey sc.lastKeyLen last) (hk : k <+: input.drop off) :
    (sc.lastKey = none ∧ keyOrder last k = .ok) ∨
      ∃ ptr order, sc.lastKey = some ptr ∧
        bytesCmp (input.drop ptr) sc.lastKeyLen (input.drop off) k.length = .ok order ∧
        keyOrder last k =
          if order = 0 then .errDictDuplicate else if order > 0 then .errDictUnsorted else .ok := by
  cases last with
  | none => exact .inl ⟨hlast, rfl⟩
  | some l =>
      obtain ⟨ptr, hptr, hlen, hl⟩ := hlast
      have hcmp := prefixCompare_compares l k
      refine .inr ⟨ptr, prefixCompare l k, hptr, hlen ▸ bytesCmp_eq hl hk, ?_⟩
      simp only [keyOrder, hcmp.2, hcmp.pos_iff]

/-- The scopes after the key `k`, which ends where `r` begins, has been recorded. -/
def SaxState.recordKey (s : SaxState σ) (sc : Nat) (k r : Bytes) : SaxState σ :=
  { s.seek r with
    scopes := Function.update s.scopes sc
      { s.scopes sc with
        lastKey := some (s.input.length - r.length - k.length)
        lastKeyLen := k.length
        expectingKey := false } }

section Ends

variable {ρ : Type} (tell : SaxState σ → Event → ρ) (fail : Status → SaxState σ → ρ)

/-- `parse_dict_key` with the callback and the errors left open. -/
def parseDictKeyWith (s : SaxState σ) (sc : Nat) : SaxM ρ := do
  if !isDigit (← s.peek) then return fail .errDictBadKey s
  let (st, keyBytes, keyLen, s) ← parseString s
  if st ≠ .ok then return fail st s
  let scope ← s.getScope sc
  let order : Int ←
    match scope.lastKey with
    | some lastKey =>
        bytesCmp (s.input.drop lastKey) scope.lastKeyLen (s.input.drop keyBytes) keyLen
    | none => pure (-1)
  if order = 0 then return fail .errDictDuplicate s
  if order > 0 then return fail .errDictUnsorted s
  let s ← s.setScope sc
    { scope with lastKey := some keyBytes, lastKeyLen := keyLen, expectingKey := false }
  return tell s (.string keyBytes (s.slice keyBytes keyLen))

/-- `parse_dict_key` on a well-formed string. -/
theorem parseDictKeyWith_eq {s : SaxState σ} {b : UInt8} {bs k r : Bytes} {sc : Nat}
    {last : Option Bytes} (hs : s.InBounds) (hr : s.rest = b :: bs) (hb : isDigit b = true)
    (hscan : scanString s.rest = .ok k r) (hsc : sc < internalMaxDepth)
    (hlast : PointsAt s.input (s.scopes sc).lastKey (s.scopes sc).lastKeyLen last)
    (hk : k <+: s.input.drop (s.input.length - r.length - k.length)) :
    parseDictKeyWith tell fail s sc =
      match keyOrder last k with
      | .ok => .ok (tell (s.recordKey sc k r)
          (.string (s.input.length - r.length - k.length)
            ((s.seek r).slice (s.input.length - r.length - k.length) k.length)))
      | st => .ok (fail st (s.seek r)) := by
  have hstring := parseString_eq s hs
  rw [hscan] at hstring
  rcases keyOrder_spec hlast hk with ⟨hnull, horder⟩ | ⟨ptr, order, hptr, hcmp, horder⟩
  · simp [parseDictKeyWith, SaxState.peek_of_cons hr, hb, hstring, Token.payload,
      SaxState.getScope, SaxState.setScope, hsc, hnull, horder, SaxState.recordKey, SaxState.slice]
  · by_cases hzero : order = 0
    · simp [parseDictKeyWith, SaxState.peek_of_cons hr, hb, hstring, Token.payload,
        SaxState.getScope, hsc, hptr, hcmp, horder, hzero]
    · by_cases hpos : order > 0
      · simp [parseDictKeyWith, SaxState.peek_of_cons hr, hb, hstring, Token.payload,
          SaxState.getScope, hsc, hptr, hcmp, horder, hzero, hpos]
      · simp [parseDictKeyWith, SaxState.peek_of_cons hr, hb, hstring, Token.payload,
          SaxState.getScope, SaxState.setScope, hsc, hptr, hcmp, horder, hzero, hpos,
          SaxState.recordKey, SaxState.slice]

end Ends

theorem parseDictKey_with (s : SaxState σ) (sc : Nat) :
    parseDictKey s sc = parseDictKeyWith SaxState.notify Prod.mk s sc := rfl

structure Advances (limit : Nat) (base : List OpenScope) (s : SaxState σ) (c : Config)
    (s' : SaxState σ) (d : Config) : Prop where
  run : ∃ es, Reaches (scanStep limit) c es d ∧
    deliver .ok (callBack s.cb) es s.user = (.ok, s'.user)
  represents : Represents limit s' d
  input : s'.input = s.input
  cb : s'.cb = s.cb
  maxDepth : s'.maxDepth = s.maxDepth
  scopes : ∀ i < base.length, s'.scopes i = s.scopes i
  shorter : d.rest.length < c.rest.length

theorem Advances.answers {base : List OpenScope} {s s' : SaxState σ} {c d : Config}
    {run : SaxM (Status × SaxState σ)} (h : Advances limit base s c s' d)
    (ha : Answers limit base s' d run) : Answers limit base s c run := by
  obtain ⟨es, hrun, told⟩ := h.run
  obtain ⟨st, s'', heq, hframe, hends⟩ := ha
  exact ⟨st, s'', heq, hframe.rebase h.input h.cb h.maxDepth h.scopes,
    hends.after hrun told h.cb h.shorter.le⟩

/-- A call inside a container that fails closes the container's scope. -/
theorem failed_answers {base base' : List OpenScope} {s s' : SaxState σ} {c : Config}
    {st : Status} (depth : s'.depth = base.length + 1)
    (hframe : Frame base s { s' with depth := base.length })
    (hends : Ends limit base' s c s' st) (bad : st ≠ .ok) :
    Answers limit base s c (do let s'' ← popScope s'; return (st, s'')) := by
  rw [popScope_eq depth]
  exact ⟨st, _, rfl, hframe, hends.failed bad rfl rfl⟩

section Keys

variable {s : SaxState σ} {c : Config} {done : List (Bytes × Tree)} {base : List OpenScope}
  {b : UInt8} {bs : Bytes}

theorem keyed_advances (h : Represents limit s c) (hstack : c.stack = .dict done none :: base)
    {k r : Bytes} (hscan : scanString c.rest = .ok k r)
    (hstep : scanStep limit c = .emit (c.stringEvent k r)
      { c.readTo r with stack := .dict done (some k) :: base })
    (ok : ((s.recordKey base.length k r).notify (c.stringEvent k r)).1 = .ok) :
    Advances limit base s c ((s.recordKey base.length k r).notify (c.stringEvent k r)).2
      { c.readTo r with stack := .dict done (some k) :: base } := by
  have hsame : ∀ i < base.length, (s.recordKey base.length k r).scopes i = s.scopes i :=
    fun i hi => Function.update_of_ne hi.ne _ _
  have hrep := h.keyed hstack hscan (s.recordKey base.length k r).scopes hsame
    (by simp [SaxState.recordKey]) (by simp [SaxState.recordKey]) (by simp [SaxState.recordKey])
  exact {
    run := ⟨_, .single hstep, told_single rfl rfl ok⟩
    represents := ⟨hrep.inBounds, hrep.rest, hrep.pos, hrep.depth, hrep.maxDepth, hrep.capped,
      hrep.room, hrep.scopes, hrep.unfinished⟩
    input := rfl
    cb := rfl
    maxDepth := rfl
    scopes := hsame
    shorter := scanString_shorter hscan }

/-- Where a key is due, `parse_dict_key` fails as the scanner does or tells the scanner's key. -/
theorem Represents.reads_key {ρ : Type} (tell : SaxState σ → Event → ρ)
    (fail : Status → SaxState σ → ρ) (h : Represents limit s c)
    (hstack : c.stack = .dict done none :: base) (hr : c.rest = b :: bs) (hbe : b ≠ 'e'.toUInt8) :
    (∃ st r, parseDictKeyWith tell fail s base.length = .ok (fail st (s.seek r)) ∧ st ≠ .ok ∧
      scanStep limit c = .stop (st, (s.seek r).p)) ∨
    ∃ k r, parseDictKeyWith tell fail s base.length =
        .ok (tell (s.recordKey base.length k r) (c.stringEvent k r)) ∧
      scanString c.rest = .ok k r ∧
      scanStep limit c = .emit (c.stringEvent k r)
        { c.readTo r with stack := .dict done (some k) :: base } := by
  have hstep := h.step_key hstack hr hbe
  have hpeek : s.peek = .ok b := SaxState.peek_of_cons (h.rest.trans hr)
  by_cases hb : isDigit b = true
  swap
  · have hself : s.seek s.rest = s := SaxState.seek_rest h.inBounds
    refine .inl ⟨.errDictBadKey, s.rest, ?_, by decide, ?_⟩
    · rw [hself]
      simp [parseDictKeyWith, hpeek, hb]
    · rw [hself, hstep, scanKey, if_neg hb, h.pos]
  rw [scanKey, if_pos hb, ← hr] at hstep
  have hsuf := scanString_suffix c.rest
  cases hscan : scanString c.rest with
  | err st r =>
      have bad := scanString_err hscan
      have hstring := parseString_eq s h.inBounds
      rw [h.rest, hscan] at hstring
      rw [hscan] at hstep hsuf
      refine .inl ⟨st, r, ?_, bad, h.offset_eq hsuf ▸ hstep⟩
      simp [parseDictKeyWith, hpeek, hb, hstring, Token.payload, bad]
  | ok k r =>
      have hcut := h.payload_drop (scanString_payload hscan)
      have hscope := h.scopes
      rw [hstack] at hscope
      rw [hscan, Token.left_ok] at hsuf
      rw [hscan] at hstep
      rw [parseDictKeyWith_eq tell fail h.inBounds (h.rest.trans hr) hb (h.rest ▸ hscan)
        (h.index_lt hstack) hscope.1.2 (hcut ▸ List.prefix_append k r), h.string_event hscan]
      have hseen : keySeen done none = lastKey done := rfl
      rw [hseen]
      cases horder : keyOrder (lastKey done) k with
      | ok =>
          simp only [horder] at hstep
          exact .inr ⟨k, r, rfl, rfl, hstep⟩
      | _ =>
          simp only [horder] at hstep
          exact .inl ⟨_, r, rfl, by decide, h.offset_eq hsuf ▸ hstep⟩

/-- A key is read and told, or the dict fails with its scope still open. -/
theorem parseDictKey_cases (h : Represents limit s c) (hstack : c.stack = .dict done none :: base)
    (hr : c.rest = b :: bs) (hbe : b ≠ 'e'.toUInt8) :
    ∃ st s', parseDictKey s base.length = .ok (st, s') ∧
      ((st ≠ .ok ∧ s'.depth = base.length + 1 ∧ Frame base s { s' with depth := base.length } ∧
          Ends limit base s c s' st) ∨
        (st = .ok ∧ ∃ k d, d.stack = .dict done (some k) :: base ∧
          Advances limit base s c s' d)) := by
  have hdepth := h.depth_cons hstack
  rw [parseDictKey_with]
  rcases h.reads_key SaxState.notify Prod.mk hstack hr hbe with
    ⟨st, r, hrun, bad, hstep⟩ | ⟨k, r, hrun, hscan, hstep⟩
  · exact ⟨st, s.seek r, hrun, .inl ⟨bad, hdepth,
      ⟨rfl, rfl, rfl, rfl, fun _ _ => rfl, SaxState.seek_inBounds r⟩, .stop hstep bad rfl⟩⟩
  · have hsuf := scanString_suffix c.rest
    rw [hscan, Token.left_ok] at hsuf
    have hsame : ∀ i < base.length, (s.recordKey base.length k r).scopes i = s.scopes i :=
      fun i hi => Function.update_of_ne hi.ne _ _
    refine ⟨_, _, hrun, ?_⟩
    by_cases ok : ((s.recordKey base.length k r).notify (c.stringEvent k r)).1 = .ok
    · exact .inr ⟨ok, k, _, rfl, keyed_advances h hstack hscan hstep ok⟩
    · exact .inl ⟨ok, hdepth, ⟨rfl, rfl, rfl, rfl, hsame, SaxState.seek_inBounds r⟩,
        .refuse hstep rfl rfl (h.offset_eq hsuf) ok⟩

end Keys

/-! ## Containers -/

def ValueAnswers (σ : Type) (limit fuel : Nat) : Prop :=
  ∀ (s : SaxState σ) (c : Config), Represents limit s c →
    (∀ b bs, c.rest = b :: bs → scanStep limit c = scanValue limit c b bs) →
    3 * c.rest.length + 1 ≤ fuel → Answers limit c.stack s c (parseValue fuel s)

def ListAnswers (σ : Type) (limit fuel : Nat) : Prop :=
  ∀ (s : SaxState σ) (c : Config) (done : List Tree) (base : List OpenScope),
    Represents limit s c → c.stack = .list done :: base →
    3 * c.rest.length + 2 ≤ fuel → Answers limit base s c (listLoop fuel s)

def DictAnswers (σ : Type) (limit fuel : Nat) : Prop :=
  ∀ (s : SaxState σ) (c : Config) (done : List (Bytes × Tree)) (key : Option Bytes)
    (base : List OpenScope), Represents limit s c → c.stack = .dict done key :: base →
    3 * c.rest.length + 2 ≤ fuel → Answers limit base s c (dictLoop fuel s)

section Containers

variable {s : SaxState σ} {c : Config} {o : OpenScope} {base : List OpenScope} {b : UInt8}
  {bs : Bytes}

theorem truncated_answers (h : Represents limit s c) (hstack : c.stack = o :: base)
    (hr : c.rest = []) :
    Answers limit base s c (do let s' ← popScope s; return (.errTruncated, s')) := by
  have hends : Ends limit base s c s .errTruncated := .stop (h.step_nil hr) (by decide) rfl
  exact failed_answers (h.depth_cons hstack) (h.frame_closed base) hends (by decide)

theorem Represents.closed_step (h : Represents limit s c) (hr : c.rest = b :: bs) {e : Event}
    {t : Tree} (hstep : scanStep limit c = .emit e ({ c.readTo bs with stack := base }.give t)) :
    scanStep limit c =
      .emit e (completedAt base t ({ s.seek bs with depth := base.length } : SaxState σ).rest
        ({ s.seek bs with depth := base.length } : SaxState σ).p) := by
  have hsuf : bs <:+ c.rest := hr ▸ List.suffix_cons b bs
  have hrest : ({ s.seek bs with depth := base.length } : SaxState σ).rest = bs := h.rest_eq hsuf
  rw [hstep, hrest]
  show Move.emit e (completedAt base t bs (c.offset bs)) = _
  rw [h.offset_eq hsuf]

theorem closed_answers (h : Represents limit s c) (hstack : c.stack = o :: base)
    (hr : c.rest = b :: bs) {e : Event} {t : Tree}
    (hstep : scanStep limit c = .emit e ({ c.readTo bs with stack := base }.give t)) :
    Answers limit base s c (do let s' ← popScope (s.advance 1); return s'.notify e) := by
  have hsuf : bs <:+ c.rest := hr ▸ List.suffix_cons b bs
  have hdepth : (s.advance 1).depth = base.length + 1 := h.depth_cons hstack
  have hrest : ({ s.seek bs with depth := base.length } : SaxState σ).rest = bs := h.rest_eq hsuf
  rw [popScope_eq hdepth, SaxState.advance_of_cons (h.rest.trans hr)]
  refine ⟨_, _, rfl, ⟨rfl, rfl, rfl, rfl, fun _ _ => rfl, SaxState.seek_inBounds bs⟩,
    .finish (h.closed_step hr hstep) rfl rfl ?_⟩
  rw [hrest, hr]
  exact Nat.lt_succ_self _

theorem value_advances (h : Represents limit s c) {s₁ : SaxState σ} (hstack : c.stack = o :: base)
    (hframe : Frame c.stack s s₁) (o' : OpenScope) {es : List Event} {t : Tree}
    (hsettle : settle c.stack t = (o' :: base, none)) (scopes : Nat → SaxScope)
    (hsame : ∀ i < base.length, scopes i = s₁.scopes i)
    (hmatch : ScopeMatches s.input (scopes base.length) o')
    (run : Reaches (scanStep limit) c es (completedAt c.stack t s₁.rest s₁.p))
    (told : deliver .ok (callBack s.cb) es s.user = (.ok, s₁.user))
    (shorter : s₁.rest.length < c.rest.length) :
    Advances limit base s c { s₁ with scopes := scopes } ⟨o' :: base, none, s₁.rest, s₁.p⟩ := by
  have hscopes := h.scopes
  have hroom := h.room
  have hframes := hframe.scopes
  have hdepth := hframe.depth
  rw [hstack] at hscopes hroom hframes hdepth
  have hbelow : ∀ i < base.length, scopes i = s.scopes i := fun i hi =>
    (hsame i hi).trans (hframes i (Nat.lt_succ_of_lt hi))
  rw [completedAt, hsettle] at run
  exact {
    run := ⟨es, run, told⟩
    represents := {
      inBounds := hframe.inBounds
      rest := rfl
      pos := rfl
      depth := hdepth
      maxDepth := hframe.maxDepth.trans h.maxDepth
      capped := h.capped
      room := hroom
      scopes := by
        rw [hframe.input]
        exact ⟨hmatch, hscopes.2.congr hbelow⟩
      unfinished := rfl }
    input := hframe.input
    cb := hframe.cb
    maxDepth := hframe.maxDepth
    scopes := hbelow
    shorter := shorter }

end Containers

theorem listLoop_answers {fuel : Nat} (value : ValueAnswers σ limit fuel)
    (loop : ListAnswers σ limit fuel) : ListAnswers σ limit (fuel + 1) := by
  intro s c done base h hstack hfuel
  cases hr : c.rest with
  | nil =>
      have hend : s.atEnd = true := SaxState.atEnd_of_nil (h.rest.trans hr)
      simpa [listLoop, hend] using truncated_answers h hstack hr
  | cons b bs =>
      have hend := SaxState.not_atEnd_of_cons (h.rest.trans hr)
      have hpeek := SaxState.peek_of_cons (h.rest.trans hr)
      by_cases hb : b = 'e'.toUInt8
      · have hstep := h.step_listEnd hstack hr hb
        simpa [listLoop, hend, hpeek, hb] using closed_answers h hstack hr hstep
      · have hvalue := h.step_value (hstack ▸ trivial) hr hb
        obtain ⟨st, s₁, hrun, hframe, hends⟩ := value s c h hvalue (by omega)
        by_cases hst : st = .ok
        swap
        · rw [hstack] at hframe
          have hfail := failed_answers (hframe.depth) hframe.inner hends hst
          simpa [listLoop, hend, hpeek, hb, hrun, hst] using hfail
        subst hst
        cases hends with
        | stopped _ _ bad => exact absurd rfl bad
        | refused _ _ _ _ _ bad => exact absurd rfl bad
        | completed es t run told shorter =>
            have hadv := value_advances h hstack hframe (.list (done ++ [t]))
              (by rw [hstack]; rfl) s₁.scopes (fun _ _ => rfl) trivial run told shorter
            have hloop := loop s₁ _ _ _ hadv.represents rfl (by dsimp only; omega)
            simpa [listLoop, hend, hpeek, hb, hrun] using hadv.answers hloop

/-- The value of a key has been read: the scope expects a key again. -/
theorem dictValue_advances {s s₁ : SaxState σ} {c : Config} {done : List (Bytes × Tree)}
    {k : Bytes} {base : List OpenScope} {es : List Event} {t : Tree} (h : Represents limit s c)
    (hstack : c.stack = .dict done (some k) :: base) (hframe : Frame c.stack s s₁)
    (run : Reaches (scanStep limit) c es (completedAt c.stack t s₁.rest s₁.p))
    (told : deliver .ok (callBack s.cb) es s.user = (.ok, s₁.user))
    (shorter : s₁.rest.length < c.rest.length) :
    ∃ scope s₂, s₁.getScope base.length = .ok scope ∧
      s₁.setScope base.length { scope with expectingKey := true } = .ok s₂ ∧
      (completedAt c.stack t s₁.rest s₁.p).stack = .dict (done ++ [(k, t)]) none :: base ∧
      Advances limit base s c s₂ (completedAt c.stack t s₁.rest s₁.p) := by
  have hscopes := h.scopes
  have hframes := hframe.scopes
  rw [hstack] at hscopes hframes
  have hindex := h.index_lt hstack
  have hkeep : s₁.scopes base.length = s.scopes base.length :=
    hframes base.length (Nat.lt_succ_self _)
  have hseen : keySeen (done ++ [(k, t)]) none = keySeen done (some k) := by
    simp [keySeen, lastKey]
  have hsettle : settle c.stack t = (.dict (done ++ [(k, t)]) none :: base, none) := by
    rw [hstack]
    rfl
  have hadv := value_advances h hstack hframe (.dict (done ++ [(k, t)]) none) hsettle
    (Function.update s₁.scopes base.length { s₁.scopes base.length with expectingKey := true })
    (fun i hi => Function.update_of_ne hi.ne _ _)
    (by
      rw [Function.update_self, hkeep]
      exact ⟨rfl, hseen ▸ hscopes.1.2⟩) run told shorter
  rw [completedAt, hsettle]
  exact ⟨_, _, if_pos hindex, if_pos hindex, rfl, hadv⟩

theorem dictLoop_answers {fuel : Nat} (value : ValueAnswers σ limit fuel)
    (loop : DictAnswers σ limit fuel) : DictAnswers σ limit (fuel + 1) := by
  intro s c done key base h hstack hfuel
  cases hr : c.rest with
  | nil =>
      have hend : s.atEnd = true := SaxState.atEnd_of_nil (h.rest.trans hr)
      simpa [dictLoop, hend] using truncated_answers h hstack hr
  | cons b bs =>
      have hend := SaxState.not_atEnd_of_cons (h.rest.trans hr)
      have hpeek := SaxState.peek_of_cons (h.rest.trans hr)
      have hdepth := h.depth_cons hstack
      obtain ⟨htop, hscope, hexpect⟩ := h.top_scope hstack
      cases key with
      | none =>
          rw [Option.isNone_none] at hexpect
          by_cases hb : b = 'e'.toUInt8
          · have hstep := h.step_dictEnd hstack hr hb
            simpa [dictLoop, hend, hpeek, hb, htop, hscope, hexpect] using
              closed_answers h hstack hr hstep
          obtain ⟨st, s₁, hrun, hfail | ⟨rfl, k, d, hd, hadv⟩⟩ := parseDictKey_cases h hstack hr hb
          · obtain ⟨bad, hdepth₁, hframe, hends⟩ := hfail
            simpa [dictLoop, hend, hpeek, hb, htop, hscope, hexpect, hrun, bad] using
              failed_answers hdepth₁ hframe hends bad
          · have hloop := loop s₁ d done (some k) base hadv.represents hd (by
              have := hadv.shorter
              omega)
            simpa [dictLoop, hend, hpeek, hb, htop, hscope, hexpect, hrun] using
              hadv.answers hloop
      | some k =>
          have hexpect : (s.scopes base.length).expectingKey = false := hexpect
          by_cases hb : b = 'e'.toUInt8
          · have hends : Ends limit base s c s .errDictMissingValue :=
              .stop (h.step_missing hstack hr hb) (by decide) rfl
            have hfail := failed_answers hdepth (h.frame_closed base) hends (by decide)
            simpa [dictLoop, hend, hpeek, hb, htop, hscope, hexpect] using hfail
          have hvalue := h.step_value (hstack ▸ trivial) hr hb
          obtain ⟨st, s₁, hrun, hframe, hends⟩ := value s c h hvalue (by omega)
          by_cases hst : st = .ok
          swap
          · rw [hstack] at hframe
            have hfail := failed_answers hframe.depth hframe.inner hends hst
            simpa [dictLoop, hend, hpeek, hb, htop, hscope, hexpect, hrun, hst] using hfail
          subst hst
          cases hends with
          | stopped _ _ bad => exact absurd rfl bad
          | refused _ _ _ _ _ bad => exact absurd rfl bad
          | completed es t run told shorter =>
              obtain ⟨scope, s₂, hget, hset, hd, hadv⟩ :=
                dictValue_advances h hstack hframe run told shorter
              have hloop := loop s₂ _ _ none base hadv.represents hd (by
                have := hadv.shorter
                omega)
              simpa [dictLoop, hend, hpeek, hb, htop, hscope, hexpect, hrun, hget, hset] using
                hadv.answers hloop

def SaxState.pushed (s : SaxState σ) (isDict : Bool) : SaxState σ :=
  { s with
    scopes := Function.update s.scopes s.depth ⟨isDict, isDict, none, 0⟩
    depth := s.depth + 1 }

theorem pushScope_full {s : SaxState σ} (h : s.depth ≥ s.maxDepth) (isDict : Bool) :
    pushScope s isDict = .ok (.errNestingTooDeep, s) := by
  simp [pushScope, h]

theorem pushScope_ok {s : SaxState σ} (h : s.depth < s.maxDepth)
    (hcap : s.maxDepth ≤ internalMaxDepth) (isDict : Bool) :
    pushScope s isDict = .ok (.ok, s.pushed isDict) := by
  have hfull : ¬ s.depth ≥ s.maxDepth := Nat.not_le_of_lt h
  simp [pushScope, hfull, SaxState.setScope, lt_of_lt_of_le h hcap, SaxState.pushed]

theorem Represents.push_full {s : SaxState σ} {c : Config} (h : Represents limit s c)
    (hfull : c.stack.length ≥ limit) (r : Bytes) (isDict : Bool) :
    pushScope (s.seek r) isDict = .ok (.errNestingTooDeep, s.seek r) := by
  apply pushScope_full
  rw [SaxState.seek_depth, SaxState.seek_maxDepth, h.depth, h.maxDepth]
  exact hfull

theorem Represents.push_ok {s : SaxState σ} {c : Config} (h : Represents limit s c)
    (hroom : c.stack.length < limit) (r : Bytes) (isDict : Bool) :
    pushScope (s.seek r) isDict = .ok (.ok, (s.seek r).pushed isDict) := by
  apply pushScope_ok
  · rw [SaxState.seek_depth, SaxState.seek_maxDepth, h.depth, h.maxDepth]
    exact hroom
  · rw [SaxState.seek_maxDepth, h.maxDepth]
    exact h.capped

section Opening

variable {s : SaxState σ} {c : Config} {o : OpenScope} {b : UInt8} {bs : Bytes} {e : Event}
  {isDict : Bool}

theorem Represents.opened (h : Represents limit s c) (hr : c.rest = b :: bs)
    (hroom : c.stack.length < limit) (hmatch : ScopeMatches s.input ⟨isDict, isDict, none, 0⟩ o) :
    Represents limit ((s.seek bs).pushed isDict) { c.readTo bs with stack := o :: c.stack } := by
  have hrep := h.seek (hr ▸ List.suffix_cons b bs : bs <:+ c.rest)
  have hscopes : StackMatches s.input ((s.seek bs).pushed isDict).scopes (o :: c.stack) := by
    refine ⟨?_, h.scopes.congr fun i hi => Function.update_of_ne ?_ _ _⟩
    · simpa [SaxState.pushed, h.depth] using hmatch
    · rw [SaxState.seek_depth, h.depth]
      exact hi.ne
  exact {
    inBounds := hrep.inBounds
    rest := hrep.rest
    pos := hrep.pos
    depth := congrArg (· + 1) h.depth
    maxDepth := h.maxDepth
    capped := h.capped
    room := hroom
    scopes := hscopes
    unfinished := h.unfinished }

theorem opened_advances (h : Represents limit s c) (hr : c.rest = b :: bs)
    (hroom : c.stack.length < limit) (hmatch : ScopeMatches s.input ⟨isDict, isDict, none, 0⟩ o)
    (hstep : scanStep limit c = .emit e { c.readTo bs with stack := o :: c.stack })
    (ok : (((s.seek bs).pushed isDict).notify e).1 = .ok) :
    Advances limit c.stack s c (((s.seek bs).pushed isDict).notify e).2
      { c.readTo bs with stack := o :: c.stack } := by
  have hrep := h.opened hr hroom hmatch
  exact {
    run := ⟨[e], .single hstep, told_single rfl rfl ok⟩
    represents := ⟨hrep.inBounds, hrep.rest, hrep.pos, hrep.depth, hrep.maxDepth, hrep.capped,
      hrep.room, hrep.scopes, hrep.unfinished⟩
    input := rfl
    cb := rfl
    maxDepth := rfl
    scopes := fun i hi => by
      have hne : i ≠ (s.seek bs).depth := by
        rw [SaxState.seek_depth, h.depth]
        exact hi.ne
      exact Function.update_of_ne hne _ _
    shorter := by
      rw [hr]
      exact Nat.lt_succ_self _ }

theorem opened_refused (h : Represents limit s c) (hr : c.rest = b :: bs)
    (hstep : scanStep limit c = .emit e { c.readTo bs with stack := o :: c.stack })
    (bad : (((s.seek bs).pushed isDict).notify e).1 ≠ .ok) :
    Answers limit c.stack s c (do
      let s' ← popScope (((s.seek bs).pushed isDict).notify e).2
      return ((((s.seek bs).pushed isDict).notify e).1, s')) := by
  have hsuf : bs <:+ c.rest := hr ▸ List.suffix_cons b bs
  have hends : Ends limit c.stack s c (((s.seek bs).pushed isDict).notify e).2
      (((s.seek bs).pushed isDict).notify e).1 := .refuse hstep rfl rfl (h.offset_eq hsuf) bad
  refine failed_answers (congrArg (· + 1) h.depth)
    ⟨rfl, rfl, rfl, rfl, ?_, SaxState.seek_inBounds bs⟩ hends bad
  intro i hi
  have hne : i ≠ (s.seek bs).depth := by
    rw [SaxState.seek_depth, h.depth]
    exact hi.ne
  exact Function.update_of_ne hne _ _

/-- A container opens: its first event is told, and `rest` reads what is in it. -/
theorem opened_answers (isDict : Bool) {rest : SaxState σ → SaxM (Status × SaxState σ)}
    (h : Represents limit s c) (hr : c.rest = b :: bs) (hroom : c.stack.length < limit)
    (hmatch : ScopeMatches s.input ⟨isDict, isDict, none, 0⟩ o)
    (hstep : scanStep limit c = .emit e { c.readTo bs with stack := o :: c.stack })
    (loop : ∀ s', Represents limit s' { c.readTo bs with stack := o :: c.stack } →
      Answers limit c.stack s' { c.readTo bs with stack := o :: c.stack } (rest s')) :
    Answers limit c.stack s c (do
      let (st, s') := ((s.seek bs).pushed isDict).notify e
      if st ≠ .ok then return (st, ← popScope s')
      rest s') := by
  by_cases ok : (((s.seek bs).pushed isDict).notify e).1 = .ok
  · have hopen := opened_advances h hr hroom hmatch hstep ok
    simpa [ok] using hopen.answers (loop _ hopen.represents)
  · simpa [ok] using opened_refused h hr hstep ok

end Opening

theorem parseList_answers {fuel : Nat} (loop : ListAnswers σ limit fuel) {s : SaxState σ}
    {c : Config} {bs : Bytes} (h : Represents limit s c) (hr : c.rest = 'l'.toUInt8 :: bs)
    (hstep : scanStep limit c = scanValue limit c 'l'.toUInt8 bs)
    (hfuel : 3 * c.rest.length ≤ fuel + 1) :
    Answers limit c.stack s c (parseList (fuel + 1) s) := by
  have hadv := SaxState.advance_of_cons (h.rest.trans hr)
  rw [scanValue, if_neg (by decide), if_pos rfl] at hstep
  by_cases hfull : c.stack.length ≥ limit
  · have hpush := h.push_full hfull bs false
    rw [if_pos hfull] at hstep
    simpa [parseList, hadv, hpush] using
      h.answers_stop (hr ▸ List.suffix_cons _ bs) hstep (by decide)
  have hroom : c.stack.length < limit := Nat.lt_of_not_le hfull
  have hpush := h.push_ok hroom bs false
  rw [if_neg hfull] at hstep
  have hopen := opened_answers (o := .list []) false h hr hroom trivial hstep fun s' hrep =>
    loop s' _ [] c.stack hrep rfl (by
      rw [hr, List.length_cons] at hfuel
      show 3 * bs.length + 2 ≤ fuel
      omega)
  simpa [parseList, hadv, hpush] using hopen

theorem parseDict_answers {fuel : Nat} (loop : DictAnswers σ limit fuel) {s : SaxState σ}
    {c : Config} {bs : Bytes} (h : Represents limit s c) (hr : c.rest = 'd'.toUInt8 :: bs)
    (hstep : scanStep limit c = scanValue limit c 'd'.toUInt8 bs)
    (hfuel : 3 * c.rest.length ≤ fuel + 1) :
    Answers limit c.stack s c (parseDict (fuel + 1) s) := by
  have hadv := SaxState.advance_of_cons (h.rest.trans hr)
  rw [scanValue, if_neg (by decide), if_neg (by decide), if_pos rfl] at hstep
  by_cases hfull : c.stack.length ≥ limit
  · have hpush := h.push_full hfull bs true
    rw [if_pos hfull] at hstep
    simpa [parseDict, hadv, hpush] using
      h.answers_stop (hr ▸ List.suffix_cons _ bs) hstep (by decide)
  have hroom : c.stack.length < limit := Nat.lt_of_not_le hfull
  have hpush := h.push_ok hroom bs true
  rw [if_neg hfull] at hstep
  have hopen := opened_answers (o := .dict [] none) true h hr hroom ⟨rfl, rfl⟩ hstep fun s' hrep =>
    loop s' _ [] none c.stack hrep rfl (by
      rw [hr, List.length_cons] at hfuel
      show 3 * bs.length + 2 ≤ fuel
      omega)
  simpa [parseDict, hadv, hpush] using hopen

/-! ## Values -/

theorem parseValue_answers {fuel : Nat} (list : ∀ n < fuel, ListAnswers σ limit n)
    (dict : ∀ n < fuel, DictAnswers σ limit n) : ValueAnswers σ limit (fuel + 1) := by
  intro s c h hvalue hfuel
  cases hr : c.rest with
  | nil =>
      have hend : s.atEnd = true := SaxState.atEnd_of_nil (h.rest.trans hr)
      have hstop := h.answers_here (h.pos ▸ h.step_nil hr) (by decide)
      simpa [parseValue, hend] using hstop
  | cons b bs =>
      have hend := SaxState.not_atEnd_of_cons (h.rest.trans hr)
      have hpeek := SaxState.peek_of_cons (h.rest.trans hr)
      have hstep := hvalue b bs hr
      obtain ⟨n, rfl⟩ : ∃ n, fuel = n + 1 := ⟨fuel - 1, by
        rw [hr, List.length_cons] at hfuel
        omega⟩
      by_cases hi : b = 'i'.toUInt8
      · subst hi
        simpa [parseValue, hend, hpeek] using parseInt_answers h hr hstep
      by_cases hl : b = 'l'.toUInt8
      · subst hl
        have hli : 'l'.toUInt8 ≠ 'i'.toUInt8 := by decide
        simpa [parseValue, hend, hpeek, hli] using
          parseList_answers (list n (Nat.lt_succ_self n)) h hr hstep (by omega)
      by_cases hd : b = 'd'.toUInt8
      · subst hd
        have hdi : 'd'.toUInt8 ≠ 'i'.toUInt8 := by decide
        have hdl : 'd'.toUInt8 ≠ 'l'.toUInt8 := by decide
        simpa [parseValue, hend, hpeek, hdi, hdl] using
          parseDict_answers (dict n (Nat.lt_succ_self n)) h hr hstep (by omega)
      by_cases hdig : isDigit b = true
      · simpa [parseValue, hend, hpeek, hi, hl, hd, hdig] using
          parseString_answers h hr hdig hstep
      · rw [scanValue, if_neg hi, if_neg hl, if_neg hd, if_neg hdig] at hstep
        have hstop := h.answers_here hstep (by decide)
        simpa [parseValue, hend, hpeek, hi, hl, hd, hdig] using hstop

theorem allAnswer (σ : Type) (limit fuel : Nat) :
    ValueAnswers σ limit fuel ∧ ListAnswers σ limit fuel ∧ DictAnswers σ limit fuel := by
  induction fuel using Nat.strongRecOn with
  | ind fuel ih =>
      cases fuel with
      | zero =>
          refine ⟨?_, ?_, ?_⟩
          · intro s c _ _ hfuel
            omega
          · intro s c _ _ _ _ hfuel
            omega
          · intro s c _ _ _ _ _ hfuel
            omega
      | succ fuel =>
          have hfuel := ih fuel (Nat.lt_succ_self fuel)
          exact ⟨parseValue_answers (fun n hn => (ih n (Nat.lt_succ_of_lt hn)).2.1)
              (fun n hn => (ih n (Nat.lt_succ_of_lt hn)).2.2),
            listLoop_answers hfuel.1 hfuel.2.1, dictLoop_answers hfuel.1 hfuel.2.2⟩

/-! ## The entry point -/

theorem effectiveDepth_le (maxDepth : Nat) : effectiveDepth maxDepth ≤ internalMaxDepth := by
  have hclamp : ∀ n, (if n > internalMaxDepth then internalMaxDepth else n) ≤ internalMaxDepth := by
    intro n
    split
    · exact Nat.le_refl _
    · next h => exact Nat.le_of_not_gt h
  exact hclamp _

theorem saxStart_represents (input : Bytes) (cb : Option (Callbacks σ)) (user : σ)
    (maxDepth : Nat) :
    Represents (effectiveDepth maxDepth) (saxStart input cb user maxDepth) (.start input) where
  inBounds := Nat.zero_le _
  rest := rfl
  pos := rfl
  depth := rfl
  maxDepth := rfl
  capped := effectiveDepth_le maxDepth
  room := Nat.zero_le _
  scopes := trivial
  unfinished := rfl

/-- The call of `parse_value` that `bencode_parse_sax` makes. -/
theorem saxStart_answers (input : Bytes) (cb : Option (Callbacks σ)) (user : σ) (maxDepth : Nat) :
    Answers (effectiveDepth maxDepth) [] (saxStart input cb user maxDepth) (.start input)
      (parseValue (saxFuel input.length) (saxStart input cb user maxDepth)) := by
  have h := saxStart_represents input cb user maxDepth
  refine (allAnswer σ (effectiveDepth maxDepth) (saxFuel input.length)).1 _ _ h ?_ (Nat.le_refl _)
  intro b bs hr
  rw [h.step_cons hr]
  rfl

inductive Replays (limit : Nat) (input : Bytes) (cb : Option (Callbacks σ)) (user : σ)
    (r : SaxResult σ) : Prop
  | finished (es : List Event) (run : Scans limit input es r.status r.consumed)
      (told : deliver .ok (callBack cb) es user = (.ok, r.user))
  | refused (es : List Event) (e : Event) (d : Config) (u : σ) (bad : r.status ≠ .ok)
      (run : Reaches (scanStep limit) (.start input) (es ++ [e]) d) (pos : d.pos = r.consumed)
      (told : deliver .ok (callBack cb) es user = (.ok, u))
      (refusal : callBack cb e u = (r.status, r.user))

theorem Ends.replays {input : Bytes} {cb : Option (Callbacks σ)} {user : σ} {maxDepth : Nat}
    {s' : SaxState σ} {st : Status}
    (h : Ends limit [] (saxStart input cb user maxDepth) (.start input) s' st) :
    Replays limit input cb user ⟨st, s'.p, s'.user⟩ := by
  cases h with
  | completed es t run told => exact .finished es ⟨_, run, rfl⟩ told
  | stopped es st bad run told => exact .finished es run told
  | refused es e d u st bad run pos told refusal => exact .refused es e d u bad run pos told refusal

/-- `bencode_parse_sax` never faults and replays the scanner's run. -/
theorem bencodeParseSax_replays (input : Span) (hbad : input.isBad = false)
    (cb : Option (Callbacks σ)) (user : σ) (maxDepth : Nat) :
    ∃ r, bencodeParseSax input cb user maxDepth = .ok r ∧
      Replays (effectiveDepth maxDepth) input.bytes cb user r := by
  by_cases hlen : input.len = 0
  · refine ⟨⟨.errTruncated, 0, user⟩, by simp [bencodeParseSax, hbad, hlen], ?_⟩
    have hnil : input.bytes = [] := by
      rw [← List.length_eq_zero_iff, Span.length_bytes hbad, hlen]
    rw [hnil]
    exact .finished [] ⟨_, .refl _, rfl⟩ rfl
  · obtain ⟨st, s', hrun, -, hends⟩ := saxStart_answers input.bytes cb user maxDepth
    rw [Span.length_bytes hbad] at hrun
    exact ⟨_, by simp [bencodeParseSax, hbad, hlen, hrun], hends.replays⟩

/-- The null pointer is an empty input, or an invalid one when it claims to hold bytes. -/
theorem bencodeParseSax_nullInput (n : Nat) (cb : Option (Callbacks σ)) (user : σ)
    (maxDepth : Nat) : bencodeParseSax (.null n) cb user maxDepth =
      .ok ⟨if n = 0 then .errTruncated else .errInvalidArg, 0, user⟩ := by
  by_cases hn : n = 0
  · simp [bencodeParseSax, Span.isBad, Span.len, hn]
  · simp [bencodeParseSax, Span.isBad, hn]

/-! ## Callbacks that accept everything -/

theorem Replays.of_accepting {input : Bytes} {cb : Option (Callbacks σ)} {user : σ}
    {r : SaxResult σ} (h : Replays limit input cb user r)
    (accepts : ∀ e u, (callBack cb e u).1 = .ok) :
    ∃ es, Scans limit input es r.status r.consumed ∧
      deliver .ok (callBack cb) es user = (.ok, r.user) := by
  cases h with
  | finished es run told => exact ⟨es, run, told⟩
  | refused es e d u bad run pos told refusal =>
      have hok := accepts e u
      rw [refusal] at hok
      exact absurd hok bad

theorem bencodeParseSax_null (input : Span) (hbad : input.isBad = false) (maxDepth : Nat) :
    ∃ es st off, bencodeParseSax input none () maxDepth = .ok ⟨st, off, ()⟩ ∧
      Scans (effectiveDepth maxDepth) input.bytes es st off := by
  obtain ⟨r, hrun, hreplay⟩ := bencodeParseSax_replays input hbad none () maxDepth
  obtain ⟨es, hscan, -⟩ := hreplay.of_accepting fun _ _ => rfl
  exact ⟨es, r.status, r.consumed, hrun, hscan⟩

def recorder : Callbacks (List Event) where
  onInt := some fun value log => (.ok, log ++ [.int value])
  onString := some fun off bytes log => (.ok, log ++ [.string off bytes])
  onListBegin := some fun log => (.ok, log ++ [.listBegin])
  onListEnd := some fun log => (.ok, log ++ [.listEnd])
  onDictBegin := some fun log => (.ok, log ++ [.dictBegin])
  onDictEnd := some fun log => (.ok, log ++ [.dictEnd])

theorem callBack_recorder (e : Event) (log : List Event) :
    callBack (some recorder) e log = (.ok, log ++ [e]) := by
  cases e <;> rfl

theorem bencodeParseSax_recorder (input : Span) (hbad : input.isBad = false) (maxDepth : Nat) :
    ∃ es st off, bencodeParseSax input (some recorder) [] maxDepth = .ok ⟨st, off, es⟩ ∧
      Scans (effectiveDepth maxDepth) input.bytes es st off := by
  obtain ⟨r, hrun, hreplay⟩ := bencodeParseSax_replays input hbad (some recorder) [] maxDepth
  obtain ⟨es, hscan, told⟩ := hreplay.of_accepting fun e u => by rw [callBack_recorder]
  have hrec : callBack (some recorder) = fun e log => (.ok, log ++ [e]) := by
    funext e log
    exact callBack_recorder e log
  rw [hrec, deliver_record] at told
  cases told
  exact ⟨_, r.status, r.consumed, hrun, hscan⟩

end Bencode
