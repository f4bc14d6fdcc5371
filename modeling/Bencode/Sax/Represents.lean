import Bencode.Library.Delivery
import Bencode.Sax.Lexer
import Bencode.Spec.KeyOrder
import Bencode.Spec.Steps

/-!
# Parser states that stand for scanner configurations

The parser's cursor and scope array represent the rest and the stack of a scanner
configuration. A call made in a represented state ends in one of three ways, and
such ends compose.
-/

namespace Bencode

open LabelledMachine Delivery

variable {σ : Type} {limit : Nat}

/-! ## Scope records and open containers -/

def keySeen (done : List (Bytes × Tree)) (key : Option Bytes) : Option Bytes :=
  key.or (lastKey done)

/-- A pointer into the input with a length gives the key `k`, or is null. -/
def PointsAt (input : Bytes) (ptr : Option Nat) (len : Nat) : Option Bytes → Prop
  | none => ptr = none
  | some k => ∃ off, ptr = some off ∧ len = k.length ∧ k <+: input.drop off

/-- What a `sax_scope` says of an open container. -/
def ScopeMatches (input : Bytes) (sc : SaxScope) : OpenScope → Prop
  | .list _ => True
  | .dict done key =>
      sc.expectingKey = key.isNone ∧
        PointsAt input sc.lastKey sc.lastKeyLen (keySeen done key)

/-- The scope array below the depth describes the stack of open containers. -/
def StackMatches (input : Bytes) (scopes : Nat → SaxScope) : List OpenScope → Prop
  | [] => True
  | o :: below => ScopeMatches input (scopes below.length) o ∧ StackMatches input scopes below

theorem StackMatches.congr {input : Bytes} {scopes scopes' : Nat → SaxScope}
    {stack : List OpenScope} (h : StackMatches input scopes stack)
    (same : ∀ i < stack.length, scopes' i = scopes i) : StackMatches input scopes' stack := by
  induction stack with
  | nil => trivial
  | cons o below ih =>
      refine ⟨?_, ih h.2 fun i hi => same i (Nat.lt_succ_of_lt hi)⟩
      rw [same below.length (Nat.lt_succ_self _)]
      exact h.1

/-- The state of the parser stands for a configuration that has no result yet. -/
structure Represents (limit : Nat) (s : SaxState σ) (c : Config) : Prop where
  inBounds : s.InBounds
  rest : s.rest = c.rest
  pos : s.p = c.pos
  depth : s.depth = c.stack.length
  maxDepth : s.maxDepth = limit
  capped : limit ≤ internalMaxDepth
  room : c.stack.length ≤ limit
  scopes : StackMatches s.input s.scopes c.stack
  unfinished : c.result = none

/-- What every call keeps, on every exit: the scopes it was called with. -/
structure Frame (base : List OpenScope) (s s' : SaxState σ) : Prop where
  input : s'.input = s.input
  cb : s'.cb = s.cb
  maxDepth : s'.maxDepth = s.maxDepth
  depth : s'.depth = base.length
  scopes : ∀ i < base.length, s'.scopes i = s.scopes i
  inBounds : s'.InBounds

def completedAt (base : List OpenScope) (t : Tree) (rest : Bytes) (pos : Nat) : Config :=
  ⟨(settle base t).1, (settle base t).2, rest, pos⟩

/-- How a call ends that was made in `s` while the scanner was in `c`: the value is
complete, the scanner stops, or a callback refuses the event of the last token. -/
inductive Ends (limit : Nat) (base : List OpenScope) (s : SaxState σ) (c : Config)
    (s' : SaxState σ) : Status → Prop
  | completed (es : List Event) (t : Tree)
      (run : Reaches (scanStep limit) c es (completedAt base t s'.rest s'.p))
      (told : deliver .ok (callBack s.cb) es s.user = (.ok, s'.user))
      (shorter : s'.rest.length < c.rest.length) : Ends limit base s c s' .ok
  | stopped (es : List Event) (st : Status) (bad : st ≠ .ok)
      (run : Finishes (scanStep limit) c es (st, s'.p))
      (told : deliver .ok (callBack s.cb) es s.user = (.ok, s'.user)) : Ends limit base s c s' st
  | refused (es : List Event) (e : Event) (d : Config) (u : σ) (st : Status) (bad : st ≠ .ok)
      (run : Reaches (scanStep limit) c (es ++ [e]) d) (pos : d.pos = s'.p)
      (told : deliver .ok (callBack s.cb) es s.user = (.ok, u))
      (refusal : callBack s.cb e u = (st, s'.user)) : Ends limit base s c s' st

/-! ## Composition -/

theorem Ends.after {base : List OpenScope} {s s₁ s' : SaxState σ} {c d : Config} {st : Status}
    {es : List Event} (run : Reaches (scanStep limit) c es d)
    (told : deliver .ok (callBack s.cb) es s.user = (.ok, s₁.user)) (cb : s₁.cb = s.cb)
    (shorter : d.rest.length ≤ c.rest.length) (h : Ends limit base s₁ d s' st) :
    Ends limit base s c s' st := by
  cases h with
  | completed fs t run' told' shorter' =>
      refine .completed (es ++ fs) t (run.trans run') ?_ (by omega)
      rw [deliver_append_of_go told, ← cb, told']
  | stopped fs st bad run' told' =>
      refine .stopped (es ++ fs) st bad (run.finishes run') ?_
      rw [deliver_append_of_go told, ← cb, told']
  | refused fs e d' u st bad run' pos told' refusal =>
      refine .refused (es ++ fs) e d' u st bad ?_ pos ?_ (cb ▸ refusal)
      · rw [List.append_assoc]
        exact run.trans run'
      · rw [deliver_append_of_go told, ← cb, told']

/-- A failed call is the caller's failure too, whatever the caller does to the scopes. -/
theorem Ends.failed {base base' : List OpenScope} {s s₁ s' : SaxState σ} {c : Config}
    {st : Status} (h : Ends limit base s c s₁ st) (bad : st ≠ .ok) (p : s'.p = s₁.p)
    (user : s'.user = s₁.user) : Ends limit base' s c s' st := by
  cases h with
  | completed => exact absurd rfl bad
  | stopped es st bad run told => exact .stopped es st bad (p ▸ run) (user ▸ told)
  | refused es e d u st bad run pos told refusal =>
      exact .refused es e d u st bad run (p ▸ pos) told (user ▸ refusal)

theorem Ends.stop {base : List OpenScope} {s s' : SaxState σ} {c : Config} {st : Status}
    (hstep : scanStep limit c = .stop (st, s'.p)) (bad : st ≠ .ok) (user : s'.user = s.user) :
    Ends limit base s c s' st :=
  .stopped [] st bad ⟨c, .refl c, hstep⟩ (by rw [deliver_nil, user])

theorem Ends.refuse {base : List OpenScope} {s s₁ : SaxState σ} {c d : Config} {e : Event}
    (hstep : scanStep limit c = .emit e d) (user : s₁.user = s.user) (cb : s₁.cb = s.cb)
    (pos : d.pos = s₁.p) (bad : (s₁.notify e).1 ≠ .ok) :
    Ends limit base s c (s₁.notify e).2 (s₁.notify e).1 := by
  refine .refused [] e d s.user _ bad (.single hstep) pos rfl ?_
  rw [← user, ← cb]
  rfl

theorem told_single {s s₁ : SaxState σ} {e : Event} (user : s₁.user = s.user) (cb : s₁.cb = s.cb)
    (ok : (s₁.notify e).1 = .ok) :
    deliver .ok (callBack s.cb) [e] s.user = (.ok, (s₁.notify e).2.user) := by
  rw [deliver_singleton, ← user, ← cb]
  exact Prod.ext ok rfl

/-- The last event of a value, whatever the callback answers. -/
theorem Ends.finish {base : List OpenScope} {s s₁ : SaxState σ} {c : Config} {e : Event}
    {t : Tree} (hstep : scanStep limit c = .emit e (completedAt base t s₁.rest s₁.p))
    (user : s₁.user = s.user) (cb : s₁.cb = s.cb) (shorter : s₁.rest.length < c.rest.length) :
    Ends limit base s c (s₁.notify e).2 (s₁.notify e).1 := by
  by_cases ok : (s₁.notify e).1 = .ok
  · rw [ok]
    exact .completed [e] t (.single hstep) (told_single user cb ok) shorter
  · exact .refuse hstep user cb rfl ok

/-! ## Frames -/

theorem Frame.rebase {base : List OpenScope} {s s₁ s' : SaxState σ} (h : Frame base s₁ s')
    (input : s₁.input = s.input) (cb : s₁.cb = s.cb) (maxDepth : s₁.maxDepth = s.maxDepth)
    (scopes : ∀ i < base.length, s₁.scopes i = s.scopes i) : Frame base s s' where
  input := h.input.trans input
  cb := h.cb.trans cb
  maxDepth := h.maxDepth.trans maxDepth
  depth := h.depth
  scopes i hi := (h.scopes i hi).trans (scopes i hi)
  inBounds := h.inBounds

theorem Frame.notify {base : List OpenScope} {s s' : SaxState σ} (h : Frame base s s')
    (e : Event) : Frame base s (s'.notify e).2 :=
  ⟨h.input, h.cb, h.maxDepth, h.depth, h.scopes, h.inBounds⟩

theorem Represents.frame_seek {s : SaxState σ} {c : Config} (h : Represents limit s c)
    (r : Bytes) : Frame c.stack s (s.seek r) :=
  ⟨rfl, rfl, rfl, h.depth, fun _ _ => rfl, SaxState.seek_inBounds r⟩

theorem popScope_eq {s : SaxState σ} {n : Nat} (h : s.depth = n + 1) :
    popScope s = .ok { s with depth := n } := by
  simp [popScope, h]

theorem Represents.frame_closed {s : SaxState σ} {c : Config} (h : Represents limit s c)
    (base : List OpenScope) : Frame base s { s with depth := base.length } :=
  ⟨rfl, rfl, rfl, rfl, fun _ _ => rfl, h.inBounds⟩

/-- The frame of a container from a frame of the values in it. -/
theorem Frame.inner {o : OpenScope} {base : List OpenScope} {s s' : SaxState σ}
    (h : Frame (o :: base) s s') : Frame base s { s' with depth := base.length } :=
  ⟨h.input, h.cb, h.maxDepth, rfl, fun i hi => h.scopes i (Nat.lt_succ_of_lt hi), h.inBounds⟩

/-! ## Offsets and slices -/

namespace Represents

variable {s : SaxState σ} {c : Config}

theorem suffix (h : Represents limit s c) {r : Bytes} (hr : r <:+ c.rest) : r <:+ s.input :=
  hr.trans (h.rest ▸ s.rest_suffix)

theorem offset_eq (h : Represents limit s c) {r : Bytes} (hr : r <:+ c.rest) :
    c.offset r = (s.seek r).p := by
  have hle := hr.length_le
  have hlen := s.length_rest
  have hp := h.inBounds
  rw [h.rest] at hlen
  unfold SaxState.InBounds at hp
  rw [Config.offset, ← h.pos, SaxState.seek]
  dsimp only
  omega

theorem rest_eq (h : Represents limit s c) {r : Bytes} (hr : r <:+ c.rest) :
    (s.seek r).rest = r := SaxState.rest_seek (h.suffix hr)

/-- The token that was just read, as the caller of the parser sees it. -/
theorem payload_drop (h : Represents limit s c) {bytes r : Bytes} (hr : bytes ++ r <:+ c.rest) :
    s.input.drop (s.input.length - r.length - bytes.length) = bytes ++ r := by
  obtain ⟨pre, hpre⟩ := h.suffix hr
  have hlen : s.input.length - r.length - bytes.length = pre.length := by
    rw [← hpre]
    simp only [List.length_append]
    omega
  rw [hlen, ← hpre, List.drop_left]

theorem seek (h : Represents limit s c) {r : Bytes} (hr : r <:+ c.rest) :
    Represents limit (s.seek r) (c.readTo r) where
  inBounds := SaxState.seek_inBounds r
  rest := h.rest_eq hr
  pos := (h.offset_eq hr).symm
  depth := h.depth
  maxDepth := h.maxDepth
  capped := h.capped
  room := h.room
  scopes := h.scopes
  unfinished := h.unfinished

theorem complete (h : Represents limit s c) {r : Bytes} (hr : r <:+ c.rest) (t : Tree) :
    (c.readTo r).give t = completedAt c.stack t (s.seek r).rest (s.seek r).p := by
  rw [h.rest_eq hr, ← h.offset_eq hr]
  rfl

theorem step_cons (h : Represents limit s c) {b : UInt8} {bs : Bytes} (hr : c.rest = b :: bs) :
    scanStep limit c = scanByte limit c b bs := by
  simp only [scanStep, h.unfinished, hr]

theorem step_nil (h : Represents limit s c) (hr : c.rest = []) :
    scanStep limit c = .stop (.errTruncated, s.p) := by
  simp only [scanStep, h.unfinished, hr, h.pos]

/-! ## The first byte decides -/

section FirstByte

variable {base : List OpenScope} {done : List (Bytes × Tree)} {b : UInt8} {bs : Bytes}

theorem step_value (h : Represents limit s c) (await : Awaits c.stack) (hr : c.rest = b :: bs)
    (hb : b ≠ 'e'.toUInt8) (b' : UInt8) (bs' : Bytes) (hr' : c.rest = b' :: bs') :
    scanStep limit c = scanValue limit c b' bs' := by
  cases hr.symm.trans hr'
  exact scanStep_value h.unfinished await hr hb

theorem step_listEnd (h : Represents limit s c) {items : List Tree}
    (hstack : c.stack = .list items :: base) (hr : c.rest = b :: bs) (hb : b = 'e'.toUInt8) :
    scanStep limit c =
      .emit .listEnd ({ c.readTo bs with stack := base }.give (.list items)) := by
  rw [h.step_cons hr, scanByte, hstack]
  simp only [if_pos hb]

theorem step_dictEnd (h : Represents limit s c) (hstack : c.stack = .dict done none :: base)
    (hr : c.rest = b :: bs) (hb : b = 'e'.toUInt8) :
    scanStep limit c =
      .emit .dictEnd ({ c.readTo bs with stack := base }.give (.dict done)) := by
  rw [h.step_cons hr, scanByte, hstack]
  simp only [if_pos hb]

theorem step_missing (h : Represents limit s c) {key : Bytes}
    (hstack : c.stack = .dict done (some key) :: base) (hr : c.rest = b :: bs)
    (hb : b = 'e'.toUInt8) : scanStep limit c = .stop (.errDictMissingValue, s.p) := by
  rw [h.step_cons hr, scanByte, hstack, h.pos]
  simp only [if_pos hb]

theorem step_key (h : Represents limit s c) (hstack : c.stack = .dict done none :: base)
    (hr : c.rest = b :: bs) (hb : b ≠ 'e'.toUInt8) :
    scanStep limit c = scanKey c done base b bs := by
  rw [h.step_cons hr, scanByte, hstack]
  simp only [if_neg hb]

end FirstByte

/-! ## The innermost scope -/

theorem depth_cons (h : Represents limit s c) {o : OpenScope} {base : List OpenScope}
    (hstack : c.stack = o :: base) : s.depth = base.length + 1 := by
  rw [h.depth, hstack, List.length_cons]

theorem index_lt (h : Represents limit s c) {o : OpenScope} {base : List OpenScope}
    (hstack : c.stack = o :: base) : base.length < internalMaxDepth := by
  have hroom := h.room
  rw [hstack] at hroom
  exact lt_of_lt_of_le hroom h.capped

/-- The scope record of a dict on top says whether a key is due. -/
theorem top_scope (h : Represents limit s c) {done : List (Bytes × Tree)} {key : Option Bytes}
    {base : List OpenScope} (hstack : c.stack = .dict done key :: base) :
    s.topIndex = .ok base.length ∧ s.getScope base.length = .ok (s.scopes base.length) ∧
      (s.scopes base.length).expectingKey = key.isNone := by
  have hscopes := h.scopes
  rw [hstack] at hscopes
  refine ⟨?_, if_pos (h.index_lt hstack), hscopes.1.1⟩
  simp [SaxState.topIndex, h.depth_cons hstack]

end Represents

end Bencode
