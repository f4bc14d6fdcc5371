import Bencode.Sax.Calls

/-!
# Where the scanner is at each call

The events of the calls are those of the scanner's run, in order, and at each call the
depth and the scope records of the parser tell which containers the scanner has open: one
more when the call opens a container, one less when it closes one.
-/

namespace Bencode

open LabelledMachine Delivery

variable {σ : Type} {limit : Nat}

/-! ## Kinds of containers -/

def OpenScope.isDict : OpenScope → Bool
  | .list _ => false
  | .dict _ _ => true

namespace Event

def opens : Event → Bool
  | .listBegin => true
  | .dictBegin => true
  | _ => false

def closes : Event → Bool
  | .listEnd => true
  | .dictEnd => true
  | _ => false

end Event

def KindsMatch (scopes : Nat → SaxScope) : List OpenScope → Prop
  | [] => True
  | o :: below => (scopes below.length).isDict = o.isDict ∧ KindsMatch scopes below

theorem KindsMatch.congr {scopes scopes' : Nat → SaxScope} {stack : List OpenScope}
    (h : KindsMatch scopes stack)
    (same : ∀ i < stack.length, (scopes' i).isDict = (scopes i).isDict) :
    KindsMatch scopes' stack := by
  induction stack with
  | nil => trivial
  | cons o below ih =>
      refine ⟨?_, ih h.2 fun i hi => same i (Nat.lt_succ_of_lt hi)⟩
      rw [same below.length (Nat.lt_succ_self _)]
      exact h.1

/-! ## Calls and the scanner -/

/-- The call `k` is made where the scanner reads its event in the configuration `c`. -/
structure Meets (limit : Nat) (c : Config) (k : Call σ) : Prop where
  emits : ∃ d, scanStep limit c = .emit k.event d
  depth : k.state.depth + k.event.closes.toNat = c.stack.length + k.event.opens.toNat
  kinds : KindsMatch k.state.scopes c.stack
  key : k.event.closes = false → (k.isKey = true ↔ ¬ Awaits c.stack)

/-- The events of the calls `ks` take the scanner from `c` to `d` and, all accepted, the callback
state from `u` to `v`. -/
structure Follows (limit : Nat) (cb : Option (Callbacks σ)) (c : Config) (u : σ)
    (ks : List (Call σ)) (d : Config) (v : σ) : Prop where
  run : Reaches (scanStep limit) c (ks.map Call.event) d
  told : deliver .ok (callBack cb) (ks.map Call.event) u = (.ok, v)

def Lawful (limit : Nat) (cb : Option (Callbacks σ)) (c : Config) (u : σ) (ks : List (Call σ)) :
    Prop :=
  ∀ before k after, ks = before ++ k :: after →
    ∃ d, Follows limit cb c u before d k.state.user ∧ Meets limit d k

section Lists

variable {cb : Option (Callbacks σ)} {c d : Config} {u v : σ} {k : Call σ}
  {ks ls : List (Call σ)}

theorem Follows.nil : Follows limit cb c u [] c u := ⟨.refl c, rfl⟩

theorem Follows.append {d' : Config} {w : σ} (h : Follows limit cb c u ks d v)
    (h' : Follows limit cb d v ls d' w) : Follows limit cb c u (ks ++ ls) d' w := by
  refine ⟨?_, ?_⟩
  · rw [List.map_append]
    exact h.run.trans h'.run
  · rw [List.map_append, deliver_append_of_go h.told]
    exact h'.told

theorem Lawful.nil : Lawful limit cb c u [] := by
  intro before k after h
  cases before <;> cases h

theorem Lawful.single (meets : Meets limit c k) (user : k.state.user = u) :
    Lawful limit cb c u [k] := by
  intro before k' after h
  cases before with
  | nil =>
      cases h
      exact ⟨c, user ▸ .nil, meets⟩
  | cons k₁ before =>
      rw [List.cons_append, List.cons.injEq] at h
      cases before with
      | nil => cases h.2
      | cons => cases h.2

theorem Lawful.append (h : Lawful limit cb c u ks) (follows : Follows limit cb c u ks d v)
    (h' : Lawful limit cb d v ls) : Lawful limit cb c u (ks ++ ls) := by
  intro before k after hsplit
  rcases List.append_eq_append_iff.mp hsplit with ⟨mid, rfl, htail⟩ | ⟨mid, hks, htail⟩
  · obtain ⟨d', hfollows, hmeets⟩ := h' mid k after htail
    exact ⟨d', follows.append hfollows, hmeets⟩
  · cases mid with
    | nil =>
        rw [List.append_nil] at hks
        subst hks
        obtain ⟨d', hfollows, hmeets⟩ := h' [] k after (by simpa using htail.symm)
        exact ⟨d', by simpa using follows.append hfollows, hmeets⟩
    | cons k' mid =>
        rw [List.cons_append, List.cons.injEq] at htail
        obtain ⟨rfl, -⟩ := htail
        exact h before k mid hks

end Lists

/-! ## The key before a value -/

theorem settle_no_key {stack below : List OpenScope} {t : Tree} {done : List (Bytes × Tree)}
    {key : Bytes} : (settle stack t).1 ≠ .dict done (some key) :: below := by
  intro h
  cases stack with
  | nil => cases h
  | cons o below =>
      cases o with
      | list => cases h
      | dict done key => cases key <;> cases h

theorem scanStep_key {c d : Config} {e : Event} (hstep : scanStep limit c = .emit e d)
    {done : List (Bytes × Tree)} {key : Bytes} {below : List OpenScope}
    (hstack : d.stack = .dict done (some key) :: below) :
    c.stack = .dict done none :: below ∧ ∃ off, e = .string off key := by
  obtain ⟨-, tok, rest, next, -, read, rfl⟩ := scanStep_emit hstep
  have hnext : next.1 = .dict done (some key) :: below := hstack
  generalize c.stack = stack at read
  cases read with
  | int => exact absurd hnext settle_no_key
  | string => exact absurd hnext settle_no_key
  | listBegin => cases hnext
  | dictBegin => cases hnext
  | key =>
      cases hnext
      exact ⟨rfl, _, rfl⟩
  | listEnd => exact absurd hnext settle_no_key
  | dictEnd => exact absurd hnext settle_no_key

/-- The call before a value of a dict is the call for its key. -/
theorem Lawful.key_before {cb : Option (Callbacks σ)} {w : Bytes} {u : σ}
    {calls before after : List (Call σ)} {k : Call σ} {d : Config}
    (lawful : Lawful limit cb (.start w) u calls) (hsplit : calls = before ++ k :: after)
    (follows : Follows limit cb (.start w) u before d k.state.user)
    {done : List (Bytes × Tree)} {key : Bytes} {below : List OpenScope}
    (hstack : d.stack = .dict done (some key) :: below) :
    ∃ earlier k' c off, before = earlier ++ [k'] ∧ c.stack = .dict done none :: below ∧
      Follows limit cb (.start w) u earlier c k'.state.user ∧ Meets limit c k' ∧
      k'.event = .string off key ∧ k'.isKey = true ∧
      callBack cb k'.event k'.state.user = (.ok, k.state.user) := by
  rcases List.eq_nil_or_concat before with rfl | ⟨earlier, k', rfl⟩
  · cases follows.run
    cases hstack
  rw [List.concat_eq_append] at *
  have hsplit' : calls = earlier ++ k' :: k :: after := by
    rw [hsplit, List.append_assoc]
    rfl
  obtain ⟨c, hfollows, hmeets⟩ := lawful earlier k' (k :: after) hsplit'
  obtain ⟨d', hstep⟩ := hmeets.emits
  have hrun := hfollows.run.trans (.single hstep)
  have hd : d' = d := by
    refine hrun.det ?_
    have := follows.run
    rwa [List.map_append] at this
  subst hd
  obtain ⟨hc, off, hevent⟩ := scanStep_key hstep hstack
  have htold := follows.told
  rw [List.map_append, deliver_append_of_go hfollows.told, List.map_singleton,
    deliver_singleton] at htold
  have hkey : k'.isKey = true := by
    refine (hmeets.key (by rw [hevent]; rfl)).mpr ?_
    rw [hc]
    exact not_false
  exact ⟨earlier, k', c, off, rfl, hc, hfollows, hmeets, hevent, hkey, htold⟩

/-! ## What a function writes down -/

structure Records (limit : Nat) (base : List OpenScope) (s : SaxState σ) (c : Config)
    (r : Logged σ) : Prop where
  lawful : Lawful limit s.cb c s.user r.calls
  told : (deliver .ok (callBack s.cb) (r.calls.map Call.event) s.user).2 = r.state.user
  complete : r.status = .ok → ∃ t, Follows limit s.cb c s.user r.calls
    (completedAt base t r.state.rest r.state.p) r.state.user

def Logs (limit : Nat) (base : List OpenScope) (s : SaxState σ) (c : Config)
    (run : SaxM (Logged σ)) : Prop :=
  ∃ r, run = .ok r ∧ Records limit base s c r

section Calls

variable {s s₁ s' : SaxState σ} {c d : Config} {base base' : List OpenScope} {st : Status}
  {e : Event} {isKey : Bool}

theorem Records.silent (bad : st ≠ .ok) (user : s'.user = s.user) :
    Records limit base s c (s'.silent st) where
  lawful := .nil
  told := user.symm
  complete ok := absurd ok bad

theorem Follows.single (hstep : scanStep limit c = .emit e d) (user : s₁.user = s.user)
    (cb : s₁.cb = s.cb) (ok : (s₁.notify e).1 = .ok) :
    Follows limit s.cb c s.user [⟨s₁, e, isKey⟩] d (s₁.notify e).2.user :=
  ⟨.single hstep, told_single user cb ok⟩

theorem Records.refused (meets : Meets limit c ⟨s₁, e, isKey⟩) (user : s₁.user = s.user)
    (cb : s₁.cb = s.cb) (bad : (s₁.notify e).1 ≠ .ok) :
    Records limit base s c (s₁.call isKey e) where
  lawful := .single meets user
  told := by
    rw [SaxState.call, List.map_singleton, deliver_singleton, ← user, ← cb]
    rfl
  complete ok := absurd ok bad

/-- The call for the last event of a value. -/
theorem Records.call (meets : Meets limit c ⟨s₁, e, isKey⟩) (user : s₁.user = s.user)
    (cb : s₁.cb = s.cb) {t : Tree}
    (hstep : scanStep limit c = .emit e (completedAt base t s₁.rest s₁.p)) :
    Records limit base s c (s₁.call isKey e) := by
  by_cases ok : (s₁.notify e).1 = .ok
  · have follows : Follows limit s.cb c s.user [⟨s₁, e, isKey⟩]
        (completedAt base t s₁.rest s₁.p) (s₁.notify e).2.user := .single hstep user cb ok
    exact ⟨.single meets user, by rw [SaxState.call, follows.told], fun _ => ⟨t, follows⟩⟩
  · exact .refused meets user cb ok

theorem Records.failed {r : Logged σ} (h : Records limit base s c r) (bad : r.status ≠ .ok)
    (user : s'.user = r.state.user) : Records limit base' s c ⟨r.status, s', r.calls⟩ where
  lawful := h.lawful
  told := h.told.trans user.symm
  complete ok := absurd ok bad

theorem Records.behind {ks : List (Call σ)} {r : Logged σ} (h : Records limit base s₁ d r)
    (lawful : Lawful limit s.cb c s.user ks) (follows : Follows limit s.cb c s.user ks d s₁.user)
    (cb : s₁.cb = s.cb) : Records limit base s c (r.behind ks) where
  lawful := lawful.append follows (cb ▸ h.lawful)
  told := by
    rw [Logged.behind, List.map_append, deliver_append_of_go follows.told, ← cb, h.told]
  complete ok := by
    obtain ⟨t, hrest⟩ := h.complete ok
    exact ⟨t, follows.append (cb ▸ hrest)⟩

/-- The log of a run that answers leaves the state the run leaves. -/
theorem Answers.logged {run : SaxM (Logged σ)}
    (h : Answers limit base s c (run.map Logged.result)) :
    ∃ r, run = .ok r ∧ Frame base s r.state ∧ Ends limit base s c r.state r.status := by
  obtain ⟨st, s', hrun, hframe, hends⟩ := h
  cases run with
  | error => cases hrun
  | ok r =>
      cases hrun
      exact ⟨r, rfl, hframe, hends⟩

theorem Ends.shorter (h : Ends limit base s c s' .ok) : s'.rest.length < c.rest.length := by
  cases h with
  | completed es t run told shorter => exact shorter
  | stopped _ _ bad => exact absurd rfl bad
  | refused _ _ _ _ _ bad => exact absurd rfl bad

end Calls

/-! ## Leaves and keys -/

section Leaves

variable {s s₁ : SaxState σ} {c d : Config} {e : Event} {b : UInt8} {bs r : Bytes}

/-- A call for a leaf, a list's or a dict's value. -/
theorem Represents.meets_value (h : Represents limit s c) (kinds : KindsMatch s.scopes c.stack)
    (await : Awaits c.stack) (hstep : scanStep limit c = .emit e d) (opens : e.opens = false)
    (closes : e.closes = false) : Meets limit c ⟨s.seek r, e, false⟩ where
  emits := ⟨d, hstep⟩
  depth := by
    rw [opens, closes]
    exact h.depth
  kinds := kinds
  key _ := iff_of_false Bool.false_ne_true (not_not_intro await)

theorem Represents.records_leaf (h : Represents limit s c) (kinds : KindsMatch s.scopes c.stack)
    (await : Awaits c.stack) (hr : r <:+ c.rest) {t : Tree}
    (hstep : scanStep limit c = .emit e ((c.readTo r).give t)) (opens : e.opens = false)
    (closes : e.closes = false) : Records limit c.stack s c ((s.seek r).call false e) := by
  have hmeets := h.meets_value (r := r) kinds await hstep opens closes
  rw [h.complete hr] at hstep
  exact .call hmeets rfl rfl hstep

theorem parseIntLog_logs (h : Represents limit s c) (kinds : KindsMatch s.scopes c.stack)
    (await : Awaits c.stack) (hr : c.rest = 'i'.toUInt8 :: bs)
    (hstep : scanStep limit c = scanValue limit c 'i'.toUInt8 bs) :
    Logs limit c.stack s c (parseIntLog s) := by
  have hsuf := (scanInt_suffix bs).trans (List.suffix_cons 'i'.toUInt8 bs)
  rw [← hr] at hsuf
  rw [parseIntLog, parseIntWith_eq _ _ s (h.rest.trans hr)]
  rw [scanValue, if_pos rfl] at hstep
  refine ⟨_, rfl, ?_⟩
  cases hscan : scanInt bs with
  | ok i r =>
      rw [hscan] at hstep hsuf
      exact h.records_leaf kinds await hsuf hstep rfl rfl
  | err st r => exact .silent (scanInt_err hscan) rfl

theorem parseStringLog_logs (h : Represents limit s c) (kinds : KindsMatch s.scopes c.stack)
    (await : Awaits c.stack) (hr : c.rest = b :: bs) (hb : isDigit b = true)
    (hstep : scanStep limit c = scanValue limit c b bs) :
    Logs limit c.stack s c (do
      let (st, bytes, len, s) ← parseString s
      if st ≠ .ok then return s.silent st
      return s.call false (.string bytes (s.slice bytes len))) := by
  have hsuf := scanString_suffix c.rest
  rw [parseString_eq s h.inBounds, h.rest]
  rw [scanValue, if_neg (ne_of_isDigit hb (by decide)), if_neg (ne_of_isDigit hb (by decide)),
    if_neg (ne_of_isDigit hb (by decide)), if_pos hb, ← hr] at hstep
  cases hscan : scanString c.rest with
  | ok bytes r =>
      rw [hscan] at hstep hsuf
      have hleaf := h.records_leaf kinds await hsuf hstep rfl rfl
      rw [← h.string_event hscan] at hleaf
      exact ⟨_, rfl, hleaf⟩
  | err st r =>
      have bad := scanString_err hscan
      refine ⟨(s.seek r).silent st, ?_, .silent bad rfl⟩
      simp [Token.payload, bad]

end Leaves

/-! ## Containers -/

def ValueLogs (σ : Type) (limit fuel : Nat) : Prop :=
  ∀ (s : SaxState σ) (c : Config), Represents limit s c → KindsMatch s.scopes c.stack →
    Awaits c.stack →
    (∀ b bs, c.rest = b :: bs → scanStep limit c = scanValue limit c b bs) →
    3 * c.rest.length + 1 ≤ fuel → Logs limit c.stack s c (parseValueLog fuel s)

def ListLogs (σ : Type) (limit fuel : Nat) : Prop :=
  ∀ (s : SaxState σ) (c : Config) (done : List Tree) (base : List OpenScope),
    Represents limit s c → KindsMatch s.scopes c.stack → c.stack = .list done :: base →
    3 * c.rest.length + 2 ≤ fuel → Logs limit base s c (listLoopLog fuel s)

def DictLogs (σ : Type) (limit fuel : Nat) : Prop :=
  ∀ (s : SaxState σ) (c : Config) (done : List (Bytes × Tree)) (key : Option Bytes)
    (base : List OpenScope), Represents limit s c → KindsMatch s.scopes c.stack →
    c.stack = .dict done key :: base →
    3 * c.rest.length + 2 ≤ fuel → Logs limit base s c (dictLoopLog fuel s)

section Containers

variable {s s₁ : SaxState σ} {c d : Config} {o : OpenScope} {base : List OpenScope} {b : UInt8}
  {bs : Bytes} {e : Event}

theorem truncated_logs (h : Represents limit s c) (hstack : c.stack = o :: base) :
    Logs limit base s c (do let s' ← popScope s; return s'.silent .errTruncated) := by
  rw [popScope_eq (h.depth_cons hstack)]
  exact ⟨_, rfl, .silent (by decide) rfl⟩

theorem Advances.logs {ks : List (Call σ)} {run : SaxM (Logged σ)}
    (h : Advances limit base s c s₁ d) (lawful : Lawful limit s.cb c s.user ks)
    (follows : Follows limit s.cb c s.user ks d s₁.user) (loop : Logs limit base s₁ d run) :
    Logs limit base s c (do return (← run).behind ks) := by
  obtain ⟨r, hrun, hrec⟩ := loop
  rw [hrun]
  exact ⟨_, rfl, hrec.behind lawful follows h.cb⟩

theorem Records.popped {r : Logged σ} {base' : List OpenScope} (h : Records limit base' s c r)
    (bad : r.status ≠ .ok) (depth : r.state.depth = base.length + 1) :
    Logs limit base s c (do return ⟨r.status, ← popScope r.state, r.calls⟩) := by
  rw [popScope_eq depth]
  exact ⟨_, rfl, h.failed bad rfl⟩

/-- The closing byte of a container is told with the scope popped. -/
theorem closed_logs (h : Represents limit s c) (kinds : KindsMatch s.scopes c.stack)
    (hstack : c.stack = o :: base) (hr : c.rest = b :: bs) {t : Tree} (opens : e.opens = false)
    (closes : e.closes = true)
    (hstep : scanStep limit c = .emit e ({ c.readTo bs with stack := base }.give t)) :
    Logs limit base s c (do let s' ← popScope (s.advance 1); return s'.call false e) := by
  have hdepth : (s.advance 1).depth = base.length + 1 := h.depth_cons hstack
  rw [popScope_eq hdepth, SaxState.advance_of_cons (h.rest.trans hr)]
  have hmeets : Meets limit c ⟨{ s.seek bs with depth := base.length }, e, false⟩ := {
    emits := ⟨_, hstep⟩
    depth := by
      rw [opens, closes, hstack]
      rfl
    kinds := kinds
    key := fun hopen => by
      rw [closes] at hopen
      cases hopen }
  exact ⟨_, rfl, .call hmeets rfl rfl (h.closed_step hr hstep)⟩

/-- A container opens: its scope is pushed and its first event told. -/
theorem opened_logs (isDict : Bool) {rest : SaxState σ → SaxM (Logged σ)}
    (h : Represents limit s c) (kinds : KindsMatch s.scopes c.stack) (await : Awaits c.stack)
    (hr : c.rest = b :: bs) (hroom : c.stack.length < limit)
    (hmatch : ScopeMatches s.input ⟨isDict, isDict, none, 0⟩ o) (hkind : isDict = o.isDict)
    (opens : e.opens = true) (closes : e.closes = false)
    (hstep : scanStep limit c = .emit e { c.readTo bs with stack := o :: c.stack })
    (loop : ∀ s', Represents limit s' { c.readTo bs with stack := o :: c.stack } →
      KindsMatch s'.scopes (o :: c.stack) →
      Logs limit c.stack s' { c.readTo bs with stack := o :: c.stack } (rest s')) :
    Logs limit c.stack s c (do
      let r := ((s.seek bs).pushed isDict).call false e
      if r.status ≠ .ok then return ⟨r.status, ← popScope r.state, r.calls⟩
      return (← rest r.state).behind r.calls) := by
  have hsame : ∀ i < c.stack.length, ((s.seek bs).pushed isDict).scopes i = s.scopes i := by
    intro i hi
    refine Function.update_of_ne ?_ _ _
    rw [SaxState.seek_depth, h.depth]
    exact hi.ne
  have hkinds := kinds.congr fun i hi => congrArg SaxScope.isDict (hsame i hi)
  have hmeets : Meets limit c ⟨(s.seek bs).pushed isDict, e, false⟩ := {
    emits := ⟨_, hstep⟩
    depth := by
      rw [opens, closes]
      exact congrArg (· + 1) h.depth
    kinds := hkinds
    key := fun _ => iff_of_false Bool.false_ne_true (not_not_intro await) }
  by_cases ok : (((s.seek bs).pushed isDict).notify e).1 = .ok
  · have hadv := opened_advances h hr hroom hmatch hstep ok
    have htop : (((s.seek bs).pushed isDict).scopes c.stack.length).isDict = o.isDict := by
      simp [SaxState.pushed, h.depth, hkind]
    obtain ⟨r, hrun, hrec⟩ := loop _ hadv.represents ⟨htop, hkinds⟩
    refine ⟨r.behind _, ?_, hrec.behind (.single hmeets rfl) (.single hstep rfl rfl ok) hadv.cb⟩
    simp [SaxState.call, ok, hrun]
  · have hrefused : Records limit c.stack s c (((s.seek bs).pushed isDict).call false e) :=
      .refused hmeets rfl rfl ok
    simpa [SaxState.call, ok] using hrefused.popped ok (congrArg (· + 1) h.depth)

end Containers

theorem ValueLogs.logged {fuel : Nat} (value : ValueLogs σ limit fuel) {s : SaxState σ}
    {c : Config} (h : Represents limit s c) (kinds : KindsMatch s.scopes c.stack)
    (await : Awaits c.stack)
    (hvalue : ∀ b bs, c.rest = b :: bs → scanStep limit c = scanValue limit c b bs)
    (hfuel : 3 * c.rest.length + 1 ≤ fuel) :
    ∃ r, parseValueLog fuel s = .ok r ∧ Frame c.stack s r.state ∧
      Ends limit c.stack s c r.state r.status ∧ Records limit c.stack s c r := by
  have hanswers := (allAnswer σ limit fuel).1 s c h hvalue hfuel
  rw [← (erases fuel).value] at hanswers
  obtain ⟨r, hrun, hframe, hends⟩ := hanswers.logged
  obtain ⟨r', hrun', hrec⟩ := value s c h kinds await hvalue hfuel
  cases hrun.symm.trans hrun'
  exact ⟨r, hrun, hframe, hends, hrec⟩

theorem listLoopLog_logs {fuel : Nat} (value : ValueLogs σ limit fuel)
    (loop : ListLogs σ limit fuel) : ListLogs σ limit (fuel + 1) := by
  intro s c done base h kinds hstack hfuel
  cases hr : c.rest with
  | nil =>
      have hend : s.atEnd = true := SaxState.atEnd_of_nil (h.rest.trans hr)
      simpa [listLoopLog, hend] using truncated_logs h hstack
  | cons b bs =>
      have hend := SaxState.not_atEnd_of_cons (h.rest.trans hr)
      have hpeek := SaxState.peek_of_cons (h.rest.trans hr)
      by_cases hb : b = 'e'.toUInt8
      · have hstep := h.step_listEnd hstack hr hb
        simpa [listLoopLog, hend, hpeek, hb] using
          closed_logs h kinds hstack hr rfl rfl hstep
      · have await : Awaits c.stack := hstack ▸ trivial
        have hvalue := h.step_value await hr hb
        obtain ⟨r, hrun, hframe, hends, hrec⟩ := value.logged h kinds await hvalue (by omega)
        by_cases ok : r.status = .ok
        swap
        · rw [hstack] at hframe
          simpa [listLoopLog, hend, hpeek, hb, hrun, ok] using hrec.popped ok hframe.depth
        rw [ok] at hends
        obtain ⟨t, follows⟩ := hrec.complete ok
        have hadv := value_advances h hstack hframe (.list (done ++ [t]))
          (by rw [hstack]; rfl) r.state.scopes (fun _ _ => rfl) trivial follows.run follows.told
          hends.shorter
        have hkinds := kinds.congr fun i hi => congrArg SaxScope.isDict (hframe.scopes i hi)
        rw [hstack] at hkinds
        have hloop := loop r.state _ (done ++ [t]) base hadv.represents hkinds rfl (by
          have := hends.shorter
          dsimp only
          omega)
        have hsettle : completedAt c.stack t r.state.rest r.state.p =
            ⟨.list (done ++ [t]) :: base, none, r.state.rest, r.state.p⟩ := by
          rw [hstack]
          rfl
        rw [hsettle] at follows
        simpa [listLoopLog, hend, hpeek, hb, hrun, ok] using
          hadv.logs hrec.lawful follows hloop

theorem SaxState.recordKey_kind (s : SaxState σ) (sc : Nat) (k r : Bytes) (i : Nat) :
    ((s.recordKey sc k r).scopes i).isDict = (s.scopes i).isDict := by
  by_cases hi : i = sc
  · subst hi
    simp [recordKey]
  · exact congrArg SaxScope.isDict (Function.update_of_ne hi _ _)

/-- A key is told, or the dict fails with its scope still open. -/
theorem parseDictKeyLog_logs {s : SaxState σ} {c : Config} {done : List (Bytes × Tree)}
    {base : List OpenScope} {b : UInt8} {bs : Bytes} (h : Represents limit s c)
    (kinds : KindsMatch s.scopes c.stack) (hstack : c.stack = .dict done none :: base)
    (hr : c.rest = b :: bs) (hbe : b ≠ 'e'.toUInt8) :
    ∃ r, parseDictKeyLog s base.length = .ok r ∧
      ((r.status ≠ .ok ∧ Records limit base s c r ∧ r.state.depth = base.length + 1) ∨
        (r.status = .ok ∧ ∃ k d, d.stack = .dict done (some k) :: base ∧
          Advances limit base s c r.state d ∧ KindsMatch r.state.scopes d.stack ∧
          Lawful limit s.cb c s.user r.calls ∧
          Follows limit s.cb c s.user r.calls d r.state.user)) := by
  have hdepth := h.depth_cons hstack
  rw [parseDictKeyLog]
  rcases h.reads_key (SaxState.call true) SaxState.silent hstack hr hbe with
    ⟨st, r, hrun, bad, -⟩ | ⟨k, r, hrun, hscan, hstep⟩
  · exact ⟨_, hrun, .inl ⟨bad, .silent bad rfl, hdepth⟩⟩
  · have hkinds := kinds.congr fun i _ => s.recordKey_kind base.length k r i
    have hmeets : Meets limit c ⟨s.recordKey base.length k r, c.stringEvent k r, true⟩ := {
      emits := ⟨_, hstep⟩
      depth := h.depth
      kinds := hkinds
      key := fun _ => iff_of_true rfl fun await => by
        rw [hstack] at await
        exact await }
    refine ⟨_, hrun, ?_⟩
    by_cases ok : ((s.recordKey base.length k r).notify (c.stringEvent k r)).1 = .ok
    · rw [hstack] at hkinds
      exact .inr ⟨ok, k, _, rfl, keyed_advances h hstack hscan hstep ok, hkinds,
        .single hmeets rfl, .single hstep rfl rfl ok⟩
    · exact .inl ⟨ok, .refused hmeets rfl rfl ok, hdepth⟩

theorem SaxState.setScope_kind {s s' : SaxState σ} {i : Nat} {scope : SaxScope}
    (hget : s.getScope i = .ok scope)
    (hset : s.setScope i { scope with expectingKey := true } = .ok s') (j : Nat) :
    (s'.scopes j).isDict = (s.scopes j).isDict := by
  by_cases hi : i < internalMaxDepth
  · rw [getScope, if_pos hi] at hget
    rw [setScope, if_pos hi] at hset
    cases hget
    cases hset
    by_cases hj : j = i
    · subst hj
      simp
    · exact congrArg SaxScope.isDict (Function.update_of_ne hj _ _)
  · rw [getScope, if_neg hi] at hget
    cases hget

theorem SaxState.setScope_user {s s' : SaxState σ} {i : Nat} {scope : SaxScope}
    (hset : s.setScope i scope = .ok s') : s'.user = s.user := by
  by_cases hi : i < internalMaxDepth
  · rw [setScope, if_pos hi] at hset
    cases hset
    rfl
  · rw [setScope, if_neg hi] at hset
    cases hset

theorem dictLoopLog_logs {fuel : Nat} (value : ValueLogs σ limit fuel)
    (loop : DictLogs σ limit fuel) : DictLogs σ limit (fuel + 1) := by
  intro s c done key base h kinds hstack hfuel
  cases hr : c.rest with
  | nil =>
      have hend : s.atEnd = true := SaxState.atEnd_of_nil (h.rest.trans hr)
      simpa [dictLoopLog, hend] using truncated_logs h hstack
  | cons b bs =>
      have hend := SaxState.not_atEnd_of_cons (h.rest.trans hr)
      have hpeek := SaxState.peek_of_cons (h.rest.trans hr)
      have hdepth := h.depth_cons hstack
      obtain ⟨htop, hscope, hexpect⟩ := h.top_scope hstack
      cases key with
      | none =>
          rw [Option.isNone_none] at hexpect
          by_cases hb : b = 'e'.toUInt8
          · have hstep := h.step_dictEnd hstack hr hb
            simpa [dictLoopLog, hend, hpeek, hb, htop, hscope, hexpect] using
              closed_logs h kinds hstack hr rfl rfl hstep
          obtain ⟨r, hrun, ⟨bad, hrec, hdepth⟩ | ⟨ok, k, d, hd, hadv, hkinds, lawful, follows⟩⟩ :=
            parseDictKeyLog_logs h kinds hstack hr hb
          · simpa [dictLoopLog, hend, hpeek, hb, htop, hscope, hexpect, hrun, bad] using
              hrec.popped bad hdepth
          · have hloop := loop r.state d done (some k) base hadv.represents hkinds hd (by
              have := hadv.shorter
              omega)
            simpa [dictLoopLog, hend, hpeek, hb, htop, hscope, hexpect, hrun, ok] using
              hadv.logs lawful follows hloop
      | some k =>
          have hexpect : (s.scopes base.length).expectingKey = false := hexpect
          by_cases hb : b = 'e'.toUInt8
          · have hsilent : Records limit base s c (s.silent .errDictMissingValue) :=
              .silent (by decide) rfl
            simpa [dictLoopLog, hend, hpeek, hb, htop, hscope, hexpect, SaxState.silent] using
              hsilent.popped (by simp) hdepth
          have await : Awaits c.stack := hstack ▸ trivial
          have hvalue := h.step_value await hr hb
          obtain ⟨r, hrun, hframe, hends, hrec⟩ := value.logged h kinds await hvalue (by omega)
          by_cases ok : r.status = .ok
          swap
          · rw [hstack] at hframe
            simpa [dictLoopLog, hend, hpeek, hb, htop, hscope, hexpect, hrun, ok] using
              hrec.popped ok hframe.depth
          rw [ok] at hends
          obtain ⟨t, follows⟩ := hrec.complete ok
          obtain ⟨scope, s₂, hget, hset, hd, hadv⟩ :=
            dictValue_advances h hstack hframe follows.run follows.told hends.shorter
          have hkinds := kinds.congr fun i hi => (SaxState.setScope_kind hget hset i).trans
            (congrArg SaxScope.isDict (hframe.scopes i hi))
          rw [hstack] at hkinds
          have huser := SaxState.setScope_user hset
          have hloop := loop s₂ _ _ none base hadv.represents (hd ▸ hkinds) hd (by
            have := hadv.shorter
            omega)
          rw [← huser] at follows
          simpa [dictLoopLog, hend, hpeek, hb, htop, hscope, hexpect, hrun, ok, hget, hset] using
            hadv.logs hrec.lawful follows hloop

/-! ## Values -/

theorem parseListLog_logs {fuel : Nat} (loop : ListLogs σ limit fuel) {s : SaxState σ}
    {c : Config} {bs : Bytes} (h : Represents limit s c) (kinds : KindsMatch s.scopes c.stack)
    (await : Awaits c.stack) (hr : c.rest = 'l'.toUInt8 :: bs)
    (hstep : scanStep limit c = scanValue limit c 'l'.toUInt8 bs)
    (hfuel : 3 * c.rest.length ≤ fuel + 1) :
    Logs limit c.stack s c (parseListLog (fuel + 1) s) := by
  have hadv := SaxState.advance_of_cons (h.rest.trans hr)
  rw [scanValue, if_neg (by decide), if_pos rfl] at hstep
  by_cases hfull : c.stack.length ≥ limit
  · have hpush := h.push_full hfull bs false
    exact ⟨(s.seek bs).silent .errNestingTooDeep, by simp [parseListLog, hadv, hpush],
      .silent (by decide) rfl⟩
  have hroom : c.stack.length < limit := Nat.lt_of_not_le hfull
  have hpush := h.push_ok hroom bs false
  rw [if_neg hfull] at hstep
  have hopen := opened_logs (o := .list []) false h kinds await hr hroom trivial rfl rfl rfl
    hstep fun s' hrep hkinds => loop s' _ [] c.stack hrep hkinds rfl (by
      rw [hr, List.length_cons] at hfuel
      show 3 * bs.length + 2 ≤ fuel
      omega)
  simpa [parseListLog, hadv, hpush] using hopen

theorem parseDictLog_logs {fuel : Nat} (loop : DictLogs σ limit fuel) {s : SaxState σ}
    {c : Config} {bs : Bytes} (h : Represents limit s c) (kinds : KindsMatch s.scopes c.stack)
    (await : Awaits c.stack) (hr : c.rest = 'd'.toUInt8 :: bs)
    (hstep : scanStep limit c = scanValue limit c 'd'.toUInt8 bs)
    (hfuel : 3 * c.rest.length ≤ fuel + 1) :
    Logs limit c.stack s c (parseDictLog (fuel + 1) s) := by
  have hadv := SaxState.advance_of_cons (h.rest.trans hr)
  rw [scanValue, if_neg (by decide), if_neg (by decide), if_pos rfl] at hstep
  by_cases hfull : c.stack.length ≥ limit
  · have hpush := h.push_full hfull bs true
    exact ⟨(s.seek bs).silent .errNestingTooDeep, by simp [parseDictLog, hadv, hpush],
      .silent (by decide) rfl⟩
  have hroom : c.stack.length < limit := Nat.lt_of_not_le hfull
  have hpush := h.push_ok hroom bs true
  rw [if_neg hfull] at hstep
  have hopen := opened_logs (o := .dict [] none) true h kinds await hr hroom ⟨rfl, rfl⟩ rfl
    rfl rfl hstep fun s' hrep hkinds => loop s' _ [] none c.stack hrep hkinds rfl (by
      rw [hr, List.length_cons] at hfuel
      show 3 * bs.length + 2 ≤ fuel
      omega)
  simpa [parseDictLog, hadv, hpush] using hopen

theorem parseValueLog_logs {fuel : Nat} (list : ∀ n < fuel, ListLogs σ limit n)
    (dict : ∀ n < fuel, DictLogs σ limit n) : ValueLogs σ limit (fuel + 1) := by
  intro s c h kinds await hvalue hfuel
  cases hr : c.rest with
  | nil =>
      have hend : s.atEnd = true := SaxState.atEnd_of_nil (h.rest.trans hr)
      exact ⟨s.silent .errTruncated, by simp [parseValueLog, hend], .silent (by decide) rfl⟩
  | cons b bs =>
      have hend := SaxState.not_atEnd_of_cons (h.rest.trans hr)
      have hpeek := SaxState.peek_of_cons (h.rest.trans hr)
      have hstep := hvalue b bs hr
      obtain ⟨n, rfl⟩ : ∃ n, fuel = n + 1 := ⟨fuel - 1, by
        rw [hr, List.length_cons] at hfuel
        omega⟩
      by_cases hi : b = 'i'.toUInt8
      · subst hi
        simpa [parseValueLog, hend, hpeek] using parseIntLog_logs h kinds await hr hstep
      by_cases hl : b = 'l'.toUInt8
      · subst hl
        have hli : 'l'.toUInt8 ≠ 'i'.toUInt8 := by decide
        simpa [parseValueLog, hend, hpeek, hli] using
          parseListLog_logs (list n (Nat.lt_succ_self n)) h kinds await hr hstep (by omega)
      by_cases hd : b = 'd'.toUInt8
      · subst hd
        have hdi : 'd'.toUInt8 ≠ 'i'.toUInt8 := by decide
        have hdl : 'd'.toUInt8 ≠ 'l'.toUInt8 := by decide
        simpa [parseValueLog, hend, hpeek, hdi, hdl] using
          parseDictLog_logs (dict n (Nat.lt_succ_self n)) h kinds await hr hstep (by omega)
      by_cases hdig : isDigit b = true
      · simpa [parseValueLog, hend, hpeek, hi, hl, hd, hdig] using
          parseStringLog_logs h kinds await hr hdig hstep
      · exact ⟨s.silent .errUnexpectedByte,
          by simp [parseValueLog, hend, hpeek, hi, hl, hd, hdig], .silent (by decide) rfl⟩

theorem allLogs (σ : Type) (limit fuel : Nat) :
    ValueLogs σ limit fuel ∧ ListLogs σ limit fuel ∧ DictLogs σ limit fuel := by
  induction fuel using Nat.strongRecOn with
  | ind fuel ih =>
      cases fuel with
      | zero =>
          refine ⟨?_, ?_, ?_⟩
          · intro s c _ _ _ _ hfuel
            omega
          · intro s c _ _ _ _ _ hfuel
            omega
          · intro s c _ _ _ _ _ _ hfuel
            omega
      | succ fuel =>
          have hfuel := ih fuel (Nat.lt_succ_self fuel)
          exact ⟨parseValueLog_logs (fun n hn => (ih n (Nat.lt_succ_of_lt hn)).2.1)
              (fun n hn => (ih n (Nat.lt_succ_of_lt hn)).2.2),
            listLoopLog_logs hfuel.1 hfuel.2.1, dictLoopLog_logs hfuel.1 hfuel.2.2⟩

/-! ## The entry point -/

/-- The log of `bencode_parse_sax` names all calls, each where the calls before it lead. -/
theorem bencodeParseSaxLog_lawful (input : Span) (hbad : input.isBad = false)
    (cb : Option (Callbacks σ)) (user : σ) (maxDepth : Nat) :
    ∃ r calls, bencodeParseSaxLog input cb user maxDepth = .ok (r, calls) ∧
      (deliver .ok (callBack cb) (calls.map Call.event) user).2 = r.user ∧
      Lawful (effectiveDepth maxDepth) cb (.start input.bytes) user calls := by
  by_cases hlen : input.len = 0
  · exact ⟨⟨.errTruncated, 0, user⟩, [], by simp [bencodeParseSaxLog, hbad, hlen], rfl, .nil⟩
  · have h := saxStart_represents input.bytes cb user maxDepth
    have hvalue : ∀ b bs, (Config.start input.bytes).rest = b :: bs →
        scanStep (effectiveDepth maxDepth) (.start input.bytes) =
          scanValue (effectiveDepth maxDepth) (.start input.bytes) b bs := by
      intro b bs hr
      rw [h.step_cons hr]
      rfl
    obtain ⟨r, hrun, hrec⟩ := (allLogs σ (effectiveDepth maxDepth)
      (saxFuel input.bytes.length)).1 _ _ h trivial trivial hvalue (Nat.le_refl _)
    rw [Span.length_bytes hbad] at hrun
    exact ⟨⟨r.status, r.state.p, r.state.user⟩, r.calls,
      by simp [bencodeParseSaxLog, hbad, hlen, hrun], hrec.told, hrec.lawful⟩

end Bencode
