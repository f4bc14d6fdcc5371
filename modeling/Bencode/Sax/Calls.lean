import Bencode.Sax.Refinement

/-!
# The calls of a run

The parser once more, writing down every call of a callback with the state of the parser
just before it. Without the log it is the parser of `parse_sax.c`.
-/

namespace Bencode

variable {σ : Type}

/-! ## The log -/

/-- A call for an event: what the parser's state is, and whether `parse_dict_key` makes it. -/
structure Call (σ : Type) where
  state : SaxState σ
  event : Event
  isKey : Bool

/-- What a function of the parser returns, with the calls it has made. -/
structure Logged (σ : Type) where
  status : Status
  state : SaxState σ
  calls : List (Call σ)

namespace Logged

def result (r : Logged σ) : Status × SaxState σ := (r.status, r.state)

def behind (calls : List (Call σ)) (r : Logged σ) : Logged σ := { r with calls := calls ++ r.calls }

end Logged

def SaxState.call (isKey : Bool) (s : SaxState σ) (e : Event) : Logged σ :=
  ⟨(s.notify e).1, (s.notify e).2, [⟨s, e, isKey⟩]⟩

def SaxState.silent (st : Status) (s : SaxState σ) : Logged σ := ⟨st, s, []⟩

@[simp] theorem SaxState.silent_status (st : Status) (s : SaxState σ) :
    (s.silent st).status = st := rfl

/-! ## The parser -/

def parseIntLog (s : SaxState σ) : SaxM (Logged σ) :=
  parseIntWith (SaxState.call false) SaxState.silent s

def parseDictKeyLog (s : SaxState σ) (sc : Nat) : SaxM (Logged σ) :=
  parseDictKeyWith (SaxState.call true) SaxState.silent s sc

mutual

def parseValueLog : Nat → SaxState σ → SaxM (Logged σ)
  | 0, _ => throw .outOfFuel
  | fuel + 1, s => do
    if s.atEnd then return s.silent .errTruncated
    let b ← s.peek
    if b = 'i'.toUInt8 then parseIntLog s
    else if b = 'l'.toUInt8 then parseListLog fuel s
    else if b = 'd'.toUInt8 then parseDictLog fuel s
    else if isDigit b then
      let (st, bytes, len, s) ← parseString s
      if st ≠ .ok then return s.silent st
      return s.call false (.string bytes (s.slice bytes len))
    else return s.silent .errUnexpectedByte

def parseListLog : Nat → SaxState σ → SaxM (Logged σ)
  | 0, _ => throw .outOfFuel
  | fuel + 1, s => do
    let (st, s) ← pushScope (s.advance 1) false
    if st ≠ .ok then return s.silent st
    let r := s.call false .listBegin
    if r.status ≠ .ok then return ⟨r.status, ← popScope r.state, r.calls⟩
    return (← listLoopLog fuel r.state).behind r.calls

def listLoopLog : Nat → SaxState σ → SaxM (Logged σ)
  | 0, _ => throw .outOfFuel
  | fuel + 1, s => do
    if s.atEnd then return (← popScope s).silent .errTruncated
    if (← s.peek) = 'e'.toUInt8 then
      let s ← popScope (s.advance 1)
      return s.call false .listEnd
    let r ← parseValueLog fuel s
    if r.status ≠ .ok then return ⟨r.status, ← popScope r.state, r.calls⟩
    return (← listLoopLog fuel r.state).behind r.calls

def parseDictLog : Nat → SaxState σ → SaxM (Logged σ)
  | 0, _ => throw .outOfFuel
  | fuel + 1, s => do
    let (st, s) ← pushScope (s.advance 1) true
    if st ≠ .ok then return s.silent st
    let r := s.call false .dictBegin
    if r.status ≠ .ok then return ⟨r.status, ← popScope r.state, r.calls⟩
    return (← dictLoopLog fuel r.state).behind r.calls

def dictLoopLog : Nat → SaxState σ → SaxM (Logged σ)
  | 0, _ => throw .outOfFuel
  | fuel + 1, s => do
    if s.atEnd then return (← popScope s).silent .errTruncated
    let sc ← s.topIndex
    let scope ← s.getScope sc
    if (← s.peek) = 'e'.toUInt8 then
      if !scope.expectingKey then return (← popScope s).silent .errDictMissingValue
      let s ← popScope (s.advance 1)
      return s.call false .dictEnd
    if scope.expectingKey then
      let r ← parseDictKeyLog s sc
      if r.status ≠ .ok then return ⟨r.status, ← popScope r.state, r.calls⟩
      return (← dictLoopLog fuel r.state).behind r.calls
    else
      let r ← parseValueLog fuel s
      if r.status ≠ .ok then return ⟨r.status, ← popScope r.state, r.calls⟩
      let scope ← r.state.getScope sc
      let s ← r.state.setScope sc { scope with expectingKey := true }
      return (← dictLoopLog fuel s).behind r.calls

end

def bencodeParseSaxLog (input : Span) (cb : Option (Callbacks σ)) (user : σ) (maxDepth : Nat) :
    SaxM (SaxResult σ × List (Call σ)) := do
  if input.isBad then return (⟨.errInvalidArg, 0, user⟩, [])
  if input.len = 0 then return (⟨.errTruncated, 0, user⟩, [])
  let r ← parseValueLog (saxFuel input.len) (saxStart input.bytes cb user maxDepth)
  return (⟨r.status, r.state.p, r.state.user⟩, r.calls)

/-! ## Leaving the log out -/

theorem SaxM.map_bind {α β γ : Type} (x : SaxM α) (f : α → SaxM β) (g : β → γ) :
    (x >>= f).map g = x >>= fun a => (f a).map g := by
  cases x <;> rfl

theorem SaxM.bind_map {α β γ : Type} (x : SaxM α) (f : α → β) (g : β → SaxM γ) :
    x.map f >>= g = x >>= fun a => g (f a) := by
  cases x <;> rfl

section Naturality

variable {ρ τ : Type} (g : ρ → τ) (tell : SaxState σ → Event → ρ) (fail : Status → SaxState σ → ρ)

theorem parseIntWith_map (s : SaxState σ) :
    (parseIntWith tell fail s).map g =
      parseIntWith (fun s e => g (tell s e)) (fun st s => g (fail st s)) s := by
  have hend : ∀ negative mag (s : SaxState σ), (parseIntEndWith tell fail negative mag s).map g =
      parseIntEndWith (fun s e => g (tell s e)) (fun st s => g (fail st s)) negative mag s := by
    intro negative mag s
    unfold parseIntEndWith
    simp only [SaxM.map_bind, apply_ite (Except.map g)]
    rfl
  have hbody : ∀ negative (s : SaxState σ), (parseIntBodyWith tell fail negative s).map g =
      parseIntBodyWith (fun s e => g (tell s e)) (fun st s => g (fail st s)) negative s := by
    intro negative s
    unfold parseIntBodyWith
    simp only [SaxM.map_bind, apply_ite (Except.map g), hend]
    rfl
  unfold parseIntWith
  simp only [SaxM.map_bind, apply_ite (Except.map g), hbody]

theorem parseDictKeyWith_map (s : SaxState σ) (sc : Nat) :
    (parseDictKeyWith tell fail s sc).map g =
      parseDictKeyWith (fun s e => g (tell s e)) (fun st s => g (fail st s)) s sc := by
  unfold parseDictKeyWith
  simp only [SaxM.map_bind, apply_ite (Except.map g)]
  congr 1
  funext b
  split
  · rfl
  congr 1
  funext x
  split
  · rfl
  congr 1
  funext scope
  cases scope.lastKey with
  | none =>
      simp only [SaxM.map_bind, apply_ite (Except.map g)]
      rfl
  | some ptr =>
      simp only [SaxM.map_bind, apply_ite (Except.map g)]
      rfl

end Naturality

theorem parseIntLog_result (s : SaxState σ) :
    (parseIntLog s).map Logged.result = parseInt s :=
  parseIntWith_map Logged.result _ _ s

theorem parseDictKeyLog_result (s : SaxState σ) (sc : Nat) :
    (parseDictKeyLog s sc).map Logged.result = parseDictKey s sc :=
  parseDictKeyWith_map Logged.result _ _ s sc

/-- With this much fuel the log changes nothing. -/
structure Erases (σ : Type) (fuel : Nat) : Prop where
  value : ∀ s : SaxState σ, (parseValueLog fuel s).map Logged.result = parseValue fuel s
  list : ∀ s : SaxState σ, (parseListLog fuel s).map Logged.result = parseList fuel s
  listLoop : ∀ s : SaxState σ, (listLoopLog fuel s).map Logged.result = listLoop fuel s
  dict : ∀ s : SaxState σ, (parseDictLog fuel s).map Logged.result = parseDict fuel s
  dictLoop : ∀ s : SaxState σ, (dictLoopLog fuel s).map Logged.result = dictLoop fuel s

theorem erases (fuel : Nat) : Erases σ fuel := by
  induction fuel with
  | zero => exact ⟨fun _ => rfl, fun _ => rfl, fun _ => rfl, fun _ => rfl, fun _ => rfl⟩
  | succ fuel ih =>
      constructor
      · intro s
        rw [parseValueLog, parseValue]
        simp only [SaxM.map_bind, apply_ite (Except.map Logged.result), parseIntLog_result,
          ih.list, ih.dict]
        rfl
      · intro s
        rw [parseListLog, parseList]
        simp only [SaxM.map_bind, apply_ite (Except.map Logged.result), ← ih.listLoop]
        rfl
      · intro s
        rw [listLoopLog, listLoop]
        simp only [SaxM.map_bind, apply_ite (Except.map Logged.result), ← ih.listLoop, ← ih.value,
          SaxM.bind_map]
        rfl
      · intro s
        rw [parseDictLog, parseDict]
        simp only [SaxM.map_bind, apply_ite (Except.map Logged.result), ← ih.dictLoop]
        rfl
      · intro s
        rw [dictLoopLog, dictLoop]
        simp only [SaxM.map_bind, apply_ite (Except.map Logged.result), ← ih.dictLoop, ← ih.value,
          ← parseDictKeyLog_result, SaxM.bind_map]
        rfl

theorem bencodeParseSaxLog_result (input : Span) (cb : Option (Callbacks σ)) (user : σ)
    (maxDepth : Nat) :
    (bencodeParseSaxLog input cb user maxDepth).map Prod.fst =
      bencodeParseSax input cb user maxDepth := by
  rw [bencodeParseSaxLog, bencodeParseSax]
  simp only [SaxM.map_bind, apply_ite (Except.map Prod.fst), ← (erases _).value, SaxM.bind_map]
  rfl

end Bencode
