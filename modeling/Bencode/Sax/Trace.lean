import Bencode.Sax.Refinement
import Bencode.Spec.History

/-!
# A consumer sees a beginning of the events of a canonical tree

Whatever the scanner has read can be completed: close the open containers, and
give a key that still waits a value. While a container is open more events begin
than end, so only a complete tree has been told completely.
-/

namespace Bencode

open LabelledMachine Delivery

variable {limit : Nat}

/-! ## Closing the open containers -/

/-- The container closed as it stands; a waiting key gets the value `0`. -/
def OpenScope.close : OpenScope → Tree
  | .list done => .list done
  | .dict done none => .dict done
  | .dict done (some k) => .dict (done ++ [(k, .int 0)])

theorem OpenScope.close_canonical {o : OpenScope} (h : o.Canonical) : o.close.Canonical := by
  cases o with
  | list done => exact h
  | dict done key =>
      cases key with
      | none => exact ⟨by simpa using h.1, h.2⟩
      | some k =>
          exact ⟨by simpa [entryKeys] using h.1,
            (canonicalEntries_append done [(k, .int 0)]).mpr ⟨h.2, trivial, trivial⟩⟩

theorem OpenScope.close_nesting (o : OpenScope) : o.close.nesting = o.nesting + 1 := by
  cases o with
  | list done => rfl
  | dict done key =>
      cases key with
      | none => rfl
      | some k => simp [close, Tree.nesting, OpenScope.nesting, entriesNesting]

theorem OpenScope.events_close (o : OpenScope) (pos : Nat) :
    o.events pos <+: o.close.events pos := by
  cases o with
  | list done => exact ⟨[.listEnd], rfl⟩
  | dict done key =>
      cases key with
      | none => exact ⟨[.dictEnd], rfl⟩
      | some k =>
          refine ⟨[.int 0, .dictEnd], ?_⟩
          simp [close, Tree.events, OpenScope.events, entriesEvents_append, entriesEvents]

/-- Whatever has been told can be completed to the events of a canonical tree. -/
theorem told_completes (n : Nat) {next : List OpenScope × Option Tree} (h : WellRead limit next)
    (hn : next.1.length = n) :
    ∃ t : Tree, t.Canonical ∧ t.nesting ≤ limit ∧ toldBy next <+: t.events 0 := by
  induction n generalizing next with
  | zero =>
      obtain ⟨stack, result⟩ := next
      have hnil : stack = [] := List.length_eq_zero_iff.mp hn
      subst hnil
      cases result with
      | none => exact ⟨.int 0, trivial, Nat.zero_le _, List.nil_prefix⟩
      | some t => exact ⟨t, h.2.1, h.2.2, List.prefix_refl _⟩
  | succ n ih =>
      obtain ⟨stack, result⟩ := next
      cases stack with
      | nil => cases hn
      | cons o below =>
          cases result with
          | some t => cases h.1
          | none =>
              obtain ⟨ho, hnest, hawait, hbelow⟩ := h
              have hclosed : WellRead limit (settle below o.close) := by
                apply wellRead_settle hbelow hawait (OpenScope.close_canonical ho)
                rw [OpenScope.close_nesting]
                omega
              have hlen : (settle below o.close).1.length = n := by
                rw [length_settle]
                exact Nat.succ.inj hn
              obtain ⟨t, canonical, nesting, hprefix⟩ := ih hclosed hlen
              refine ⟨t, canonical, nesting, List.IsPrefix.trans ?_ hprefix⟩
              rw [toldBy_settle hawait]
              exact (List.prefix_append_right_inj _).mpr (o.events_close _)

/-! ## Counting containers -/

def balance : List Event → Int
  | [] => 0
  | .listBegin :: es => balance es + 1
  | .dictBegin :: es => balance es + 1
  | .listEnd :: es => balance es - 1
  | .dictEnd :: es => balance es - 1
  | _ :: es => balance es

theorem balance_append (es fs : List Event) : balance (es ++ fs) = balance es + balance fs := by
  induction es with
  | nil => simp [balance]
  | cons e es ih =>
      cases e <;> simp only [List.cons_append, balance, ih] <;> omega

mutual

theorem Tree.balance_events (t : Tree) (pos : Nat) : balance (t.events pos) = 0 := by
  cases t with
  | int i => rfl
  | string bytes => rfl
  | list items =>
      simp [Tree.events, balance, balance_append, balance_itemsEvents items (pos + 1)]
  | dict entries =>
      simp [Tree.events, balance, balance_append, balance_entriesEvents entries (pos + 1)]

theorem balance_itemsEvents (ts : List Tree) (pos : Nat) : balance (itemsEvents ts pos) = 0 := by
  cases ts with
  | nil => rfl
  | cons t ts =>
      rw [itemsEvents, balance_append, t.balance_events, balance_itemsEvents ts]
      rfl

theorem balance_entriesEvents (es : List (Bytes × Tree)) (pos : Nat) :
    balance (entriesEvents es pos) = 0 := by
  cases es with
  | nil => rfl
  | cons e es =>
      obtain ⟨k, t⟩ := e
      simp only [entriesEvents, stringEvent, balance, balance_append, t.balance_events,
        balance_entriesEvents es]
      rfl

end

theorem balance_openEvents (stack : List OpenScope) :
    balance (openEvents stack) = stack.length := by
  induction stack with
  | nil => rfl
  | cons o below ih =>
      rw [openEvents, balance_append, ih, List.length_cons]
      cases o with
      | list done => simp [OpenScope.events, balance, balance_itemsEvents]
      | dict done key =>
          cases key with
          | none => simp [OpenScope.events, balance, balance_entriesEvents]
          | some k =>
              simp [OpenScope.events, balance, balance_append, balance_entriesEvents, stringEvent]

theorem Tree.events_ne_nil (t : Tree) (pos : Nat) : t.events pos ≠ [] := by
  cases t <;> simp [Tree.events]

theorem openEvents_ne_events (stack : List OpenScope) (t : Tree) :
    openEvents stack ≠ t.events 0 := by
  intro heq
  have hbalance := balance_openEvents stack
  rw [heq, t.balance_events] at hbalance
  have hnil : stack = [] := List.length_eq_zero_iff.mp (by omega)
  rw [hnil] at heq
  exact t.events_ne_nil 0 heq.symm

/-! ## Runs of the scanner -/

theorem Scans.trace {input : Bytes} {es : List Event} {st : Status} {off : Nat}
    (h : Scans limit input es st off) :
    (∃ t : Tree, t.Canonical ∧ t.nesting ≤ limit ∧ es <+: t.events 0) ∧
      (st = .ok ↔ ∃ t : Tree, t.Canonical ∧ t.nesting ≤ limit ∧ es = t.events 0) := by
  obtain ⟨d, hrun, hstop⟩ := h
  have hsound := Sound.of_reaches hrun
  refine ⟨hsound.told ▸ told_completes _ hsound.well rfl, ?_⟩
  rcases scanStep_stop hstop with ⟨t, ht, rfl, -⟩ | ⟨hopen, bad, -⟩
  · have hwell := hsound.well
    have htold := hsound.told
    rw [ht] at hwell htold
    exact iff_of_true rfl ⟨t, hwell.2.1, hwell.2.2, htold⟩
  · have htold := hsound.told
    rw [hopen] at htold
    apply iff_of_false bad
    rintro ⟨t, -, -, ht⟩
    exact openEvents_ne_events d.stack t (htold.symm.trans ht)

/-! ## Consumers -/

/-- A consumer that handles every event and never refuses one. -/
structure Consumer (σ : Type) where
  int : Int64 → σ → σ
  string : Nat → Bytes → σ → σ
  listBegin : σ → σ
  listEnd : σ → σ
  dictBegin : σ → σ
  dictEnd : σ → σ

namespace Consumer

variable {σ : Type} (k : Consumer σ)

def handle : Event → σ → σ
  | .int value => k.int value
  | .string off bytes => k.string off bytes
  | .listBegin => k.listBegin
  | .listEnd => k.listEnd
  | .dictBegin => k.dictBegin
  | .dictEnd => k.dictEnd

/-- The full table of a consumer; its state is kept beside a log of the calls made. -/
def callbacks : Callbacks (σ × List Event) where
  onInt := some fun value u => (.ok, k.int value u.1, u.2 ++ [.int value])
  onString := some fun off bytes u => (.ok, k.string off bytes u.1, u.2 ++ [.string off bytes])
  onListBegin := some fun u => (.ok, k.listBegin u.1, u.2 ++ [.listBegin])
  onListEnd := some fun u => (.ok, k.listEnd u.1, u.2 ++ [.listEnd])
  onDictBegin := some fun u => (.ok, k.dictBegin u.1, u.2 ++ [.dictBegin])
  onDictEnd := some fun u => (.ok, k.dictEnd u.1, u.2 ++ [.dictEnd])

theorem callBack_callbacks (e : Event) (u : σ × List Event) :
    callBack (some k.callbacks) e u = (.ok, k.handle e u.1, u.2 ++ [e]) := by
  cases e <;> rfl

theorem deliver_callbacks (es : List Event) (u : σ × List Event) :
    (deliver .ok (callBack (some k.callbacks)) es u).2.2 = u.2 ++ es := by
  induction es generalizing u with
  | nil => simp
  | cons e es ih => simp [deliver_cons, callBack_callbacks, ih]

end Consumer

/-- The log of a consumer is, at every moment, a beginning of the events of a canonical
tree within the limit, and it is all of them exactly on success. -/
theorem bencodeParseSax_trace {σ : Type} (k : Consumer σ) (input : Span) (user : σ)
    (maxDepth : Nat) :
    ∃ r, bencodeParseSax input (some k.callbacks) (user, []) maxDepth = .ok r ∧
      (∀ log, log <+: r.user.2 → ∃ t : Tree,
        t.Canonical ∧ t.nesting ≤ effectiveDepth maxDepth ∧ log <+: t.events 0) ∧
      (r.status = .ok ↔ ∃ t : Tree,
        t.Canonical ∧ t.nesting ≤ effectiveDepth maxDepth ∧ r.user.2 = t.events 0) := by
  by_cases hbad : input.isBad = false
  · obtain ⟨r, hrun, hreplay⟩ :=
      bencodeParseSax_replays input hbad (some k.callbacks) (user, []) maxDepth
    obtain ⟨es, hscan, told⟩ := hreplay.of_accepting fun e u => by rw [k.callBack_callbacks]
    have hlog : r.user.2 = es := by
      have := k.deliver_callbacks es (user, [])
      rwa [told, List.nil_append] at this
    obtain ⟨⟨t, canonical, nesting, hprefix⟩, hwhole⟩ := hscan.trace
    rw [← hlog] at hprefix hwhole
    exact ⟨r, hrun, fun log h => ⟨t, canonical, nesting, h.trans hprefix⟩, hwhole⟩
  · have hst : Status.errInvalidArg ≠ .ok := by decide
    refine ⟨⟨.errInvalidArg, 0, (user, [])⟩, by simp [bencodeParseSax, hbad], ?_, ?_⟩
    · intro log h
      rw [List.prefix_nil.mp h]
      exact ⟨.int 0, trivial, Nat.zero_le _, List.nil_prefix⟩
    · apply iff_of_false hst
      rintro ⟨t, -, -, h⟩
      exact t.events_ne_nil 0 h.symm

end Bencode
