import Bencode.Dom.Footprint
import Bencode.Spec.Flaw
import Bencode.Value.Requests

/-!
# How many requests a parse makes

Each callback of the builder makes as many requests as its event and the open containers
ask for. So the requests of a parse are those of what has been read: a function of the
input, whichever of them are refused.
-/

namespace Bencode

open LabelledMachine Delivery BlockLedger

/-! ## The requests for what has been read -/

def OpenScope.requests : OpenScope → Nat
  | .list done => 1 + (Doubling.growths firstCapacity done.length + itemsRequests false done)
  | .dict done _ => 1 + (Doubling.growths firstCapacity done.length + entriesRequests false done)

def OpenScope.attachRequests : OpenScope → Nat
  | .list done => Doubling.growth firstCapacity done.length
  | .dict done key => copyRequests (key.getD []) + Doubling.growth firstCapacity done.length

def attachRequests : List OpenScope → Nat
  | [] => 0
  | o :: _ => o.attachRequests

def insideRequests : List OpenScope → Nat
  | [] => 0
  | o :: below => o.requests + o.attachRequests + insideRequests below

def readRequests : List OpenScope × Option Tree → Nat
  | (_, some t) => t.requests false
  | ([], none) => 0
  | (o :: below, none) => o.requests + insideRequests below

def eventRequests (stack : List OpenScope) : Event → Nat
  | .string _ _ =>
      match stack with
      | .dict _ none :: _ => 0
      | _ => 1 + attachRequests stack
  | .listEnd => 0
  | .dictEnd => 0
  | _ => 1 + attachRequests stack

theorem insideRequests_eq (stack : List OpenScope) :
    insideRequests stack = readRequests (stack, none) + attachRequests stack := by
  cases stack with
  | nil => rfl
  | cons o below => exact Nat.add_right_comm _ _ _

theorem settle_requests {stack : List OpenScope} (await : Awaits stack) (t : Tree) :
    readRequests (settle stack t) = insideRequests stack + t.requests false := by
  have hpos : 0 < firstCapacity := by decide
  cases stack with
  | nil => exact (Nat.zero_add _).symm
  | cons o below =>
      cases o with
      | list done =>
          have hstep := Doubling.growths_succ hpos done.length
          simp only [settle, readRequests, insideRequests, OpenScope.requests,
            OpenScope.attachRequests, itemsRequests_append, itemsRequests, List.length_append,
            List.length_singleton, hstep]
          omega
      | dict done key =>
          cases key with
          | none => exact await.elim
          | some k =>
              have hstep := Doubling.growths_succ hpos done.length
              simp only [settle, readRequests, insideRequests, OpenScope.requests,
                OpenScope.attachRequests, entriesRequests_append, entriesRequests,
                List.length_append, List.length_singleton, hstep, Option.getD_some]
              omega

theorem eventRequests_string {stack : List OpenScope} (await : Awaits stack) (off : Nat)
    (bytes : Bytes) : eventRequests stack (.string off bytes) = 1 + attachRequests stack := by
  cases stack with
  | nil => rfl
  | cons o below =>
      cases o with
      | list done => rfl
      | dict done key =>
          cases key with
          | none => exact await.elim
          | some k => rfl

/-- Every token adds the requests of its callback. -/
theorem Reads.requests {limit pos : Nat} {stack : List OpenScope} {tok : Bytes} {e : Event}
    {next : List OpenScope × Option Tree} (h : Reads limit stack pos tok e next)
    (well : WellOpen limit stack) :
    readRequests next = readRequests (stack, none) + eventRequests stack e := by
  have hempty : Doubling.growths firstCapacity 0 = 0 := rfl
  have hinside := insideRequests_eq stack
  cases h with
  | int await i =>
      rw [settle_requests await, hinside]
      simp only [Tree.requests, eventRequests]
      omega
  | string await bytes =>
      rw [settle_requests await, hinside, stringEvent, eventRequests_string await]
      simp only [Tree.requests, Bool.false_eq_true, if_false]
      omega
  | listBegin await =>
      have hnew : readRequests (.list [] :: stack, none) = 1 + insideRequests stack := rfl
      rw [hnew, hinside, eventRequests]
      · omega
      · simp
      · simp
      · simp
  | dictBegin await =>
      have hnew : readRequests (.dict [] none :: stack, none) = 1 + insideRequests stack := rfl
      rw [hnew, hinside, eventRequests]
      · omega
      · simp
      · simp
      · simp
  | key done below k => rfl
  | listEnd done below =>
      rw [settle_requests well.2.2.1]
      exact Nat.add_comm _ _
  | dictEnd done below =>
      rw [settle_requests well.2.2.1]
      exact Nat.add_comm _ _

/-! ## The callbacks -/

section Callbacks

variable {bufs : Buffers} {base limit : Nat} {m : Memory} {s : DomState}
  {stack : List OpenScope} {hist : List Event} {child : Value}

theorem DomState.storeContainer_mem (s : DomState) (f : DomFrame) (c : Option Value)
    (m : Memory) : (s.storeContainer f c m).mem = m := by
  cases c <;> rfl

theorem DomState.setFrame_quiet (s : DomState) (i : Nat) (f : DomFrame) :
    Asked 0 s.mem (s.setFrame i f).mem := by
  unfold setFrame
  split
  · exact .refl s.mem
  · exact s.mem.misuse_quiet

/-- Appending makes the requests of the scope that the list stands for. -/
theorem list_scope_costs {hd : Header} {slots : Slots Value} {done : List Tree}
    (sound : (Value.list hd slots).Sound) (tight : (Value.list hd slots).Tight)
    (holds : itemTrees bufs slots.items = done) :
    Costs (OpenScope.list done).attachRequests
      ((bencodeListAppend (some (.list hd slots)) (some child) m).1 = .ok) m
      (bencodeListAppend (some (.list hd slots)) (some child) m).2.2 := by
  have hlen : slots.items.length = done.length := by rw [← holds, length_itemTrees]
  rw [OpenScope.attachRequests, ← hlen]
  exact bencodeListAppend_costs (listSlots_sound sound) (tight_list_iff.mp tight).1

/-- The key of the scope is above the keys of the dict, so it is copied and put at their end. -/
theorem dict_scope_costs {hd : Header} {slots : Slots (Entry Value)} {k : Bytes}
    {done : List (Bytes × Tree)} (sound : (Value.dict hd slots).Sound)
    (tight : (Value.dict hd slots).Tight) (holds : entryTrees bufs slots.items = done)
    (above : ∀ l ∈ entryKeys done, l < k) :
    Costs (OpenScope.dict done (some k)).attachRequests
      ((bencodeDictSet (some (.dict hd slots)) (.mem k) (some child) m).1 = .ok) m
      (bencodeDictSet (some (.dict hd slots)) (.mem k) (some child) m).2.2 := by
  have hlen : slots.items.length = done.length := by rw [← holds, length_entryTrees]
  have hlast : ∀ l ∈ storedKeys slots.items, l < k := by
    rw [← entryKeys_entryTrees bufs, holds]
    exact above
  rw [OpenScope.attachRequests, ← hlen]
  exact @bencodeDictSet_costs hd child m slots (.mem k) (sound_dict_iff.mp sound).1
    (tight_dict_iff.mp tight).1 rfl hlast

theorem attach_costs (growing : Growing bufs base s stack none hist) (await : Awaits stack)
    (well : WellOpen limit stack) (cap : limit ≤ internalMaxDepth) (whole : s.Whole)
    (tight : s.Tight) :
    Costs (attachRequests stack) ((attach s (some child)).1 = .ok) s.mem
      (attach s (some child)).2.mem := by
  cases growing with
  | empty root depth =>
      rw [attach, if_pos depth]
      exact .ofAsked (.refl s.mem)
  | @inside o below hist v ls depth hangs holds frame =>
      have room := well.frame_room cap
      have hnodup := whole.nodup
      rw [hangs.root, rootBlocks] at hnodup
      have hself : (s.frames below.length).container = v.self := by
        cases o with
        | list done => exact frame
        | dict done key =>
            cases key with
            | none => exact await.elim
            | some k => exact frame.1
      have found := DomState.container?_eq hangs.root hnodup hself
      have hsound := whole.container found
      have htight := tight.container found
      rw [attach_inside depth room found]
      cases o with
      | list done =>
          cases v with
          | int => exact False.elim holds
          | string => exact False.elim holds
          | dict => exact False.elim holds
          | list hd slots =>
              have htype : bencodeValueType (some (Value.list hd slots)) = .list := rfl
              rw [if_pos htype]
              dsimp only
              rw [DomState.storeContainer_mem]
              exact list_scope_costs hsound htight holds
      | dict done key =>
          cases key with
          | none => exact await.elim
          | some k =>
              cases v with
              | int => exact False.elim holds
              | string => exact False.elim holds
              | list => exact False.elim holds
              | dict hd slots =>
                  obtain ⟨-, -, hpending⟩ := frame
                  rw [if_neg (by simp [bencodeValueType]), hpending]
                  dsimp only
                  refine Costs.quiet ?_ (DomState.setFrame_quiet _ _ _)
                  rw [DomState.storeContainer_mem]
                  exact dict_scope_costs hsound htight holds well.key_above

theorem attachNew_costs {P : Value → Prop} {r : Status × Option Value × Memory}
    (h : Builds bufs base m stack none hist s) (await : Awaits stack)
    (well : WellOpen limit stack) (cap : limit ≤ internalMaxDepth) (tight : s.Tight)
    (built : Built s.alloc P s.mem r) (costs : Costs 1 (r.1 = .ok) s.mem r.2.2) :
    Costs (1 + attachRequests stack) ((attachNew s r).1 = .ok) s.mem (attachNew s r).2.mem := by
  have whole := h.running.owns.whole
  cases built with
  | nomem blocks refused =>
      rw [attachNew, if_pos (by simp)]
      exact costs.givenUp (.refl _) (Nat.le_add_right _ _) (by simp)
  | @ok child m₁ hchild content alloc blocks granted =>
      have hattach := @attach_costs bufs base limit { s with mem := m₁ } stack hist child
        (h.growing.setMem m₁) await well cap ⟨whole.sound, whole.nodup⟩ tight
      rw [attachNew, if_neg (by simp)]
      dsimp only
      generalize attach { s with mem := m₁ } (some child) = r at hattach
      obtain ⟨st, s₁⟩ := r
      have hboth := costs.andThen rfl hattach
      by_cases hst : st = .ok
      · rw [if_neg (by simpa using hst)]
        exact hboth
      · rw [if_pos hst]
        exact hboth.quiet (bencodeValueFree_quiet (some child) s₁.mem)

theorem openContainer_costs {type : ValueType} (h : Builds bufs base m stack none hist s)
    (await : Awaits stack) (well : WellOpen limit stack) (cap : limit ≤ internalMaxDepth)
    (tight : s.Tight) :
    Costs (1 + attachRequests stack) ((openContainer s type).1 = .ok) s.mem
      (openContainer s type).2.mem := by
  have checked := h.running.owns.checked
  have hnew : ∃ P, Built s.alloc P s.mem
      (if type = .list then bencodeListNew s.alloc s.mem else bencodeDictNew s.alloc s.mem) := by
    split
    · exact ⟨_, bencodeListNew_built checked s.mem⟩
    · exact ⟨_, bencodeDictNew_built checked s.mem⟩
  have hnode : Costs 1
      ((if type = .list then bencodeListNew s.alloc s.mem
        else bencodeDictNew s.alloc s.mem).1 = .ok) s.mem
      (if type = .list then bencodeListNew s.alloc s.mem
        else bencodeDictNew s.alloc s.mem).2.2 := by
    split
    · exact bencodeListNew_costs checked s.mem
    · exact bencodeDictNew_costs checked s.mem
  obtain ⟨P, hbuilt⟩ := hnew
  have hcosts := attachNew_costs h await well cap tight hbuilt hnode
  rw [openContainer]
  dsimp only
  generalize (if type = .list then bencodeListNew s.alloc s.mem
    else bencodeDictNew s.alloc s.mem) = built at hcosts
  generalize attachNew s built = r at hcosts
  split
  · exact hcosts
  · next hst =>
      have hok : r.1 = .ok := not_not.mp hst
      split
      · exact (hcosts.quiet r.2.mem.misuse_quiet).weaken fun _ => hok
      · split
        · exact hcosts.weaken fun _ => hok
        · exact (hcosts.quiet (r.2.setFrame_quiet _ _)).weaken fun _ => hok

theorem callBack_costs {pos : Nat} {tok : Bytes} {e : Event}
    {next : List OpenScope × Option Tree} (h : Builds bufs base m stack none hist s)
    (well : WellOpen limit stack) (cap : limit ≤ internalMaxDepth) (tight : s.Tight)
    (read : Reads limit stack pos tok e next) :
    Costs (eventRequests stack e) ((callBack (some domCallbacks) e s).1 = .ok) s.mem
      (callBack (some domCallbacks) e s).2.mem := by
  have checked := h.running.owns.checked
  have hpop : Costs 0 ((popFrame s).1 = .ok) s.mem (popFrame s).2.mem := by
    unfold popFrame
    split
    · exact .ofAsked (.refl s.mem)
    · exact .ofAsked (.refl s.mem)
  cases read with
  | int await i =>
      exact attachNew_costs h await well cap tight (bencodeIntNew_built checked s.mem i)
        (bencodeIntNew_costs checked i s.mem)
  | string await bytes fits =>
      rw [stringEvent, eventRequests_string await]
      show Costs _ ((domOnString _ bytes s).1 = .ok) s.mem (domOnString _ bytes s).2.mem
      rw [domOnString, keyFrame?_value h await well cap]
      exact attachNew_costs h await well cap tight
        (bencodeStringNewBorrowed_built checked s.mem _ fits)
        (bencodeStringNewBorrowed_costs s.alloc _ _ s.mem)
  | listBegin await room => exact openContainer_costs h await well cap tight
  | dictBegin await room => exact openContainer_costs h await well cap tight
  | key done below k =>
      show Costs 0 ((domOnString _ k s).1 = .ok) s.mem (domOnString _ k s).2.mem
      rw [domOnString, keyFrame?_key h well cap]
      exact .ofAsked (s.setFrame_quiet _ _)
  | listEnd done below => exact hpop
  | dictEnd done below => exact hpop

end Callbacks

/-! ## Runs -/

section Runs

variable {bufs : Buffers} {base limit : Nat}

theorem scanStep_requests {w : Bytes} {es : List Event} {c d : Config} {e : Event}
    (sound : Sound limit w es c) (head : scanStep limit c = .emit e d) :
    readRequests (d.stack, d.result) =
      readRequests (c.stack, c.result) + eventRequests c.stack e := by
  obtain ⟨hopen, tok, rest, next, -, read, rfl⟩ := scanStep_emit head
  have hwell := sound.well
  rw [hopen] at hwell ⊢
  exact read.requests hwell

theorem reaches_requests {w : Bytes} {es fs : List Event} {c d : Config}
    (sound : Sound limit w es c) (run : Reaches (scanStep limit) c fs d) :
    readRequests (c.stack, c.result) ≤ readRequests (d.stack, d.result) := by
  induction run generalizing es with
  | refl => exact Nat.le_refl _
  | next head tail ih =>
      rw [scanStep_requests sound head] at ih
      exact (Nat.le_add_right _ _).trans (ih (sound.step head))

/-- The builder, told the events of a run, makes the requests for what the run has read. -/
theorem domStart_costs {alloc : AllocRef} (checked : bencodeAllocatorCheck alloc = .ok)
    (cap : limit ≤ internalMaxDepth) {d : Config} {es : List Event}
    (run : Reaches (scanStep limit) (.start (bufs base)) es d) (m : Memory) :
    Costs (readRequests (d.stack, d.result))
      ((deliver .ok (callBack (some domCallbacks)) es
        (domStart (.buffer base) alloc m)).1 = .ok) m
      (deliver .ok (callBack (some domCallbacks)) es (domStart (.buffer base) alloc m)).2.mem := by
  induction es using List.reverseRecOn generalizing d with
  | nil =>
      cases run
      exact .ofAsked (.refl m)
  | append_singleton es e ih =>
      obtain ⟨c, hfirst, hlast⟩ := run.split
      have hcosts := ih hfirst
      have hsound := Sound.of_reaches hfirst
      have hanswer := domStart_run checked hfirst cap m
      generalize hbefore : deliver .ok (callBack (some domCallbacks)) es
        (domStart (.buffer base) alloc m) = r at hanswer hcosts
      cases hanswer with
      | nomem h =>
          rw [deliver_append, hbefore, if_neg (by simp)]
          exact hcosts.givenUp (.refl _) (reaches_requests hsound hlast) (by simp)
      | @ok s h =>
          rw [deliver_append_of_go hbefore, deliver_singleton]
          cases hlast with
          | next head tail =>
              cases tail
              rw [scanStep_requests hsound head]
              obtain ⟨hopen, tok, rest, next, -, read, -⟩ := scanStep_emit head
              have hbuilds := h.2
              have hwell := hsound.well
              rw [hopen] at hbuilds hwell
              have htight := domStart_tight checked cap hfirst hbefore
              exact hcosts.andThen rfl (callBack_costs hbuilds hwell cap htight read)

/-! ## `bencode_parse` -/

theorem NumeralFlaw.ne_nomem {cap : Nat} {tok rest : Bytes} {st : Status}
    (h : NumeralFlaw cap tok rest st) : st ≠ .errNomem := by
  cases h <;> simp

theorem CloseFlaw.ne_nomem {close : UInt8} {rest : Bytes} {st : Status}
    (h : CloseFlaw close rest st) : st ≠ .errNomem := by
  cases h <;> simp

theorem MagnitudeFlaw.ne_nomem {negative : Bool} {tok rest : Bytes} {st : Status}
    (h : MagnitudeFlaw negative tok rest st) : st ≠ .errNomem := by
  cases h with
  | numeral h => exact h.ne_nomem
  | negativeZero => simp
  | close numeral fits nonzero h => exact h.ne_nomem

theorem Flaw.ne_nomem {stack : List OpenScope} {tok rest : Bytes} {st : Status}
    (h : Flaw limit stack tok rest st) : st ≠ .errNomem := by
  cases h with
  | int await h =>
      cases h with
      | unsigned noSign h => exact h.ne_nomem
      | negative h => exact h.ne_nomem
  | string first digit h =>
      cases h with
      | numeral h => exact h.ne_nomem
      | close numeral fits h => exact h.ne_nomem
      | short => simp
  | _ => simp

theorem Scans.ne_nomem {w : Bytes} {es : List Event} {st : Status} {off : Nat}
    (scan : Scans limit w es st off) : st ≠ .errNomem := by
  rintro rfl
  obtain ⟨c, tok, rest, -, -, -, flaw, -⟩ :=
    (scans_flaw_iff scan (by decide : Status.errNomem ≠ .ok)).mp ⟨rfl, rfl⟩
  exact flaw.ne_nomem rfl

/-- The builder of a whole parse makes the requests for all that the scanner reads, or it is
refused one of them. -/
theorem Replays.requests {alloc : AllocRef} (checked : bencodeAllocatorCheck alloc = .ok)
    (cap : limit ≤ internalMaxDepth) {d : Config} {es : List Event} {v : Status × Nat}
    (run : Reaches (scanStep limit) (.start (bufs base)) es d) (stop : scanStep limit d = .stop v)
    {m : Memory} {r : SaxResult DomState}
    (h : Replays limit (bufs base) (some domCallbacks) (domStart (.buffer base) alloc m) r) :
    (r.status ≠ .errNomem ∧ m.Asked (readRequests (d.stack, d.result)) r.user.mem) ∨
      (r.status = .errNomem ∧ m.Stopped (readRequests (d.stack, d.result)) r.user.mem) := by
  cases h with
  | finished es' scan told =>
      have hne := scan.ne_nomem
      obtain ⟨d', run', stop'⟩ := scan
      obtain ⟨rfl, rfl⟩ := run.unique run' stop stop'
      have hcosts := domStart_costs checked cap run m
      rw [told] at hcosts
      exact .inl ⟨hne, hcosts.all rfl⟩
  | refused es' e d' u bad run' pos told refusal =>
      obtain ⟨rest, -, c, hrest, hstop⟩ := run'.of_finishes ⟨d, run, stop⟩
      obtain ⟨-, rfl⟩ := run.unique (run'.trans hrest) stop hstop
      have hle := reaches_requests (.of_reaches run') hrest
      have hcosts := domStart_costs checked cap run' m
      have hanswer := domStart_run checked run' cap m
      rw [deliver_append_of_go told, deliver_singleton, refusal] at hcosts hanswer
      obtain ⟨st, off, s⟩ := r
      cases hanswer with
      | ok => exact absurd rfl bad
      | nomem h => exact .inr ⟨rfl, (hcosts.stopped h.refused).mono hle⟩

/-- What follows the SAX run makes no requests and hides no refusal. -/
theorem parseEnd_quiet (trailing : Bool) (size : Nat) (r : SaxResult DomState) :
    Asked 0 r.user.mem (parseEnd trailing size r).mem ∧
      ((parseEnd trailing size r).status = .errNomem ↔ r.status = .errNomem) := by
  by_cases bad : r.status = .ok
  · unfold parseEnd
    by_cases hmore : trailing = false ∧ r.consumed ≠ size
    · simp only [bad, hmore, ne_eq, not_false_eq_true, and_self, if_true, reduceCtorEq, and_true]
      exact bencodeValueFree_quiet r.user.root r.user.mem
    · simp only [bad, hmore, and_false, if_false, ne_eq, not_true_eq_false, reduceCtorEq,
        and_true]
      exact .refl r.user.mem
  · rw [parseEnd_bad bad]
    exact ⟨bencodeValueFree_quiet r.user.root r.user.mem, Iff.rfl⟩

/-- `bencode_parse` makes the requests for all that the scanner reads of the buffer, and no others,
unless one of them is refused. -/
theorem bencodeParse_asks {d : Config} {es : List Event} {v : Status × Nat} (maxDepth : Nat)
    (run : Reaches (scanStep (effectiveDepth maxDepth)) (.start (bufs base)) es d)
    (stop : scanStep (effectiveDepth maxDepth) d = .stop v) {alloc : AllocRef}
    (checked : bencodeAllocatorCheck alloc = .ok) (trailing : Bool) (m : Memory) :
    ∃ r, bencodeParse bufs (.buffer base) (some ⟨maxDepth, alloc, trailing⟩) m = .ok r ∧
      ((r.status ≠ .errNomem ∧ m.Asked (readRequests (d.stack, d.result)) r.mem) ∨
        (r.status = .errNomem ∧ m.Stopped (readRequests (d.stack, d.result)) r.mem)) := by
  obtain ⟨r, hrun, hreplay⟩ := bencodeParseSax_replays (.mem (bufs base)) rfl (some domCallbacks)
    (domStart (.buffer base) alloc m) maxDepth
  obtain ⟨hquiet, hst⟩ := parseEnd_quiet trailing ((InputArg.buffer base).span bufs).len r
  refine ⟨_, @bencodeParse_eq bufs m (.buffer base) (some ⟨maxDepth, alloc, trailing⟩) r checked
    hrun, ?_⟩
  rcases hreplay.requests checked (effectiveDepth_le maxDepth) run stop with
    ⟨hgood, hasked⟩ | ⟨hbad, hstopped⟩
  · exact .inl ⟨fun h => hgood (hst.mp h), hasked.quiet hquiet⟩
  · exact .inr ⟨hst.mpr hbad, hstopped.quiet hquiet⟩

end Runs

end Bencode
