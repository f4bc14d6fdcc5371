import Bencode.Cli.Output
import Bencode.Dom.RoundTrip
import Bencode.Spec.Completeness

/-!
# The statistics count the events

A listener that only hears the events knows which containers are open and whether a dict
waits for a key. What the walk over a parsed tree counts is what this listener counts.
No counter wraps around: each is at most the length of the input.
-/

namespace Bencode

/-! ## Listening -/

/-- An open container; of a dict the listener knows whether the next string is a key. -/
inductive Listening
  | list
  | dict (keyNext : Bool)

def gotValue : List Listening → List Listening
  | .dict _ :: outer => .dict true :: outer
  | scopes => scopes

def awaitsKey : List Listening → Bool
  | .dict keyNext :: _ => keyNext
  | _ => false

/-- The containers that are open after an event, innermost first. -/
def listen (scopes : List Listening) : Event → List Listening
  | .int _ => gotValue scopes
  | .string _ _ => if awaitsKey scopes then .dict false :: scopes.tail else gotValue scopes
  | .listBegin => .list :: scopes
  | .listEnd => gotValue scopes.tail
  | .dictBegin => .dict true :: scopes
  | .dictEnd => gotValue scopes.tail

def startsValue (scopes : List Listening) : Event → Bool
  | .string _ _ => !awaitsKey scopes
  | .listEnd => false
  | .dictEnd => false
  | _ => true

/-- How many containers are open when the value events fire, in order. -/
def valueDepths : List Listening → List Event → List Nat
  | _, [] => []
  | scopes, e :: es =>
      if startsValue scopes e then scopes.length :: valueDepths (listen scopes e) es
      else valueDepths (listen scopes e) es

/-! ## Counting events -/

namespace Event

def isInt : Event → Bool
  | .int _ => true
  | _ => false

def isString : Event → Bool
  | .string _ _ => true
  | _ => false

def stringBytes : Event → Nat
  | .string _ bytes => bytes.length
  | _ => 0

end Event

/-- The statistics of events that are heard with `scopes` open. -/
def eventStats (scopes : List Listening) (es : List Event) : Stats where
  totalValues := (valueDepths scopes es).length
  ints := es.countP Event.isInt
  strings := es.countP Event.isString
  lists := es.count .listBegin
  dicts := es.count .dictBegin
  maxDepthSeen := (valueDepths scopes es).foldr max 0
  totalStringBytes := (es.map Event.stringBytes).sum

namespace Stats

def plus (s t : Stats) : Stats where
  totalValues := s.totalValues + t.totalValues
  ints := s.ints + t.ints
  strings := s.strings + t.strings
  lists := s.lists + t.lists
  dicts := s.dicts + t.dicts
  maxDepthSeen := max s.maxDepthSeen t.maxDepthSeen
  totalStringBytes := s.totalStringBytes + t.totalStringBytes

/-- The statistics as `size_t` counters hold them. -/
def wrap (s : Stats) : Stats where
  totalValues := s.totalValues % sizeMod
  ints := s.ints % sizeMod
  strings := s.strings % sizeMod
  lists := s.lists % sizeMod
  dicts := s.dicts % sizeMod
  maxDepthSeen := s.maxDepthSeen
  totalStringBytes := s.totalStringBytes % sizeMod

theorem plus_assoc (s t u : Stats) : (s.plus t).plus u = s.plus (t.plus u) := by
  simp only [plus, Nat.add_assoc, Nat.max_assoc]

@[simp] theorem zero_plus (s : Stats) : zero.plus s = s := by simp [plus, zero]

@[simp] theorem plus_zero (s : Stats) : s.plus zero = s := by simp [plus, zero]

@[simp] theorem wrap_zero : zero.wrap = zero := by simp [wrap, zero]

/-! ### What `walk` counts at one node -/

theorem enter_max (depth n : Nat) : (if depth > n then depth else n) = max n depth := by
  split <;> omega

theorem wrap_addInt (s : Stats) (depth : Nat) :
    (s.wrap.enter depth).addInt = (s.plus ⟨1, 1, 0, 0, 0, depth, 0⟩).wrap := by
  simp [wrap, enter, addInt, bump, plus, enter_max]

theorem wrap_addValueString (s : Stats) (depth len : Nat) :
    (s.wrap.enter depth).addString len = (s.plus ⟨1, 0, 1, 0, 0, depth, len⟩).wrap := by
  simp [wrap, enter, addString, bump, plus, enter_max]

theorem wrap_addKey (s : Stats) (len : Nat) :
    s.wrap.addString len = (s.plus ⟨0, 0, 1, 0, 0, 0, len⟩).wrap := by
  simp [wrap, addString, bump, plus]

theorem wrap_addList (s : Stats) (depth : Nat) :
    (s.wrap.enter depth).addList = (s.plus ⟨1, 0, 0, 1, 0, depth, 0⟩).wrap := by
  simp [wrap, enter, addList, bump, plus, enter_max]

theorem wrap_addDict (s : Stats) (depth : Nat) :
    (s.wrap.enter depth).addDict = (s.plus ⟨1, 0, 0, 0, 1, depth, 0⟩).wrap := by
  simp [wrap, enter, addDict, bump, plus, enter_max]

end Stats

section Listening

variable (scopes : List Listening)

theorem valueDepths_append (es fs : List Event) :
    valueDepths scopes (es ++ fs) =
      valueDepths scopes es ++ valueDepths (es.foldl listen scopes) fs := by
  induction es generalizing scopes with
  | nil => rfl
  | cons e es ih =>
      rw [List.cons_append, valueDepths, valueDepths, List.foldl_cons, ih]
      split <;> rfl

theorem foldr_max_append (xs ys : List Nat) :
    (xs ++ ys).foldr max 0 = max (xs.foldr max 0) (ys.foldr max 0) := by
  induction xs with
  | nil => simp
  | cons x xs ih => rw [List.cons_append, List.foldr_cons, List.foldr_cons, ih, Nat.max_assoc]

theorem eventStats_append (es fs : List Event) :
    eventStats scopes (es ++ fs) =
      (eventStats scopes es).plus (eventStats (es.foldl listen scopes) fs) := by
  simp only [eventStats, Stats.plus, valueDepths_append, List.length_append, List.countP_append,
    List.count_append, List.map_append, List.sum_append, foldr_max_append]

theorem eventStats_cons (e : Event) (es : List Event) :
    eventStats scopes (e :: es) =
      (eventStats scopes [e]).plus (eventStats (listen scopes e) es) :=
  eventStats_append scopes [e] es

theorem eventStats_nil : eventStats scopes [] = .zero := rfl

end Listening

/-! ## Trees and their events -/

mutual

theorem Tree.listened (t : Tree) (scopes : List Listening) (pos : Nat)
    (await : awaitsKey scopes = false) :
    (t.events pos).foldl listen scopes = gotValue scopes := by
  cases t with
  | int i => rfl
  | string bytes =>
      show (if awaitsKey scopes then _ else gotValue scopes) = gotValue scopes
      rw [await]
      rfl
  | list items =>
      rw [Tree.events, List.foldl_cons, List.foldl_append]
      rw [show listen scopes .listBegin = .list :: scopes from rfl, items_listened items]
      rfl
  | dict entries =>
      rw [Tree.events, List.foldl_cons, List.foldl_append]
      rw [show listen scopes .dictBegin = .dict true :: scopes from rfl, entries_listened entries]
      rfl

theorem items_listened (ts : List Tree) (outer : List Listening) (pos : Nat) :
    (itemsEvents ts pos).foldl listen (.list :: outer) = .list :: outer := by
  cases ts with
  | nil => rfl
  | cons t ts =>
      rw [itemsEvents, List.foldl_append, t.listened _ _ rfl]
      exact items_listened ts outer _

theorem entries_listened (es : List (Bytes × Tree)) (outer : List Listening) (pos : Nat) :
    (entriesEvents es pos).foldl listen (.dict true :: outer) = .dict true :: outer := by
  cases es with
  | nil => rfl
  | cons e es =>
      obtain ⟨k, t⟩ := e
      rw [entriesEvents, List.foldl_cons, List.foldl_append]
      rw [show listen (.dict true :: outer) (stringEvent pos k) = .dict false :: outer from rfl,
        t.listened _ _ rfl]
      exact entries_listened es outer _

end

mutual

theorem Tree.walk_counts (t : Tree) (s : Stats) (scopes : List Listening) (pos : Nat)
    (await : awaitsKey scopes = false) :
    t.walk s.wrap scopes.length = (s.plus (eventStats scopes (t.events pos))).wrap := by
  cases t with
  | int i =>
      rw [Tree.walk, Stats.wrap_addInt]
      simp [Tree.events, eventStats, valueDepths, startsValue, Event.isInt, Event.isString,
        Event.stringBytes]
  | string bytes =>
      rw [Tree.walk, Stats.wrap_addValueString]
      simp [Tree.events, stringEvent, eventStats, valueDepths, startsValue, await, Event.isInt,
        Event.isString, Event.stringBytes]
  | list items =>
      have hbegin : eventStats scopes [.listBegin] = ⟨1, 0, 0, 1, 0, scopes.length, 0⟩ := by
        simp [eventStats, valueDepths, startsValue, Event.isInt, Event.isString,
          Event.stringBytes]
      have hend : ∀ inner, eventStats inner [.listEnd] = .zero := fun _ => rfl
      rw [Tree.walk, Stats.wrap_addList, items_counts items, Tree.events, eventStats_cons,
        eventStats_append, hbegin, hend, Stats.plus_zero, Stats.plus_assoc]
      rfl
  | dict entries =>
      have hbegin : eventStats scopes [.dictBegin] = ⟨1, 0, 0, 0, 1, scopes.length, 0⟩ := by
        simp [eventStats, valueDepths, startsValue, Event.isInt, Event.isString,
          Event.stringBytes]
      have hend : ∀ inner, eventStats inner [.dictEnd] = .zero := fun _ => rfl
      rw [Tree.walk, Stats.wrap_addDict, entries_counts entries, Tree.events, eventStats_cons,
        eventStats_append, hbegin, hend, Stats.plus_zero, Stats.plus_assoc]
      rfl

theorem items_counts (ts : List Tree) (s : Stats) (outer : List Listening) (pos : Nat) :
    walkTrees ts s.wrap outer.length =
      (s.plus (eventStats (.list :: outer) (itemsEvents ts pos))).wrap := by
  cases ts with
  | nil =>
      rw [walkTrees, itemsEvents, eventStats_nil, Stats.plus_zero]
  | cons t ts =>
      have hitem := t.walk_counts s (.list :: outer) pos rfl
      rw [List.length_cons] at hitem
      rw [walkTrees, hitem, items_counts ts, itemsEvents, eventStats_append, Stats.plus_assoc,
        t.listened _ _ rfl]
      rfl

theorem entries_counts (es : List (Bytes × Tree)) (s : Stats) (outer : List Listening)
    (pos : Nat) :
    walkPairs es s.wrap outer.length =
      (s.plus (eventStats (.dict true :: outer) (entriesEvents es pos))).wrap := by
  cases es with
  | nil =>
      rw [walkPairs, entriesEvents, eventStats_nil, Stats.plus_zero]
  | cons e es =>
      obtain ⟨k, t⟩ := e
      have hkey : eventStats (.dict true :: outer) [stringEvent pos k] =
          ⟨0, 0, 1, 0, 0, 0, k.length⟩ := by
        simp [stringEvent, eventStats, valueDepths, startsValue, awaitsKey, Event.isInt,
          Event.isString, Event.stringBytes]
      have hvalue := t.walk_counts (s.plus ⟨0, 0, 1, 0, 0, 0, k.length⟩) (.dict false :: outer)
        (pos + (encodeString k).length) rfl
      rw [List.length_cons] at hvalue
      have hheard : listen (.dict true :: outer) (stringEvent pos k) = .dict false :: outer := rfl
      rw [walkPairs, Stats.wrap_addKey, hvalue, entries_counts es, entriesEvents, eventStats_cons,
        hkey, hheard, eventStats_append, t.listened _ _ rfl]
      simp only [Stats.plus_assoc]
      rfl

end

/-! ## Bounds -/

mutual

/-- Every event stands for at least one byte of the encoding. -/
theorem Tree.events_length_le (t : Tree) (pos : Nat) :
    (t.events pos).length ≤ t.encode.length := by
  cases t with
  | int i => simp [Tree.events, Tree.encode, encodeInt]
  | string bytes =>
      simp only [Tree.events, Tree.encode, encodeString, List.length_append, List.length_cons,
        List.length_nil]
      omega
  | list items =>
      have hitems := items_length_le items (pos + 1)
      simp only [Tree.events, Tree.encode, List.length_append, List.length_cons, List.length_nil]
      omega
  | dict entries =>
      have hentries := entries_length_le entries (pos + 1)
      simp only [Tree.events, Tree.encode, List.length_append, List.length_cons, List.length_nil]
      omega

theorem items_length_le (ts : List Tree) (pos : Nat) :
    (itemsEvents ts pos).length ≤ (encodeItems ts).length := by
  cases ts with
  | nil => exact Nat.le_refl 0
  | cons t ts =>
      rw [itemsEvents, encodeItems, List.length_append, List.length_append]
      exact Nat.add_le_add (t.events_length_le _) (items_length_le ts _)

theorem entries_length_le (es : List (Bytes × Tree)) (pos : Nat) :
    (entriesEvents es pos).length ≤ (encodeEntries es).length := by
  cases es with
  | nil => exact Nat.le_refl 0
  | cons e es =>
      obtain ⟨k, t⟩ := e
      have hvalue := t.events_length_le (pos + (encodeString k).length)
      have hrest :=
        entries_length_le es (pos + (encodeString k).length + t.encode.length)
      have hkey : 0 < (encodeString k).length := by simp [encodeString]
      simp only [entriesEvents, encodeEntries, List.length_append, List.length_cons]
      omega

end

mutual

theorem Tree.events_bytes_le (t : Tree) (pos : Nat) :
    ((t.events pos).map Event.stringBytes).sum ≤ t.encode.length := by
  cases t with
  | int i => exact Nat.zero_le _
  | string bytes =>
      simp only [Tree.events, stringEvent, Tree.encode, encodeString, List.map_cons, List.map_nil,
        List.sum_cons, List.sum_nil, Event.stringBytes, List.length_append, List.length_cons]
      omega
  | list items =>
      have hitems := items_bytes_le items (pos + 1)
      simp only [Tree.events, Tree.encode, List.map_cons, List.map_append, List.map_nil,
        List.sum_cons, List.sum_append, List.sum_nil, Event.stringBytes, List.length_append,
        List.length_cons, List.length_nil]
      omega
  | dict entries =>
      have hentries := entries_bytes_le entries (pos + 1)
      simp only [Tree.events, Tree.encode, List.map_cons, List.map_append, List.map_nil,
        List.sum_cons, List.sum_append, List.sum_nil, Event.stringBytes, List.length_append,
        List.length_cons, List.length_nil]
      omega

theorem items_bytes_le (ts : List Tree) (pos : Nat) :
    ((itemsEvents ts pos).map Event.stringBytes).sum ≤ (encodeItems ts).length := by
  cases ts with
  | nil => exact Nat.le_refl 0
  | cons t ts =>
      rw [itemsEvents, encodeItems, List.map_append, List.sum_append, List.length_append]
      exact Nat.add_le_add (t.events_bytes_le _) (items_bytes_le ts _)

theorem entries_bytes_le (es : List (Bytes × Tree)) (pos : Nat) :
    ((entriesEvents es pos).map Event.stringBytes).sum ≤ (encodeEntries es).length := by
  cases es with
  | nil => exact Nat.le_refl 0
  | cons e es =>
      obtain ⟨k, t⟩ := e
      have hvalue := t.events_bytes_le (pos + (encodeString k).length)
      have hrest :=
        entries_bytes_le es (pos + (encodeString k).length + t.encode.length)
      have hkey : k.length ≤ (encodeString k).length := by
        rw [encodeString, List.length_append, List.length_cons]
        omega
      simp only [entriesEvents, stringEvent, encodeEntries, List.map_cons, List.map_append,
        List.sum_cons, List.sum_append, Event.stringBytes, List.length_append]
      omega

end

theorem valueDepths_length_le (scopes : List Listening) (es : List Event) :
    (valueDepths scopes es).length ≤ es.length := by
  induction es generalizing scopes with
  | nil => exact Nat.le_refl 0
  | cons e es ih =>
      rw [valueDepths]
      split
      · exact Nat.succ_le_succ (ih _)
      · exact Nat.le_succ_of_le (ih _)

theorem eventStats_wrap {scopes : List Listening} {es : List Event} (few : es.length ≤ sizeMax)
    (short : (es.map Event.stringBytes).sum ≤ sizeMax) :
    (eventStats scopes es).wrap = eventStats scopes es := by
  have hmod : ∀ n, n ≤ sizeMax → n % sizeMod = n := by
    intro n hn
    exact Nat.mod_eq_of_lt (Nat.lt_of_le_of_lt hn (by decide))
  have hcount : ∀ n, n ≤ es.length → n % sizeMod = n := fun n hn => hmod n (hn.trans few)
  simp only [Stats.wrap, eventStats, hcount _ (valueDepths_length_le scopes es),
    hcount _ List.countP_le_length, hcount _ List.count_le_length, hmod _ short]

/-! ## The walk over a parsed tree -/

theorem Parsed.events {bufs : Buffers} {base limit : Nat} {trailing : Bool} {w : Bytes}
    {m : Memory} {r : ParseResult} (h : Parsed bufs base limit trailing w m r)
    (accepted : r.status = .ok) (size : w.length ≤ sizeMax) :
    ∃ v rest, r.out = some v ∧ w = (v.tree bufs).encode ++ rest ∧
      Scans limit w ((v.tree bufs).events 0) .ok r.consumed := by
  cases h with
  | @accepted v rest es m' scan text whole sound told blocks granted =>
      obtain ⟨t, rest', htext, hlen, hevents, canonical, nesting⟩ := scan.sound
      have hsame : (v.tree bufs).encode ++ rest = t.encode ++ rest' := text.symm.trans htext
      have hfits : t.Fits := by
        apply t.fits_of_length
        rw [htext, List.length_append] at size
        exact Nat.le_trans (Nat.le_add_right _ _) size
      obtain ⟨htree, -⟩ := Tree.encode_injective (sound.canonical bufs v) (sound.fits bufs v)
        canonical hfits hsame
      rw [hevents, ← htree] at scan
      exact ⟨v, rest, rfl, text, scan⟩
  | trailing => cases accepted
  | rejected scan bad => exact absurd accepted bad
  | nomem => cases accepted

/-- The walk over the tree of an accepted input counts what a listener counts during the SAX run
on that input, and no more strings or values than the input has bytes. The length of an input is a
`size_t`. -/
theorem bencodeParse_statistics {bufs : Buffers} {base : Nat} {opts : Option ParseOptions}
    {m : Memory} {r : ParseResult} (size : (bufs base).length ≤ sizeMax)
    (run : bencodeParse bufs (.buffer base) opts m = .ok r) (accepted : r.status = .ok) :
    ∃ v es, r.out = some v ∧
      bencodeParseSax (.mem (bufs base)) (some recorder) [] (opts.getD .default).maxDepth =
        .ok ⟨.ok, r.consumed, es⟩ ∧
      walk bufs v .zero 0 = eventStats [] es ∧
      (walk bufs v .zero 0).totalStringBytes ≤ (bufs base).length ∧
      (walk bufs v .zero 0).totalValues ≤ (bufs base).length := by
  by_cases checked : bencodeAllocatorCheck (opts.getD .default).allocator = .ok
  · obtain ⟨r', hrun, hparsed⟩ := bencodeParse_parsed bufs base opts checked m
    cases run.symm.trans hrun
    obtain ⟨v, rest, hv, htext, hscan⟩ := hparsed.events accepted size
    obtain ⟨es, st, off, hsax, hscan'⟩ :=
      bencodeParseSax_recorder (.mem (bufs base)) rfl (opts.getD .default).maxDepth
    obtain ⟨rfl, hend⟩ := hscan.unique hscan'
    cases hend
    have hencode : (v.tree bufs).encode.length ≤ (bufs base).length := by
      rw [htext, List.length_append]
      exact Nat.le_add_right _ _
    have hfew := ((v.tree bufs).events_length_le 0).trans hencode
    have hshort := ((v.tree bufs).events_bytes_le 0).trans hencode
    have hwalk : walk bufs v .zero 0 = eventStats [] ((v.tree bufs).events 0) := by
      have hcounts := (v.tree bufs).walk_counts .zero [] 0 rfl
      rw [Stats.wrap_zero, Stats.zero_plus, eventStats_wrap (hfew.trans size)
        (hshort.trans size)] at hcounts
      rw [walk_eq]
      exact hcounts
    refine ⟨v, _, hv, hsax, hwalk, ?_, ?_⟩
    · rw [hwalk]
      exact hshort
    · rw [hwalk]
      exact (valueDepths_length_le [] _).trans hfew
  · cases run.symm.trans (bencodeParse_unchecked checked)
    exact absurd accepted checked

/-- The dict `d1:al0:ee`: one key, and an empty string at depth two. -/
theorem bencodeParse_statistics_dict :
    ∃ r v es, bencodeParse (fun _ => [100, 49, 58, 97, 108, 48, 58, 101, 101]) (.buffer 0) none
        (.empty fun _ => false) = .ok r ∧ r.out = some v ∧
      bencodeParseSax (.mem [100, 49, 58, 97, 108, 48, 58, 101, 101]) (some recorder) [] 64 =
        .ok ⟨.ok, r.consumed, es⟩ ∧
      walk (fun _ => [100, 49, 58, 97, 108, 48, 58, 101, 101]) v .zero 0 = eventStats [] es := by
  have hst : (bencodeParse (fun _ => [100, 49, 58, 97, 108, 48, 58, 101, 101]) (.buffer 0) none
      (.empty fun _ => false)).toOption.map (·.status) = some .ok := by decide +kernel
  cases hrun : bencodeParse (fun _ => [100, 49, 58, 97, 108, 48, 58, 101, 101]) (.buffer 0) none
      (.empty fun _ => false) with
  | error f =>
      rw [hrun] at hst
      cases hst
  | ok r =>
      rw [hrun] at hst
      obtain ⟨v, es, hv, hsax, hwalk, -, -⟩ :=
        bencodeParse_statistics (by decide) hrun (Option.some.inj hst)
      exact ⟨r, v, es, rfl, hv, hsax, hwalk⟩

end Bencode
