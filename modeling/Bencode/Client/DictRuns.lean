import Bencode.Dom.Run
import Bencode.Emit.Pieces
import Bencode.Value.Reports
import Bencode.Value.Zipper

/-!
# A dict over a run of sets

Whatever keys are set in whatever order, a dict is the finite map that the successful
sets describe. Its entries come in key order, and its text depends on the map only.
-/

namespace Bencode

open KeyedList

/-! ## One call -/

/-- A call of `bencode_dict_set` but for its dict; any memory may be there when it is made. -/
structure SetCall where
  key : Span
  child : Option Value
  mem : Memory

def SetCall.run (c : SetCall) (dict : Option Value) : Status × Option Value × Memory :=
  bencodeDictSet dict c.key c.child c.mem

def SetCall.pair (c : SetCall) : Option (Bytes × Value) := c.child.map fun v => (c.key.bytes, v)

theorem bencodeDictSet_invalid {dict child : Option Value} {key : Span}
    (invalid : key.isBad = true ∨ child = none) (m : Memory) :
    bencodeDictSet dict key child m = (.errInvalidArg, dict, m) := by
  rcases invalid with hbad | rfl
  · cases dict with
    | none => rfl
    | some v =>
        cases child with
        | none => cases v <;> rfl
        | some w =>
            cases v with
            | dict h s => rw [bencodeDictSet, if_pos hbad]
            | int => rfl
            | string => rfl
            | list => rfl
  · cases dict with
    | none => rfl
    | some v => cases v <;> rfl

/-- A successful set changes the map at its key, and any other call changes nothing. -/
inductive SetEffect (h : Header) (s : Slots (Entry Value)) (c : SetCall) :
    Status × Option Value × Memory → Prop
  | set {s' : Slots (Entry Value)} {child : Value} {m' : Memory} (sound : DictSound h s')
      (given : c.child = some child)
      (stored : ∀ k, storedValue s'.items k =
        if c.key.bytes = k then some child else storedValue s.items k) :
      SetEffect h s c (.ok, some (.dict h s'), m')
  | failed {st : Status} {m' : Memory} (bad : st ≠ .ok) :
      SetEffect h s c (st, some (.dict h s), m')

theorem WasSet.effect {h : Header} {s : Slots (Entry Value)} {c : SetCall} {child : Value}
    {m m' : Memory} {st : Status} {out : Option Value} (sound : DictSound h s)
    (given : c.child = some child) (hrun : WasSet h s c.key.bytes child m st out m') :
    SetEffect h s c (st, out, m') := by
  cases hrun with
  | @replaced i e at_ eq =>
      refine .set (sound.set at_ child) given ?_
      intro k
      have hset := lookup_set (x := ⟨e.key, child⟩) (storedKeys_nodup sound.sorted) at_
        (rfl : e.key.bytes = e.key.bytes) k
      rw [storedValue, ← eq]
      dsimp only
      rw [hset]
      by_cases hk : e.key.bytes = k
      · rw [if_pos hk, if_pos hk]
        rfl
      · rw [if_neg hk, if_neg hk]
        rfl
  | @inserted i copy s' m' le below above key copied items sound' blocks =>
      have habsent : copy.bytes ∉ storedKeys s.items := by
        rw [key]
        exact fun hmem => Bool.false_ne_true ((Found.miss le below above).mem_iff.mp hmem)
      refine .set sound' given ?_
      intro k
      have hinsert := lookup_insert (x := (⟨copy, child⟩ : Entry Value)) i habsent k
      rw [storedValue, items, hinsert, ← key]
      by_cases hk : copy.bytes = k
      · rw [if_pos hk, if_pos hk]
        rfl
      · rw [if_neg hk, if_neg hk]
        rfl
  | nomem blocks reason => exact .failed (by simp)

theorem SetCall.effect {h : Header} {s : Slots (Entry Value)} (sound : DictSound h s)
    (c : SetCall) : SetEffect h s c (c.run (some (.dict h s))) := by
  by_cases invalid : c.key.isBad = true ∨ c.child = none
  · rw [SetCall.run, bencodeDictSet_invalid invalid]
    exact .failed (by simp)
  · rw [not_or, Bool.not_eq_true] at invalid
    obtain ⟨child, hchild⟩ := Option.ne_none_iff_exists'.mp invalid.2
    rw [SetCall.run, hchild]
    generalize hrun : bencodeDictSet (some (.dict h s)) c.key (some child) c.mem = r
    obtain ⟨st, out, m'⟩ := r
    exact (bencodeDictSet_wasSet sound invalid.1 hrun).effect sound hchild

/-! ## Runs -/

def setAll (dict : Option Value) : List SetCall → Option Value
  | [] => dict
  | c :: cs => setAll (c.run dict).2.1 cs

theorem setAll_append (dict : Option Value) (before after : List SetCall) :
    setAll dict (before ++ after) = setAll (setAll dict before) after := by
  induction before generalizing dict with
  | nil => rfl
  | cons c cs ih => exact ih _

def succeeded (dict : Option Value) : List SetCall → List (Bytes × Value)
  | [] => []
  | c :: cs =>
      (if (c.run dict).1 = .ok then c.pair.toList else []) ++ succeeded (c.run dict).2.1 cs

def setsOf (log : List (Bytes × Value)) (k : Bytes) : List Value :=
  (log.filter fun p => p.1 = k).map (·.2)

def lastSet (log : List (Bytes × Value)) (k : Bytes) : Option Value := (setsOf log k).getLast?

theorem lastSet_cons (l : Bytes) (v : Value) (log : List (Bytes × Value)) (k : Bytes) :
    lastSet ((l, v) :: log) k = (lastSet log k).or (if l = k then some v else none) := by
  by_cases h : l = k
  · rw [lastSet, setsOf, List.filter_cons_of_pos (by simpa using h), List.map_cons,
      List.getLast?_cons, if_pos h, lastSet, setsOf]
    cases ((log.filter fun p => p.1 = k).map (·.2)).getLast? <;> rfl
  · rw [lastSet, setsOf, List.filter_cons_of_neg (by simpa using h), if_neg h, Option.or_none,
      lastSet, setsOf]

theorem setAll_run {h : Header} (calls : List SetCall) {s : Slots (Entry Value)}
    (sound : DictSound h s) :
    ∃ s', setAll (some (.dict h s)) calls = some (.dict h s') ∧ DictSound h s' ∧
      ∀ k, storedValue s'.items k =
        (lastSet (succeeded (some (.dict h s)) calls) k).or (storedValue s.items k) := by
  induction calls generalizing s with
  | nil => exact ⟨s, rfl, sound, fun k => rfl⟩
  | cons c cs ih =>
      have heffect := c.effect sound
      rw [setAll, succeeded]
      generalize c.run (some (.dict h s)) = r at heffect
      cases heffect with
      | @set s₁ child m' sound₁ given stored =>
          obtain ⟨s', hrun, sound', hstored⟩ := ih sound₁
          refine ⟨s', hrun, sound', ?_⟩
          intro k
          rw [if_pos rfl, SetCall.pair, given, Option.map_some, Option.toList_some,
            List.singleton_append, lastSet_cons, hstored, stored, Option.or_assoc]
          by_cases hk : c.key.bytes = k
          · rw [if_pos hk, if_pos hk, Option.some_or]
          · rw [if_neg hk, if_neg hk, Option.none_or]
      | failed bad =>
          obtain ⟨s', hrun, sound', hstored⟩ := ih sound
          refine ⟨s', hrun, sound', ?_⟩
          intro k
          rw [if_neg bad, List.nil_append]
          exact hstored k

/-! ## Where dicts come from -/

/-- A dict that is new, or that lies anywhere in the tree of an accepted input. -/
inductive StartDict : Value → Prop
  | fresh {dict : Value} {a : AllocRef} {m m' : Memory}
      (run : bencodeDictNew a m = (.ok, some dict, m')) : StartDict dict
  | parsed {bufs : Buffers} {input : InputArg} {opts : Option ParseOptions} {m : Memory}
      {r : ParseResult} {root dict : Value} (run : bencodeParse bufs input opts m = .ok r)
      (accepted : r.status = .ok) (out : r.out = some root)
      (found : root.find? dict.self = some dict) (type : bencodeValueType (some dict) = .dict) :
      StartDict dict

theorem StartDict.exists_dict {start : Value} (hstart : StartDict start) :
    ∃ h s, start = .dict h s ∧ DictSound h s := by
  have hdict : start.Sound ∧ bencodeValueType (some start) = .dict := by
    cases hstart with
    | @fresh dict a m m' run =>
        have hclean := bencodeDictNew_clean a m
        rw [run] at hclean
        refine ⟨hclean.sound _ rfl, ?_⟩
        by_cases checked : bencodeAllocatorCheck a = .ok
        · have hbuilt := bencodeDictNew_built checked m
          rw [run] at hbuilt
          cases hbuilt with
          | ok sound content alloc blocks granted =>
              obtain ⟨h, rfl⟩ := content
              rfl
        · simp [bencodeDictNew, checked] at run
    | @parsed bufs input opts m r root dict run accepted out found type =>
        obtain ⟨r', hrun, hclean⟩ := bencodeParse_clean bufs input opts m
        cases run.symm.trans hrun
        obtain ⟨-, ls, rfl⟩ := root.exists_path found
        exact ⟨sound_of_plug (hclean.sound _ out), type⟩
  obtain ⟨sound, type⟩ := hdict
  cases start with
  | dict h s => exact ⟨h, s, rfl, (sound_dict_iff.mp sound).1⟩
  | int => cases type
  | string => cases type
  | list => cases type

def Value.valueAt : Value → Bytes → Option Value
  | .dict _ s, k => storedValue s.items k
  | _, _ => none

/-! ## What a run leaves -/

theorem lastSet_eq_none {log : List (Bytes × Value)} {k : Bytes} :
    lastSet log k = none ↔ ∀ v, (k, v) ∉ log := by
  rw [lastSet, List.getLast?_eq_none_iff, setsOf, List.map_eq_nil_iff, List.filter_eq_nil_iff]
  constructor
  · intro h v hmem
    exact h (k, v) hmem (by simp)
  · rintro h ⟨l, v⟩ hmem heq
    obtain rfl : l = k := by simpa using heq
    exact h v hmem

theorem mem_storedKeys {log : List (Bytes × Value)} {start : Value} {entries : List (Entry Value)}
    {k : Bytes} (stored : storedValue entries k = (lastSet log k).or (start.valueAt k)) :
    k ∈ storedKeys entries ↔ (∃ v, (k, v) ∈ log) ∨ (start.valueAt k).isSome := by
  rw [← not_iff_not, ← storedValue_eq_none, stored, Option.or_eq_none_iff, lastSet_eq_none,
    not_or, not_exists, Option.isSome_iff_ne_none, not_not]

theorem lookup_entryTrees (bufs : Buffers) (es : List (Entry Value)) (k : Bytes) :
    lookup Prod.fst (entryTrees bufs es) k =
      (storedValue es k).map fun v => (k, v.tree bufs) := by
  induction es with
  | nil => rfl
  | cons e es ih =>
      obtain ⟨key, v⟩ := e
      rw [entryTrees, lookup_cons, ih, storedValue, storedValue, lookup_cons]
      by_cases h : key.bytes = k
      · simp only [h, if_true, Option.map_some]
      · simp only [h, if_false]

theorem entryTrees_ext {bufs : Buffers} {es fs : List (Entry Value)}
    (he : (storedKeys es).Pairwise (· < ·)) (hf : (storedKeys fs).Pairwise (· < ·))
    (h : ∀ k, (storedValue es k).map (Value.tree bufs) =
      (storedValue fs k).map (Value.tree bufs)) : entryTrees bufs es = entryTrees bufs fs := by
  have hlookup : ∀ k, lookup Prod.fst (entryTrees bufs es) k =
      lookup Prod.fst (entryTrees bufs fs) k := by
    intro k
    have hpair := congrArg (Option.map fun t => (k, t)) (h k)
    rw [Option.map_map, Option.map_map] at hpair
    rw [lookup_entryTrees, lookup_entryTrees]
    exact hpair
  rw [← entryKeys_entryTrees bufs] at he hf
  exact sorted_ext he hf hlookup

/-- A dict over any run of sets, failed ones included: it holds under each key the child of the
last successful set or what it held at the start; its size is the number of its keys; it lists
each key once and in increasing order; and runs that set each key alike, in whatever order the
keys come, leave dicts with one text. -/
theorem dict_run {start : Value} (hstart : StartDict start) (calls : List SetCall) :
    (∀ key : Span, bencodeDictGet (setAll (some start) calls) key =
      .ok (if key.isBad = true then none
        else (lastSet (succeeded (some start) calls) key.bytes).or (start.valueAt key.bytes))) ∧
    (∃ keys : List Bytes, keys.Pairwise (· < ·) ∧
      (∀ k, k ∈ keys ↔
        (∃ v, (k, v) ∈ succeeded (some start) calls) ∨ (start.valueAt k).isSome) ∧
      bencodeDictSize (setAll (some start) calls) = keys.length ∧
      (∀ i k, keys[i]? = some k → ∃ key v,
        bencodeDictAt (setAll (some start) calls) i = (.ok, some (key, v)) ∧
          key.isBad = false ∧ key.bytes = k ∧
          bencodeDictGet (setAll (some start) calls) key = .ok (some v)) ∧
      (∀ i, keys.length ≤ i →
        bencodeDictAt (setAll (some start) calls) i = (.errInvalidArg, none))) ∧
    (∀ (calls' : List SetCall) (bufs : Buffers),
      (∀ k, (setsOf (succeeded (some start) calls) k).map (Value.tree bufs) =
        (setsOf (succeeded (some start) calls') k).map (Value.tree bufs)) →
      ∀ (τ : Type) (emit : Option (Sink τ)) (user : τ),
        bencodeEmit bufs (setAll (some start) calls) emit user =
          bencodeEmit bufs (setAll (some start) calls') emit user) := by
  obtain ⟨h, s, rfl, sound⟩ := hstart.exists_dict
  obtain ⟨s₁, hrun, sound₁, hstored⟩ := setAll_run calls sound
  rw [hrun]
  refine ⟨fun key => ?_, ⟨storedKeys s₁.items, sound₁.sorted, fun k => ?_, ?_, ?_, ?_⟩, ?_⟩
  · rw [bencodeDictGet_eq sound₁, hstored]
    rfl
  · exact mem_storedKeys (hstored k)
  · rw [storedKeys, List.length_map]
    rfl
  · exact fun i k hk => bencodeDictAt_eq sound₁ hk
  · intro i hi
    rw [storedKeys, List.length_map] at hi
    rw [bencodeDictAt, List.getElem?_eq_none hi]
  · intro calls' bufs hsame τ emit user
    obtain ⟨s₂, hrun', sound₂, hstored'⟩ := setAll_run calls' sound
    rw [hrun']
    have htrees : entryTrees bufs s₁.items = entryTrees bufs s₂.items := by
      apply entryTrees_ext sound₁.sorted sound₂.sorted
      intro k
      rw [hstored, hstored', Option.map_or, Option.map_or, lastSet, lastSet,
        ← List.getLast?_map, ← List.getLast?_map, hsame]
    cases emit with
    | none => rfl
    | some emit =>
        rw [bencodeEmit, bencodeEmit, emitValue_eq, emitValue_eq, Value.tree, Value.tree]
        simp only [htrees]

/-- A new dict, with one key set twice. -/
theorem dict_run_twice :
    bencodeDictGet
        (setAll (some (.dict ⟨⟨.platform, 0, 40⟩, none⟩ ⟨none, 0, []⟩))
          [⟨.mem [97], some (.int ⟨⟨.platform, 1, 40⟩, none⟩ 1), .empty fun _ => false⟩,
            ⟨.mem [97], some (.int ⟨⟨.platform, 2, 40⟩, none⟩ 2), .empty fun _ => false⟩])
        (.mem [97]) =
      .ok (some (.int ⟨⟨.platform, 2, 40⟩, none⟩ 2)) :=
  (dict_run (.fresh (a := none) (m := .empty fun _ => false) rfl) _).1 (.mem [97])

end Bencode
