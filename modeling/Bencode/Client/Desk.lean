import Bencode.Client.Calls
import Bencode.Client.DictRuns
import Bencode.Emit.Pieces
import Bencode.Spec.Shelf

/-!
# A caller's desk

The calls of a shelf, carried out by the library: the handles are pointers to trees of nodes,
places are followed by the accessors, and a container is changed where it stands in its tree.
-/

namespace Bencode

open KeyedList

/-! ## Pointers -/

def access (v : Option Value) : Access → Except Fault (Option Value)
  | .listAt i => .ok (bencodeListAt v i)
  | .dictAt i => .ok ((bencodeDictAt v i).2.map Prod.snd)
  | .dictGet key => bencodeDictGet v key

def follow : Option Value → List Access → Except Fault (Option Value)
  | v, [] => .ok v
  | v, a :: path =>
      match access v a with
      | .error f => .error f
      | .ok w => follow w path

/-- A pointer and the trees of the caller's handles. -/
structure Desk where
  handles : List (Option Value)
  mem : Memory

namespace Desk

def pointer (s : Desk) (handle : Nat) : Option Value := s.handles[handle]?.join

def resolve (s : Desk) (p : Place) : Except Fault (Option Value) :=
  follow (s.pointer p.handle) p.path

def receive (s : Desk) : Status × Option Value × Memory → Reply × Desk
  | (st, out, m) => (.status st, ⟨s.handles ++ [out], m⟩)

def stored (s : Desk) (handle : Nat) (v out : Option Value) : List (Option Value) :=
  match s.pointer handle, v with
  | some root, some v => s.handles.set handle (some (Client.store root v.self out))
  | _, _ => s.handles

/-- After a child was offered to the container `v`: its handle is given up when the call has
succeeded. -/
def handOver (s : Desk) (handle : Nat) (v : Option Value) (child : Nat) :
    Status × Option Value × Memory → Reply × Desk
  | (st, out, m) =>
      (.status st,
        ⟨if st = .ok then (s.stored handle v out).set child none else s.stored handle v out, m⟩)

def readers (bufs : Buffers) (v : Option Value) : Facts :=
  ⟨bencodeValueType v, bencodeValueInt v, bencodeValueString bufs v, bencodeListSize v,
    bencodeDictSize v⟩

def readKey (v : Option Value) (i : Nat) : Reply :=
  .key (bencodeDictAt v i).1 ((bencodeDictAt v i).2.map (·.1.bytes))

def written (bufs : Buffers) (v : Option Value) : Reply :=
  let r := bencodeEmit bufs v (some (acceptingSink fun _ u => u)) ((), [])
  .written r.1 r.2.2

def act (bufs : Buffers) (s : Desk) : Command → Except Fault (Reply × Desk)
  | .intNew i a => .ok (s.receive (bencodeIntNew i a s.mem))
  | .stringNew bytes a => .ok (s.receive (bencodeStringNew bytes a s.mem))
  | .listNew a => .ok (s.receive (bencodeListNew a s.mem))
  | .dictNew a => .ok (s.receive (bencodeDictNew a s.mem))
  | .clone p a => (s.resolve p).map fun v => s.receive (bencodeValueClone bufs v a s.mem)
  | .parse input opts =>
      (bencodeParse bufs input opts s.mem).map fun r =>
        (.parsed r.status r.consumed, ⟨s.handles ++ [r.out], r.mem⟩)
  | .listAppend p child _ =>
      (s.resolve p).map fun v =>
        s.handOver p.handle v child (bencodeListAppend v (s.pointer child) s.mem)
  | .dictSet p key child _ =>
      (s.resolve p).map fun v =>
        s.handOver p.handle v child (bencodeDictSet v key (s.pointer child) s.mem)
  | .free handle =>
      .ok (.freed, ⟨s.handles.set handle none, bencodeValueFree (s.pointer handle) s.mem⟩)
  | .look p => (s.resolve p).map fun v => (.facts (readers bufs v), s)
  | .keyAt p i => (s.resolve p).map fun v => (readKey v i, s)
  | .emit p => (s.resolve p).map fun v => (written bufs v, s)

/-- One call as a labelled step: a request was refused to it when one more has been refused. -/
def Acts (bufs : Buffers) (s : Desk) (turn : Turn) (s' : Desk) : Prop :=
  s.act bufs turn.command = .ok (turn.reply, s') ∧
    turn.short = decide (s.mem.refused < s'.mem.refused)

end Desk

/-! ## What accessors hand out -/

theorem itemTrees_eq_map (bufs : Buffers) (vs : List Value) :
    itemTrees bufs vs = vs.map (Value.tree bufs) := by
  induction vs with
  | nil => rfl
  | cons v vs ih => rw [itemTrees, ih, List.map_cons]

theorem entryTrees_eq_map (bufs : Buffers) (es : List (Entry Value)) :
    entryTrees bufs es = es.map fun e => (e.key.bytes, e.value.tree bufs) := by
  induction es with
  | nil => rfl
  | cons e es ih =>
      obtain ⟨key, v⟩ := e
      rw [entryTrees, ih, List.map_cons]

theorem exists_split {α : Type} {xs : List α} {i : Nat} {x : α} (h : xs[i]? = some x) :
    ∃ front back, xs = front ++ x :: back ∧ front.length = i := by
  obtain ⟨hi, hx⟩ := List.getElem?_eq_some_iff.mp h
  refine ⟨xs.take i, xs.drop (i + 1), ?_, by rw [List.length_take]; omega⟩
  rw [← hx, ← List.drop_eq_getElem_cons hi, List.take_append_drop]

theorem modify_middle {α : Type} (front : List α) (x : α) (back : List α) (f : α → α) :
    (front ++ x :: back).modify front.length f = front ++ f x :: back :=
  List.modifyTailIdx_add (List.modifyHead f) 0 front (x :: back)

/-- What an accessor hands out below a node: the null pointer, or a node in a layer of it. -/
inductive Handed (bufs : Buffers) (v : Value) (a : Access) : Option Value → Prop
  | null (nothing : (v.tree bufs).child? a = none) : Handed bufs v a none
  | node {l : Layer} {w : Value} (fill : v = l.fill w)
      (child : (v.tree bufs).child? a = some (w.tree bufs))
      (around : ∀ w' : Value,
        (l.fill w').tree bufs = Tree.setChild (w'.tree bufs) (v.tree bufs) a) :
      Handed bufs v a (some w)

section Handed

variable {bufs : Buffers}

/-- Setting the key of an entry of a sorted dict stores the tree in that entry. -/
theorem setEntry_entryTrees {front back : List (Entry Value)} {key : KeyCopy} {w : Value}
    (sorted : (storedKeys (front ++ ⟨key, w⟩ :: back)).Pairwise (· < ·)) (t : Tree) :
    setEntry key.bytes t (entryTrees bufs (front ++ ⟨key, w⟩ :: back)) =
      entryTrees bufs front ++ (key.bytes, t) :: entryTrees bufs back := by
  have below : ∀ e ∈ entryTrees bufs front, Prod.fst e < Prod.fst (key.bytes, t) := by
    intro e he
    rw [entryTrees_eq_map, List.mem_map] at he
    obtain ⟨e, he, rfl⟩ := he
    rw [storedKeys, List.map_append, List.map_cons, List.pairwise_append] at sorted
    exact sorted.2.2 _ (List.mem_map_of_mem he) _ List.mem_cons_self
  rw [entryTrees_append, entryTrees, setEntry]
  exact @put_replaces _ _ _ Prod.fst _ _ _ (key.bytes, t) (key.bytes, w.tree bufs) below rfl _

theorem listAt_handed (hd : Header) (slots : Slots Value) (i : Nat) :
    Handed bufs (.list hd slots) (.listAt i) (bencodeListAt (some (.list hd slots)) i) := by
  obtain ⟨block, capacity, items⟩ := slots
  have hat : bencodeListAt (some (.list hd ⟨block, capacity, items⟩)) i = items[i]? := by
    rw [bencodeListAt]
    split
    · next hge => exact (List.getElem?_eq_none hge).symm
    · rfl
  have hchild : (Value.tree bufs (.list hd ⟨block, capacity, items⟩)).child? (.listAt i) =
      items[i]?.map (Value.tree bufs) := by
    rw [Value.tree, itemTrees_eq_map, Tree.child?, List.getElem?_map]
  rw [hat]
  cases h : items[i]? with
  | none =>
      rw [h] at hchild
      exact .null hchild
  | some w =>
      rw [h] at hchild
      obtain ⟨front, back, rfl, rfl⟩ := exists_split h
      refine .node (l := .list hd block capacity front back) rfl hchild ?_
      intro w'
      simp [Layer.fill, Value.tree, itemTrees_eq_map, Tree.setChild]

theorem dictAt_handed (hd : Header) (slots : Slots (Entry Value)) (i : Nat) :
    Handed bufs (.dict hd slots) (.dictAt i)
      ((bencodeDictAt (some (.dict hd slots)) i).2.map Prod.snd) := by
  obtain ⟨block, capacity, entries⟩ := slots
  have hat : (bencodeDictAt (some (.dict hd ⟨block, capacity, entries⟩)) i).2.map Prod.snd =
      entries[i]?.map (·.value) := by
    rw [bencodeDictAt]
    dsimp only
    cases entries[i]? <;> rfl
  have hchild : (Value.tree bufs (.dict hd ⟨block, capacity, entries⟩)).child? (.dictAt i) =
      entries[i]?.map (·.value.tree bufs) := by
    rw [Value.tree, entryTrees_eq_map, Tree.child?, List.getElem?_map, Option.map_map]
    rfl
  rw [hat]
  cases h : entries[i]? with
  | none =>
      rw [h] at hchild
      exact .null hchild
  | some e =>
      rw [h] at hchild
      obtain ⟨front, back, rfl, rfl⟩ := exists_split h
      obtain ⟨key, w⟩ := e
      refine .node (l := .dict hd block capacity front key back) rfl hchild ?_
      intro w'
      rw [Value.tree, entryTrees_append, entryTrees, Tree.setChild,
        ← length_entryTrees bufs front, modify_middle, Layer.fill, Value.tree,
        entryTrees_append, entryTrees]

/-- The key is found by its place in the order, so the dict has to be sorted. -/
theorem dictGet_handed {hd : Header} {slots : Slots (Entry Value)}
    (sound : (Value.dict hd slots).Sound) (key : Span) :
    ∃ out, bencodeDictGet (some (.dict hd slots)) key = .ok out ∧
      Handed bufs (.dict hd slots) (.dictGet key) out := by
  have hdict := (sound_dict_iff.mp sound).1
  refine ⟨_, bencodeDictGet_eq hdict key, ?_⟩
  obtain ⟨block, capacity, entries⟩ := slots
  by_cases hbad : key.isBad = true
  · rw [if_pos hbad]
    refine .null ?_
    rw [Value.tree, Tree.child?, if_pos hbad]
  · have hchild : (Value.tree bufs (.dict hd ⟨block, capacity, entries⟩)).child?
        (.dictGet key) = (storedValue entries key.bytes).map (Value.tree bufs) := by
      rw [Value.tree, Tree.child?, if_neg hbad, lookup_entryTrees, Option.map_map]
      rfl
    rw [if_neg hbad]
    cases h : storedValue entries key.bytes with
    | none =>
        rw [h] at hchild
        exact .null hchild
    | some w =>
        rw [h] at hchild
        obtain ⟨e, hlookup, rfl⟩ := Option.map_eq_some_iff.mp h
        obtain ⟨hmem, hkey⟩ := lookup_key hlookup
        obtain ⟨front, back, rfl⟩ := List.append_of_mem hmem
        obtain ⟨copy, w⟩ := e
        refine .node (l := .dict hd block capacity front copy back) rfl hchild ?_
        intro w'
        have hkey : copy.bytes = key.bytes := hkey
        rw [Value.tree, Tree.setChild, ← hkey, setEntry_entryTrees hdict.sorted,
          Layer.fill, Value.tree, entryTrees_append, entryTrees]

theorem access_handed {v : Value} (sound : v.Sound) (a : Access) :
    ∃ out, access (some v) a = .ok out ∧ Handed bufs v a out := by
  cases a with
  | listAt i =>
      refine ⟨_, rfl, ?_⟩
      cases v with
      | list hd slots => exact listAt_handed hd slots i
      | int => exact .null rfl
      | string => exact .null rfl
      | dict => exact .null rfl
  | dictAt i =>
      refine ⟨_, rfl, ?_⟩
      cases v with
      | dict hd slots => exact dictAt_handed hd slots i
      | int => exact .null rfl
      | string => exact .null rfl
      | list => exact .null rfl
  | dictGet key =>
      cases v with
      | dict hd slots => exact dictGet_handed sound key
      | int => exact ⟨none, rfl, .null rfl⟩
      | string => exact ⟨none, rfl, .null rfl⟩
      | list => exact ⟨none, rfl, .null rfl⟩

theorem access_none (a : Access) : access none a = .ok none := by
  cases a <;> rfl

inductive Reached (bufs : Buffers) (v : Value) (path : List Access) : Option Value → Prop
  | null (nothing : (v.tree bufs).at? path = none) : Reached bufs v path none
  | node {ls : List Layer} {w : Value} (plugged : v = plug ls w)
      (here : (v.tree bufs).at? path = some (w.tree bufs))
      (around : ∀ w' : Value,
        (plug ls w').tree bufs = Tree.put (w'.tree bufs) (v.tree bufs) path) :
      Reached bufs v path (some w)

theorem follow_none (path : List Access) : follow none path = .ok none := by
  induction path with
  | nil => rfl
  | cons a path ih =>
      rw [follow, access_none]
      exact ih

theorem follow_reached {v : Value} (sound : v.Sound) (path : List Access) :
    ∃ out, follow (some v) path = .ok out ∧ Reached bufs v path out := by
  induction path generalizing v with
  | nil =>
      have hplug : v = plug [] v := rfl
      exact ⟨some v, rfl, .node hplug rfl fun _ => rfl⟩
  | cons a path ih =>
      obtain ⟨out, haccess, handed⟩ := @access_handed bufs v sound a
      cases handed with
      | null nothing =>
          refine ⟨none, ?_, .null ?_⟩
          · rw [follow, haccess]
            exact follow_none path
          · rw [Tree.at?, nothing]
      | @node l w fill child around =>
          have hinner : w.Sound := Layer.sound_inner (fill ▸ sound)
          obtain ⟨out, hfollow, hreached⟩ := ih hinner
          refine ⟨out, ?_, ?_⟩
          · rw [follow, haccess]
            exact hfollow
          · cases hreached with
            | null nothing =>
                refine .null ?_
                rw [Tree.at?, child]
                exact nothing
            | @node ls x plugged here inside =>
                have hplug : v = plug (ls ++ [l]) x := by
                  rw [fill, plugged, plug_append]
                  rfl
                refine .node hplug ?_ fun w' => ?_
                · rw [Tree.at?, child]
                  exact here
                · rw [plug_append, Tree.put, child]
                  dsimp only
                  rw [← inside]
                  exact around _

end Handed

end Bencode
