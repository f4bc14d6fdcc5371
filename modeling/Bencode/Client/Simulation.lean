import Bencode.Client.Desk
import Bencode.Sax.Position
import Mathlib.Tactic.Abel

/-!
# The library refines the shelf

A call on a desk is answered as the shelf answers it, whatever its allocator is and whichever
requests are refused: memory shows in the calls that fail for it, and nowhere else.
-/

namespace Bencode

/-! ## The trees of a desk -/

namespace Desk

def trees (bufs : Buffers) (s : Desk) : Shelf := s.handles.map (Option.map (Value.tree bufs))

def roots : List (Option Value) → Multiset Value
  | [] => 0
  | o :: hs => (o.toList : Multiset Value) + roots hs

def client (s : Desk) : Client := ⟨roots s.handles, s.mem⟩

theorem roots_append (hs : List (Option Value)) (o : Option Value) :
    roots (hs ++ [o]) = (o.toList : Multiset Value) + roots hs := by
  induction hs with
  | nil => rfl
  | cons x hs ih =>
      rw [List.cons_append, roots, ih, roots]
      abel

theorem roots_set {hs : List (Option Value)} {i : Nat} (hi : i < hs.length) (o : Option Value) :
    roots (hs.set i o) = (o.toList : Multiset Value) + roots (hs.set i none) := by
  induction hs generalizing i with
  | nil => exact absurd hi (Nat.not_lt_zero i)
  | cons x hs ih =>
      cases i with
      | zero => simp [roots]
      | succ i =>
          rw [List.set_cons_succ, List.set_cons_succ, roots, roots,
            ih (Nat.lt_of_succ_lt_succ hi)]
          abel

variable {s : Desk} {bufs : Buffers} {i j : Nat} {v w : Value}

theorem pointer_eq_some : s.pointer i = some v ↔ s.handles[i]? = some (some v) := by
  rw [pointer, Option.join_eq_some_iff]

theorem pointer_lt (h : s.pointer i = some v) : i < s.handles.length :=
  (List.getElem?_eq_some_iff.mp (pointer_eq_some.mp h)).1

theorem roots_pointer {hs : List (Option Value)} (h : hs[i]? = some (some v)) :
    roots hs = v ::ₘ roots (hs.set i none) := by
  obtain ⟨hi, hv⟩ := List.getElem?_eq_some_iff.mp h
  have hset := roots_set hi (some v)
  rw [← hv, List.set_getElem_self, hv] at hset
  exact hset

theorem tree?_trees (s : Desk) (bufs : Buffers) (i : Nat) :
    (s.trees bufs).tree? i = (s.pointer i).map (Value.tree bufs) := by
  rw [Shelf.tree?, trees, List.getElem?_map, pointer]
  cases s.handles[i]? with
  | none => rfl
  | some o => cases o <;> rfl

theorem receive_client (s : Desk) (r : Status × Option Value × Memory) :
    (s.receive r).2.client = Client.receive s.client.roots r := by
  obtain ⟨st, out, m⟩ := r
  cases out with
  | none => simp [receive, client, Client.receive, roots_append]
  | some v => simp [receive, client, Client.receive, roots_append]

theorem handOver_client (hroot : s.pointer i = some v) (hchild : s.pointer j = some w)
    (apart : j ≠ i) (node : Value) :
    ∃ rest, s.client = ⟨w ::ₘ v ::ₘ rest, s.mem⟩ ∧
      ∀ r, (s.handOver i (some node) j r).2.client = Client.handOver w v rest node.self r := by
  have hi := pointer_lt hroot
  have hj := pointer_eq_some.mp hchild
  have hrest : roots (s.handles.set i none) =
      w ::ₘ roots ((s.handles.set i none).set j none) := by
    apply roots_pointer
    rwa [List.getElem?_set_ne apart.symm]
  refine ⟨roots ((s.handles.set i none).set j none), ?_, ?_⟩
  · rw [client, roots_pointer (pointer_eq_some.mp hroot), hrest, Multiset.cons_swap]
  · rintro ⟨st, out, m⟩
    have hstored : s.stored i (some node) out =
        s.handles.set i (some (Client.store v node.self out)) := by
      simp only [stored, hroot]
    have htaken : roots ((s.handles.set i (some (Client.store v node.self out))).set j none) =
        Client.store v node.self out ::ₘ roots ((s.handles.set i none).set j none) := by
      have hi' : i < (s.handles.set j none).length := by simpa using hi
      rw [List.set_comm (some (Client.store v node.self out)) none apart.symm, roots_set hi',
        List.set_comm none none apart]
      rfl
    rw [handOver, hstored, Client.handOver]
    by_cases hok : st = .ok
    · rw [if_pos hok, if_pos hok, client, htaken]
    · rw [if_neg hok, if_neg hok, client, roots_set hi, hrest, Multiset.cons_swap]
      rfl

end Desk

/-! ## Places on a desk -/

section Places

open Desk

variable {s : Desk} {bufs : Buffers} {m : Memory} {p : Place}

inductive Resolved (bufs : Buffers) (s : Desk) (p : Place) : Option Value → Prop
  | null (nothing : (s.trees bufs).at? p = none) : Resolved bufs s p none
  | node {root v : Value} {ls : List Layer} (handle : s.pointer p.handle = some root)
      (plugged : root = plug ls v) (here : (s.trees bufs).at? p = some (v.tree bufs))
      (around : ∀ w : Value, (s.trees bufs).put p (w.tree bufs) =
        (s.trees bufs).set p.handle (some ((plug ls w).tree bufs))) :
      Resolved bufs s p (some v)

theorem mem_roots {i : Nat} {v : Value} (h : s.pointer i = some v) : v ∈ s.client.roots := by
  rw [client, roots_pointer (pointer_eq_some.mp h)]
  exact Multiset.mem_cons_self v _

theorem resolve_resolved (h : Consistent m s.client) (p : Place) :
    ∃ out, s.resolve p = .ok out ∧ Resolved bufs s p out := by
  have htree := s.tree?_trees bufs p.handle
  rw [resolve]
  cases hroot : s.pointer p.handle with
  | none =>
      rw [hroot] at htree
      refine ⟨none, follow_none p.path, .null ?_⟩
      rw [Shelf.at?, htree]
      rfl
  | some root =>
      rw [hroot] at htree
      obtain ⟨out, hfollow, hreached⟩ :=
        @follow_reached bufs root (h.sound root (mem_roots hroot)) p.path
      refine ⟨out, hfollow, ?_⟩
      cases hreached with
      | null nothing =>
          refine .null ?_
          rw [Shelf.at?, htree]
          exact nothing
      | node plugged here around =>
          refine .node hroot plugged ?_ ?_
          · rw [Shelf.at?, htree]
            exact here
          · intro w
            rw [Shelf.put, htree, around]
            rfl

/-- A node that a place leads to can be pointed at, and storing another one through the pointer
changes the tree at the place. -/
theorem Resolved.stored {v : Value} (h : Resolved bufs s p (some v))
    (consistent : Consistent m s.client) :
    ∃ root, s.pointer p.handle = some root ∧ root.find? v.self = some v ∧
      s.stored p.handle (some v) (some v) = s.handles ∧
      ∀ new : Value, (s.stored p.handle (some v) (some new)).map (Option.map (Value.tree bufs)) =
        (s.trees bufs).put p (new.tree bufs) := by
  cases h with
  | @node root _ ls handle plugged here around =>
      have hnodup : (plug ls v).blocks.Nodup :=
        plugged ▸ consistent.root_nodup (mem_roots handle)
      have hpath := not_mem_path hnodup v.self_mem_blocks
      have hstore : ∀ new, Client.store root v.self (some new) = plug ls new := by
        intro new
        rw [Client.store, plugged, replace_plug hpath, Value.replace_self]
      have hstored : ∀ new, s.stored p.handle (some v) (some new) =
          s.handles.set p.handle (some (plug ls new)) := by
        intro new
        simp only [Desk.stored, handle, hstore]
      refine ⟨root, handle, ?_, ?_, ?_⟩
      · rw [plugged, find?_plug hpath, Value.find?_self]
      · obtain ⟨hi, hat⟩ := List.getElem?_eq_some_iff.mp (pointer_eq_some.mp handle)
        rw [hstored, ← plugged, ← hat, List.set_getElem_self]
      · intro new
        rw [hstored, List.map_set, around]
        rfl

theorem Resolved.holds {v : Value} (h : Resolved bufs s p (some v))
    (consistent : Consistent m s.client) : s.client.Holds v := by
  obtain ⟨root, hroot, hfound, -⟩ := h.stored consistent
  exact ⟨root, mem_roots hroot, hfound⟩

end Places

/-! ## Calls that return a tree -/

section Makes

variable {s : Desk} {bufs : Buffers} {a : AllocRef} {m : Memory} {t : Tree}
  {r : Status × Option Value × Memory}

theorem allocatorCheck_bad (bad : bencodeAllocatorCheck a ≠ .ok) :
    bencodeAllocatorCheck a = .errInvalidArg := by
  cases a with
  | none => exact absurd rfl bad
  | some a =>
      rw [bencodeAllocatorCheck] at bad ⊢
      split
      · rfl
      · next hgood => exact absurd (if_neg hgood) bad

inductive Creates (bufs : Buffers) (a : AllocRef) (t : Tree) (m : Memory) :
    Status × Option Value × Memory → Prop
  | unchecked (bad : bencodeAllocatorCheck a ≠ .ok) :
      Creates bufs a t m (.errInvalidArg, none, m)
  | built {v : Value} {m' : Memory} (checked : bencodeAllocatorCheck a = .ok)
      (tree : v.tree bufs = t) (granted : m'.refused = m.refused) :
      Creates bufs a t m (.ok, some v, m')
  | nomem {m' : Memory} (checked : bencodeAllocatorCheck a = .ok)
      (refused : m.refused < m'.refused) : Creates bufs a t m (.errNomem, none, m')

theorem Built.creates {P : Value → Prop} (h : Built a P m r)
    (checked : bencodeAllocatorCheck a = .ok) (content : ∀ v, P v → v.tree bufs = t) :
    Creates bufs a t m r := by
  cases h with
  | ok sound intended alloc blocks granted => exact .built checked (content _ intended) granted
  | nomem blocks refused => exact .nomem checked refused

theorem bencodeIntNew_creates (bufs : Buffers) (i : Int64) (a : AllocRef) (m : Memory) :
    Creates bufs a (.int i) m (bencodeIntNew i a m) := by
  by_cases checked : bencodeAllocatorCheck a = .ok
  · apply (bencodeIntNew_built checked m i).creates checked
    rintro v ⟨h, rfl⟩
    rfl
  · rw [bencodeIntNew, allocatorCheck_bad checked]
    exact .unchecked checked

theorem bencodeStringNew_creates (bufs : Buffers) {bytes : Span} (valid : bytes.isBad = false)
    (a : AllocRef) (m : Memory) :
    Creates bufs a (.string bytes.bytes) m (bencodeStringNew bytes a m) := by
  by_cases checked : bencodeAllocatorCheck a = .ok
  · apply (bencodeStringNew_built checked m valid).creates checked
    rintro v ⟨h, str, rfl, hread⟩
    exact congrArg Tree.string (hread bufs)
  · rw [bencodeStringNew, valid, if_neg Bool.false_ne_true,
      allocatorCheck_bad checked]
    exact .unchecked checked

theorem bencodeListNew_creates (bufs : Buffers) (a : AllocRef) (m : Memory) :
    Creates bufs a (.list []) m (bencodeListNew a m) := by
  by_cases checked : bencodeAllocatorCheck a = .ok
  · apply (bencodeListNew_built checked m).creates checked
    rintro v ⟨h, rfl⟩
    rfl
  · rw [bencodeListNew, allocatorCheck_bad checked]
    exact .unchecked checked

theorem bencodeDictNew_creates (bufs : Buffers) (a : AllocRef) (m : Memory) :
    Creates bufs a (.dict []) m (bencodeDictNew a m) := by
  by_cases checked : bencodeAllocatorCheck a = .ok
  · apply (bencodeDictNew_built checked m).creates checked
    rintro v ⟨h, rfl⟩
    rfl
  · rw [bencodeDictNew, allocatorCheck_bad checked]
    exact .unchecked checked

theorem bencodeValueClone_creates {v : Value} (canonical : (v.tree bufs).Canonical)
    (a : AllocRef) (m : Memory) :
    Creates bufs a (v.tree bufs) m (bencodeValueClone bufs (some v) a m) := by
  by_cases checked : bencodeAllocatorCheck a = .ok
  · simp only [bencodeValueClone, checked]
    apply (valueClone_built checked v m).creates checked
    exact fun v' hclone => hclone canonical bufs
  · rw [bencodeValueClone, allocatorCheck_bad checked]
    exact .unchecked checked

theorem Desk.receive_trees (s : Desk) (r : Status × Option Value × Memory) :
    (s.receive r).2.trees bufs = s.trees bufs ++ [r.2.1.map (Value.tree bufs)] := by
  simp [receive, trees]

theorem rejected_acts {c : Command} {st : Status}
    (makes : (s.trees bufs).makes c = some (st, none)) :
    (s.trees bufs).Acts bufs ⟨c, (s.receive (st, none, s.mem)).1,
      decide (s.mem.refused < (s.receive (st, none, s.mem)).2.mem.refused)⟩
      ((s.receive (st, none, s.mem)).2.trees bufs) := by
  rw [Desk.receive_trees]
  simp only [Desk.receive, Nat.lt_irrefl, decide_false, Option.map_none]
  exact .made makes

theorem Creates.acts {c : Command} (h : Creates bufs a t s.mem r)
    (makes : (s.trees bufs).makes c = some (checkedBy a (some t))) :
    (s.trees bufs).Acts bufs ⟨c, (s.receive r).1,
      decide (s.mem.refused < (s.receive r).2.mem.refused)⟩ ((s.receive r).2.trees bufs) := by
  rw [checkedBy] at makes
  cases h with
  | unchecked bad =>
      rw [if_neg bad, allocatorCheck_bad bad] at makes
      exact rejected_acts makes
  | built checked tree granted =>
      rw [if_pos checked] at makes
      rw [Desk.receive_trees]
      simp only [Desk.receive, granted, Nat.lt_irrefl, decide_false, Option.map_some, tree]
      exact .made makes
  | nomem checked refused =>
      rw [if_pos checked] at makes
      rw [Desk.receive_trees]
      simp only [Desk.receive, refused, decide_true]
      exact .unmade makes

end Makes

/-! ## Calls that take a tree -/

section Takes

open KeyedList

variable {s : Desk} {bufs : Buffers} {m : Memory} {p : Place} {child : Nat} {c : Command}

theorem mem_entryTrees {es : List (Entry Value)} {e : Bytes × Tree}
    (h : e ∈ entryTrees bufs es) : e.1 ∈ storedKeys es := by
  rw [entryTrees_eq_map, List.mem_map] at h
  obtain ⟨e, he, rfl⟩ := h
  exact List.mem_map_of_mem he

theorem WasSet.tree {h : Header} {slots : Slots (Entry Value)} {k : Bytes} {w new : Value}
    {m' : Memory} (run : WasSet h slots k w m .ok (some new) m')
    (sorted : (storedKeys slots.items).Pairwise (· < ·)) :
    new.tree bufs = .dict (setEntry k (w.tree bufs) (entryTrees bufs slots.items)) := by
  cases run with
  | @replaced i e at_ eq =>
      obtain ⟨block, capacity, entries⟩ := slots
      obtain ⟨front, back, rfl, -, hset⟩ := entries_split at_
      obtain ⟨key, old⟩ := e
      have hkey : key.bytes = k := eq
      dsimp only
      rw [hset, ← hkey, setEntry_entryTrees sorted, Value.tree, entryTrees_append, entryTrees]
  | @inserted i copy s' m' le below above key copied items sound blocks =>
      obtain ⟨block, capacity, entries⟩ := slots
      obtain ⟨block', capacity', entries'⟩ := s'
      have hitems : entries' = entries.take i ++ ⟨copy, w⟩ :: entries.drop i := items
      have hsplit : entryTrees bufs entries =
          entryTrees bufs (entries.take i) ++ entryTrees bufs (entries.drop i) := by
        rw [← entryTrees_append, List.take_append_drop]
      have hbelow : ∀ e ∈ entryTrees bufs (entries.take i), e.1 < (k, w.tree bufs).1 := by
        intro e he
        apply below
        rw [storedKeys, ← List.map_take]
        exact mem_entryTrees he
      have habove : ∀ e ∈ entryTrees bufs (entries.drop i), (k, w.tree bufs).1 < e.1 := by
        intro e he
        apply above
        rw [storedKeys, ← List.map_drop]
        exact mem_entryTrees he
      have hput := @put_inserts _ _ _ Prod.fst _ _ _ _ (k, w.tree bufs) hbelow habove
      dsimp only
      rw [setEntry, hsplit, hput, hitems, Value.tree, entryTrees_append, entryTrees, key]

/-- What a call does at the desk, the shelf does too, and the client has made one call at most. -/
structure Mirrors (bufs : Buffers) (s : Desk) (c : Command) (r : Reply × Desk) : Prop where
  client : s.client = r.2.client ∨ ClientStep s.client r.2.client
  refused : s.mem.refused ≤ r.2.mem.refused
  acts : (s.trees bufs).Acts bufs ⟨c, r.1, decide (s.mem.refused < r.2.mem.refused)⟩
    (r.2.trees bufs)

theorem declined_mirrors {v : Option Value} (same : s.stored p.handle v v = s.handles)
    (takes : (s.trees bufs).takes c = some (.errInvalidArg, s.trees bufs)) :
    Mirrors bufs s c (s.handOver p.handle v child (.errInvalidArg, v, s.mem)) := by
  have hbad : ¬ Status.errInvalidArg = .ok := by decide
  refine ⟨.inl ?_, Nat.le_refl _, ?_⟩
  · simp only [Desk.handOver, same, if_neg hbad]
  · simp only [Desk.handOver, same, if_neg hbad, Nat.lt_irrefl, decide_false]
    exact .taken takes

/-- What the shelf and the container say when a child is offered. -/
inductive Offering (bufs : Buffers) (s : Desk) (p : Place) (child : Nat) (c : Command)
    (v w : Value) : Status × Option Value × Memory → Prop
  | rejected (takes : (s.trees bufs).takes c = some (.errInvalidArg, s.trees bufs)) :
      Offering bufs s p child c v w (.errInvalidArg, some v, s.mem)
  | attached {made : Value → Prop} {t : Tree} {st : Status} {out : Option Value} {m' : Memory}
      (call : Attached v w made s.mem st out m')
      (tree : ∀ new, st = .ok → out = some new → new.tree bufs = t)
      (takes : (s.trees bufs).takes c =
        some (.ok, ((s.trees bufs).put p t).set child none)) :
      Offering bufs s p child c v w (st, out, m')

theorem Offering.refused {v w : Value} {r : Status × Option Value × Memory}
    (h : Offering bufs s p child c v w r) : s.mem.refused ≤ r.2.2.refused := by
  cases h with
  | rejected => exact Nat.le_refl _
  | attached call =>
      cases call with
      | ok sound header content blocks granted => exact Nat.le_of_eq granted.symm
      | nomem blocks refused => exact Nat.le_of_lt refused

theorem Offering.acts {v w : Value} {r : Status × Option Value × Memory}
    (h : Offering bufs s p child c v w r) (consistent : Consistent m s.client)
    (resolved : Resolved bufs s p (some v)) :
    (s.trees bufs).Acts bufs ⟨c, (s.handOver p.handle (some v) child r).1,
      decide (s.mem.refused < (s.handOver p.handle (some v) child r).2.mem.refused)⟩
      ((s.handOver p.handle (some v) child r).2.trees bufs) := by
  obtain ⟨root, -, -, hsame, hput⟩ := resolved.stored consistent
  cases h with
  | rejected takes => exact (declined_mirrors hsame takes).acts
  | attached call tree takes =>
      cases call with
      | @ok new m' sound header content blocks granted =>
          have htree := hput new
          rw [tree new rfl rfl] at htree
          simp only [Desk.handOver, granted, Nat.lt_irrefl, decide_false, if_true, Desk.trees,
            List.map_set, Option.map_none, htree]
          exact .taken takes
      | nomem blocks refused =>
          have hbad : ¬ Status.errNomem = .ok := by decide
          simp only [Desk.handOver, hsame, if_neg hbad, refused, decide_true]
          exact .untaken takes

theorem offer_mirrors {call : Option Value → Option Value → Memory → Status × Option Value × Memory}
    (consistent : Consistent m s.client) (apart : child ≠ p.handle) {out : Option Value}
    (resolved : Resolved bufs s p out)
    (null : ∀ {v w : Option Value}, v = none ∨ w = none →
      call v w s.mem = (.errInvalidArg, v, s.mem))
    (nothing : (s.trees bufs).at? p = none ∨ (s.trees bufs).tree? child = none →
      (s.trees bufs).takes c = some (.errInvalidArg, s.trees bufs))
    (calls : ∀ {root v w : Value} (rest : Multiset Value), root.find? v.self = some v →
      ClientStep ⟨w ::ₘ root ::ₘ rest, s.mem⟩
        (Client.handOver w root rest v.self (call (some v) (some w) s.mem)))
    (offering : ∀ {v w : Value}, v.Sound → w.Sound → v.blocks ≤ s.mem.live →
      (s.trees bufs).at? p = some (v.tree bufs) →
      (s.trees bufs).tree? child = some (w.tree bufs) →
      Offering bufs s p child c v w (call (some v) (some w) s.mem)) :
    Mirrors bufs s c (s.handOver p.handle out child (call out (s.pointer child) s.mem)) := by
  have htree := s.tree?_trees bufs child
  have hkept : out = none ∨ s.pointer child = none → s.stored p.handle out out = s.handles →
      Mirrors bufs s c (s.handOver p.handle out child (call out (s.pointer child) s.mem)) := by
    intro hnull hsame
    have htakes := nothing (by
      rcases hnull with rfl | hchild
      · cases resolved with
        | null nothing => exact .inl nothing
      · rw [hchild] at htree
        exact .inr htree)
    rw [null hnull]
    exact declined_mirrors hsame htakes
  cases resolved with
  | null nowhere =>
      apply hkept (.inl rfl)
      unfold Desk.stored
      split
      · contradiction
      · rfl
  | @node root v ls handle plugged here around =>
      have hresolved : Resolved bufs s p (some v) := .node handle plugged here around
      obtain ⟨root', hroot, hfound, hsame, -⟩ := hresolved.stored consistent
      cases hchild : s.pointer child with
      | none =>
          rw [hchild] at hkept
          exact hkept (.inr rfl) hsame
      | some w =>
          rw [hchild] at htree
          obtain ⟨rest, hclient, hafter⟩ := Desk.handOver_client hroot hchild apart v
          have hsplit := consistent
          rw [hclient] at hsplit
          obtain ⟨hw, hv, hlive⟩ := hsplit.split hfound
          have hoffer := offering hv hw ((Multiset.le_add_right _ _).trans hlive) here htree
          refine ⟨.inr ?_, hoffer.refused, hoffer.acts consistent hresolved⟩
          rw [hclient, hafter]
          exact calls rest hfound

end Takes

end Bencode
