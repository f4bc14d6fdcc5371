import Bencode.Client.Encoding
import Bencode.Value.CloneSets
import Bencode.Value.Reports

/-!
# Borrowed and copied bytes

A parsed tree borrows the bytes of its string values from the input, and nothing else:
whatever is written over the input, all other answers stay. A clone borrows nothing:
it answers for ever what its source answered when it was made.
-/

namespace Bencode

/-! ## Overwriting the input -/

mutual

/-- The tree with the bytes of its string values blanked. -/
def Tree.blanked : Tree → Tree
  | .int i => .int i
  | .string bytes => .string (List.replicate bytes.length 0)
  | .list items => .list (blankedItems items)
  | .dict entries => .dict (blankedEntries entries)

def blankedItems : List Tree → List Tree
  | [] => []
  | t :: ts => t.blanked :: blankedItems ts

def blankedEntries : List (Bytes × Tree) → List (Bytes × Tree)
  | [] => []
  | (k, t) :: es => (k, t.blanked) :: blankedEntries es

end

section Overwrite

variable {bufs bufs' : Buffers}

/-- The payload of a string node is read with the same length from both buffers. -/
def Visit.KeepsLength (bufs bufs' : Buffers) : Visit → Prop
  | .string str => (str.read bufs').length = (str.read bufs).length
  | _ => True

mutual

theorem Value.blanked_tree (v : Value) (h : ∀ x ∈ v.visits, x.KeepsLength bufs bufs') :
    (v.tree bufs').blanked = (v.tree bufs).blanked := by
  cases v with
  | int hd i => rfl
  | string hd str =>
      have hlen : (str.read bufs').length = (str.read bufs).length :=
        h (.string str) List.mem_cons_self
      rw [Value.tree, Value.tree, Tree.blanked, Tree.blanked, hlen]
  | list hd slots =>
      obtain ⟨block, capacity, items⟩ := slots
      rw [Value.tree, Value.tree, Tree.blanked, Tree.blanked, blankedItems_tree items]
      intro x hx
      exact h x (List.mem_cons_of_mem _ (List.mem_append_left _ hx))
  | dict hd slots =>
      obtain ⟨block, capacity, entries⟩ := slots
      rw [Value.tree, Value.tree, Tree.blanked, Tree.blanked, blankedEntries_tree entries]
      intro x hx
      exact h x (List.mem_cons_of_mem _ (List.mem_append_left _ hx))

theorem blankedItems_tree (vs : List Value) (h : ∀ x ∈ itemsVisits vs, x.KeepsLength bufs bufs') :
    blankedItems (itemTrees bufs' vs) = blankedItems (itemTrees bufs vs) := by
  cases vs with
  | nil => rfl
  | cons v vs =>
      rw [itemsVisits, List.forall_mem_append] at h
      rw [itemTrees, itemTrees, blankedItems, blankedItems, v.blanked_tree h.1,
        blankedItems_tree vs h.2]

theorem blankedEntries_tree (es : List (Entry Value))
    (h : ∀ x ∈ entriesVisits es, x.KeepsLength bufs bufs') :
    blankedEntries (entryTrees bufs' es) = blankedEntries (entryTrees bufs es) := by
  cases es with
  | nil => rfl
  | cons e es =>
      obtain ⟨key, v⟩ := e
      rw [entriesVisits, List.forall_mem_cons, List.forall_mem_append] at h
      rw [entryTrees, entryTrees, blankedEntries, blankedEntries, v.blanked_tree h.2.1,
        blankedEntries_tree es h.2.2]

end

/-- A string that the parser met lies inside the buffer, so it keeps its length there. -/
theorem Visit.Tells.keepsLength {base : Nat} {x : Visit} {e : Event} (h : x.Tells bufs base e)
    (same : (bufs' base).length = (bufs base).length) : x.KeepsLength bufs bufs' := by
  cases x with
  | string str =>
      cases e with
      | string off bytes =>
          obtain ⟨rfl, hread⟩ := h
          rw [KeepsLength, hread]
          unfold parsedPayload at hread ⊢
          by_cases hzero : bytes.length = 0
          · rw [if_pos hzero, hzero]
            rfl
          · rw [if_neg hzero] at hread ⊢
            have hlen := congrArg List.length hread
            rw [Payload.read, List.length_take, List.length_drop] at hlen ⊢
            rw [same]
            exact hlen
      | int => exact False.elim h
      | listBegin => exact False.elim h
      | listEnd => exact False.elim h
      | dictBegin => exact False.elim h
      | dictEnd => exact False.elim h
  | int => trivial
  | key => trivial
  | listBegin => trivial
  | listEnd => trivial
  | dictBegin => trivial
  | dictEnd => trivial

theorem Parsed.overwritten {base limit : Nat} {trailing : Bool} {w : Bytes} {m : Memory}
    {r : ParseResult} {v : Value} (h : Parsed bufs base limit trailing w m r) (out : r.out = some v)
    (same : (bufs' base).length = (bufs base).length) :
    v.Sound ∧ (v.tree bufs').blanked = (v.tree bufs).blanked := by
  cases h with
  | accepted scan text whole sound told blocks granted =>
      cases out
      refine ⟨sound, v.blanked_tree ?_⟩
      have hkeeps : List.Forall₂ (fun x _ => x.KeepsLength bufs bufs' ∧ True) v.visits _ :=
        told.imp fun x e hx => ⟨hx.keepsLength same, trivial⟩
      exact ((List.forall₂_and_left _ _).mp hkeeps).1
  | trailing => cases out
  | rejected => cases out
  | nomem => cases out

end Overwrite

/-! ## The discipline -/

/-- Whatever is written over the input of an accepted parse, the accessors go on to report a tree
that differs in the bytes of string values only. A clone that was refused no memory reports and is
written as what its source was at the time of the call, whatever the buffers hold later, and each
of its sets appends. -/
theorem borrowed_and_cloned :
    (∀ (bufs : Buffers) (base : Nat) (opts : Option ParseOptions) (m : Memory) (r : ParseResult)
        (v : Value), bencodeParse bufs (.buffer base) opts m = .ok r → r.out = some v →
      ∀ bufs' : Buffers, (bufs' base).length = (bufs base).length →
        Reports bufs (v.tree bufs) v ∧ Reports bufs' (v.tree bufs') v ∧
          (v.tree bufs').blanked = (v.tree bufs).blanked) ∧
    (∀ (n : Memory) (c : Client) (v : Value), Reachable n c → c.Holds v →
      ∀ (bufs : Buffers) (a : AllocRef), bencodeAllocatorCheck a = .ok → ∀ m : Memory,
        loggedClone bufs v a m [] = (valueClone bufs v a m, cloneSets bufs v a m) ∧
        (∀ call ∈ cloneSets bufs v a m, SetsAtEnd call) ∧
        ∀ st out m', bencodeValueClone bufs (some v) a m = (st, out, m') → m'.refused = m.refused →
          ∃ w text, st = .ok ∧ out = some w ∧ Reports bufs (v.tree bufs) v ∧ Writes bufs v text ∧
            ∀ bufs', Reports bufs' (v.tree bufs) w ∧ Writes bufs' w text) := by
  constructor
  · intro bufs base opts m r v run out bufs' same
    by_cases checked : bencodeAllocatorCheck (opts.getD .default).allocator = .ok
    · obtain ⟨r', hrun, hparsed⟩ := bencodeParse_parsed bufs base opts checked m
      cases run.symm.trans hrun
      obtain ⟨sound, hblank⟩ := hparsed.overwritten out same
      exact ⟨sound.reports bufs v, sound.reports bufs' v, hblank⟩
    · cases run.symm.trans (bencodeParse_unchecked checked)
      cases out
  · intro n c v hc hv bufs a checked m
    have sound := hc.consistent.sound_of_holds hv
    have canonical := sound.canonical bufs v
    refine ⟨loggedClone_eq checked v m [], cloneSets_atEnd checked v m canonical, ?_⟩
    intro st out m' run granted
    have hbuilt : Built a (CloneOf bufs v) m (valueClone bufs v a m) :=
      valueClone_built checked v m
    rw [bencodeValueClone, checked] at run
    dsimp only at run
    rw [run] at hbuilt
    cases hbuilt with
    | nomem blocks refused => exact absurd granted (Nat.ne_of_gt refused)
    | @ok w m' soundw clone alloc blocks granted =>
        refine ⟨w, _, rfl, rfl, sound.reports bufs v, sound.writes bufs, ?_⟩
        intro bufs'
        rw [← clone canonical bufs']
        exact ⟨soundw.reports bufs' w, soundw.writes bufs'⟩

/-- The input `1:a` overwritten with `1:b`, after its tree was cloned. -/
theorem borrowed_and_cloned_string :
    Reports (fun _ => [49, 58, 98]) (.string [98])
        (.string ⟨⟨.platform, 0, 40⟩, none⟩ (.borrowed ⟨0, 2⟩ 1)) ∧
      ∃ w, (bencodeValueClone (fun _ => [49, 58, 97])
          (some (.string ⟨⟨.platform, 0, 40⟩, none⟩ (.borrowed ⟨0, 2⟩ 1))) none
          (.empty fun _ => false)).2.1 = some w ∧
        Reports (fun _ => [49, 58, 98]) (.string [97]) w := by
  have run : bencodeParse (fun _ => [49, 58, 97]) (.buffer 0) none (.empty fun _ => false) =
      .ok ⟨.ok, some (.string ⟨⟨.platform, 0, 40⟩, none⟩ (.borrowed ⟨0, 2⟩ 1)), 3,
        (bencodeIntNew 0 none (.empty fun _ => false)).2.2⟩ := rfl
  obtain ⟨hparsed, hcloned⟩ := borrowed_and_cloned
  obtain ⟨-, -, hlater⟩ := hcloned _ _
    (.string ⟨⟨.platform, 0, 40⟩, none⟩ (.borrowed ⟨0, 2⟩ 1))
    (.single (.parse ⟨0, _⟩ _ _ _ _ run)) ⟨_, Multiset.mem_singleton_self _, rfl⟩
    (fun _ => [49, 58, 97]) none rfl (.empty fun _ => false)
  obtain ⟨w, text, -, hout, -, -, hreports⟩ := hlater _ _ _ rfl rfl
  refine ⟨(hparsed _ 0 none _ _ _ run rfl (fun _ => [49, 58, 98]) rfl).2.1, w, hout, ?_⟩
  exact (hreports fun _ => [49, 58, 98]).1

end Bencode
