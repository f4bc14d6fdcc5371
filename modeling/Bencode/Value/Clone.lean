import Bencode.Value.Attach
import Bencode.Value.Shape

/-!
# Cloning

A clone is built like any other tree: children are cloned and handed to a fresh
container. A clone that runs out of memory gives back everything it had built, and a
finished clone stands for the same tree as its source, whatever the buffers that the
source borrows from hold later.
-/

namespace Bencode

variable {bufs : Buffers} {a : AllocRef}

/-! ## Filling a container -/

/-- What a loop that hands children to the container `old` may return: the container with the
intended content, or nothing after everything was given back. -/
inductive Filled (old : Value) (intended : Value → Prop) (m : Memory) :
    Status × Option Value × Memory → Prop
  | ok {new : Value} {m' : Memory} (sound : new.Sound) (content : intended new)
      (header : new.header = old.header) (blocks : m.Exchange m' old.blocks new.blocks)
      (granted : m'.refused = m.refused) : Filled old intended m (.ok, some new, m')
  | nomem {m' : Memory} (blocks : m.Exchange m' old.blocks 0) (refused : m.refused < m'.refused) :
      Filled old intended m (.errNomem, none, m')

theorem Filled.mono {old : Value} {P Q : Value → Prop} {m : Memory}
    {r : Status × Option Value × Memory} (h : Filled old P m r) (imp : ∀ v, P v → Q v) :
    Filled old Q m r := by
  cases h with
  | ok sound content header blocks granted =>
      exact .ok sound (imp _ content) header blocks granted
  | nomem blocks refused => exact .nomem blocks refused

/-- A fresh container that was filled is what the whole builder returns. -/
theorem Filled.built {fresh : Value} {P : Value → Prop} {m m₁ : Memory}
    {r : Status × Option Value × Memory} (h : Filled fresh P m₁ r)
    (blocks : m.Exchange m₁ 0 fresh.blocks) (granted : m₁.refused = m.refused)
    (alloc : fresh.header.alloc = a) : Built a P m r := by
  cases h with
  | ok sound content header blocks' granted' =>
      refine .ok sound content (header ▸ alloc) ?_ (granted'.trans granted)
      exact ((blocks.trans blocks').congr rfl (add_comm _ _)).cancel _
  | nomem blocks' refused =>
      refine .nomem ?_ (granted ▸ refused)
      exact ((blocks.trans blocks').congr rfl (add_comm _ _)).cancel _

theorem Filled.step {old new child : Value} {P : Value → Prop} {m m₁ m₂ : Memory}
    {r : Status × Option Value × Memory} (h : Filled new P m₂ r)
    (header : new.header = old.header) (built : m.Exchange m₁ 0 child.blocks)
    (granted : m₁.refused = m.refused)
    (handed : m₁.Exchange m₂ (old.blocks + child.blocks) new.blocks)
    (granted' : m₂.refused = m₁.refused) : Filled old P m r := by
  have hall := built.trans handed
  rw [zero_add, add_comm child.blocks] at hall
  cases h with
  | ok sound content header' blocks refused =>
      refine .ok sound content (header'.trans header) ?_ (refused.trans (granted'.trans granted))
      apply BlockLedger.Exchange.cancel child.blocks
      apply BlockLedger.Exchange.cancel new.blocks
      apply (hall.trans blocks).congr rfl
      abel
  | nomem blocks refused =>
      refine .nomem ?_ (by omega)
      apply BlockLedger.Exchange.cancel child.blocks
      apply BlockLedger.Exchange.cancel new.blocks
      apply (hall.trans blocks).congr rfl
      abel

theorem Filled.unbuilt {old : Value} {P : Value → Prop} {m m₁ : Memory} (sound : old.Sound)
    (live : old.blocks ≤ m.live) (blocks : m.Exchange m₁ 0 0) (refused : m.refused < m₁.refused) :
    Filled old P m (.errNomem, none, valueFree old m₁) := by
  have hlive := blocks.still_live live
  rw [add_zero] at hlive
  obtain ⟨hfree, hsame⟩ := frees_value old sound m₁ hlive
  refine .nomem ((blocks.trans hfree).congr (zero_add _) (zero_add _)) ?_
  omega

theorem Filled.unattached {old child : Value} {P : Value → Prop} {m m₁ m₂ : Memory}
    (sound : old.Sound) (hchild : child.Sound) (live : old.blocks ≤ m.live)
    (built : m.Exchange m₁ 0 child.blocks) (granted : m₁.refused = m.refused)
    (failed : m₁.Exchange m₂ 0 0) (refused : m₁.refused < m₂.refused) :
    Filled old P m (.errNomem, none, valueFree old (valueFree child m₂)) := by
  have hall := (built.trans failed).congr (zero_add _) (add_zero _)
  have hlive := hall.still_live live
  rw [add_comm] at hlive
  obtain ⟨hfree, hsame⟩ := ((frees_value child hchild).comp (frees_value old sound)) m₂ hlive
  refine .nomem ?_ (by simp only [Function.comp_apply] at hsame; omega)
  apply BlockLedger.Exchange.cancel child.blocks
  refine (hall.trans hfree).congr ?_ ?_
  · abel
  · abel

/-! ## The clone -/

/-- The clone of a canonical tree stands for that tree and borrows nothing. -/
def CloneOf (bufs : Buffers) (v v' : Value) : Prop :=
  (v.tree bufs).Canonical → ∀ bufs', v'.tree bufs' = v.tree bufs

def ItemsCloned (bufs : Buffers) (h : Header) (s : Slots Value) (vs : List Value) (v : Value) :
    Prop :=
  ∃ s', v = .list h s' ∧ (CanonicalItems (itemTrees bufs vs) → ∀ bufs',
    itemTrees bufs' s'.items = itemTrees bufs' s.items ++ itemTrees bufs vs)

def EntriesCloned (bufs : Buffers) (h : Header) (s : Slots (Entry Value))
    (es : List (Entry Value)) (v : Value) : Prop :=
  ∃ s', v = .dict h s' ∧ ((storedKeys s.items ++ storedKeys es).Pairwise (· < ·) →
    CanonicalEntries (entryTrees bufs es) → ∀ bufs',
      entryTrees bufs' s'.items = entryTrees bufs' s.items ++ entryTrees bufs es)

theorem ItemsCloned.cons {h : Header} {s s' : Slots Value} {v child : Value} {vs : List Value}
    {new : Value} (clone : CloneOf bufs v child) (items : s'.items = s.items ++ [child])
    (rest : ItemsCloned bufs h s' vs new) : ItemsCloned bufs h s (v :: vs) new := by
  obtain ⟨s'', rfl, hrest⟩ := rest
  refine ⟨s'', rfl, ?_⟩
  intro canonical bufs'
  rw [hrest canonical.2 bufs', items, itemTrees_append]
  simp [itemTrees, clone canonical.1 bufs']

theorem EntriesCloned.cons {h : Header} {s s' : Slots (Entry Value)} {key : KeyCopy}
    {v child : Value} {es : List (Entry Value)} {new : Value} (clone : CloneOf bufs v child)
    (items : (∀ l ∈ storedKeys s.items, l < key.bytes) →
      ∃ copy : KeyCopy, copy.bytes = key.bytes ∧ s'.items = s.items ++ [⟨copy, child⟩])
    (rest : EntriesCloned bufs h s' es new) : EntriesCloned bufs h s (⟨key, v⟩ :: es) new := by
  obtain ⟨s'', rfl, hrest⟩ := rest
  refine ⟨s'', rfl, ?_⟩
  intro sorted canonical bufs'
  have hlast : ∀ l ∈ storedKeys s.items, l < key.bytes := fun l hl =>
    (List.pairwise_append.mp sorted).2.2 l hl _ (by simp [storedKeys])
  obtain ⟨copy, hcopy, hitems⟩ := items hlast
  have hsorted : (storedKeys s'.items ++ storedKeys es).Pairwise (· < ·) := by
    simpa [hitems, storedKeys, hcopy] using sorted
  rw [hrest hsorted canonical.2 bufs', hitems, entryTrees_append]
  simp [entryTrees, hcopy, clone canonical.1 bufs']

mutual

/-- Cloning any tree of nodes gives a sound copy that owns what was granted, or nothing. -/
theorem valueClone_built (checked : bencodeAllocatorCheck a = .ok) (v : Value) (m : Memory) :
    Built a (CloneOf bufs v) m (valueClone bufs v a m) := by
  cases v with
  | int h i =>
      apply (bencodeIntNew_built checked m i).mono
      rintro v ⟨h', rfl⟩ - bufs'
      rfl
  | string h str =>
      apply (bencodeStringNew_built checked m rfl).mono
      rintro v ⟨h', str', rfl, hread⟩ - bufs'
      exact congrArg Tree.string (hread bufs')
  | list h slots =>
      obtain ⟨block, capacity, items⟩ := slots
      have hnew := bencodeListNew_built checked m
      rw [valueClone, checked]
      generalize bencodeListNew a m = r at hnew
      cases hnew with
      | nomem blocks refused => exact .nomem blocks refused
      | ok sound content alloc blocks granted =>
          obtain ⟨h', rfl⟩ := content
          have hlive := blocks.came_live (Multiset.zero_le _)
          refine ((cloneItems_filled checked items h' _ _ sound hlive).mono ?_).built
            blocks granted alloc
          rintro v ⟨s', rfl, hitems⟩ canonical bufs'
          exact congrArg Tree.list (hitems canonical bufs')
  | dict h slots =>
      obtain ⟨block, capacity, entries⟩ := slots
      have hnew := bencodeDictNew_built checked m
      rw [valueClone, checked]
      generalize bencodeDictNew a m = r at hnew
      cases hnew with
      | nomem blocks refused => exact .nomem blocks refused
      | ok sound content alloc blocks granted =>
          obtain ⟨h', rfl⟩ := content
          have hlive := blocks.came_live (Multiset.zero_le _)
          refine ((cloneEntries_filled checked entries h' _ _ sound hlive).mono ?_).built
            blocks granted alloc
          rintro v ⟨s', rfl, hentries⟩ canonical bufs'
          have hsorted := canonical.1
          rw [entryKeys_entryTrees] at hsorted
          exact congrArg Tree.dict (hentries hsorted canonical.2 bufs')

theorem cloneItems_filled (checked : bencodeAllocatorCheck a = .ok) (vs : List Value) (h : Header)
    (s : Slots Value) (m : Memory) (sound : (Value.list h s).Sound)
    (live : (Value.list h s).blocks ≤ m.live) :
    Filled (.list h s) (ItemsCloned bufs h s vs) m
      (cloneItems bufs vs a (some (.list h s)) m) := by
  cases vs with
  | nil =>
      refine .ok sound ⟨s, rfl, fun _ bufs' => by simp [itemTrees]⟩ rfl ?_ rfl
      exact ⟨rfl, rfl, Nat.le_refl _⟩
  | cons v vs =>
      have hchild := valueClone_built checked v m
      rw [cloneItems]
      generalize valueClone bufs v a m = r at hchild
      cases hchild with
      | nomem blocks refused => exact .unbuilt sound live blocks refused
      | @ok child m₁ soundChild clone alloc built granted =>
          have hboth := built.still_live live
          have hlive := (Multiset.le_add_right _ _).trans hboth
          dsimp only
          generalize hrun : bencodeListAppend (some (.list h s)) (some child) m₁ = r
          obtain ⟨st, out, m₂⟩ := r
          cases (bencodeListAppend_appended sound soundChild hrun).attached sound hlive with
          | nomem blocks refused =>
              exact .unattached sound soundChild live built granted blocks refused
          | ok sound' header content handed granted' =>
              obtain ⟨s', rfl, hitems⟩ := content
              have hlive' := handed.came_live hboth
              refine Filled.step ?_ header built granted handed granted'
              exact (cloneItems_filled checked vs h s' m₂ sound' hlive').mono fun _ =>
                .cons clone hitems

theorem cloneEntries_filled (checked : bencodeAllocatorCheck a = .ok) (es : List (Entry Value))
    (h : Header) (s : Slots (Entry Value)) (m : Memory) (sound : (Value.dict h s).Sound)
    (live : (Value.dict h s).blocks ≤ m.live) :
    Filled (.dict h s) (EntriesCloned bufs h s es) m
      (cloneEntries bufs es a (some (.dict h s)) m) := by
  cases es with
  | nil =>
      refine .ok sound ⟨s, rfl, fun _ _ bufs' => by simp [entryTrees]⟩ rfl ?_ rfl
      exact ⟨rfl, rfl, Nat.le_refl _⟩
  | cons e es =>
      obtain ⟨key, v⟩ := e
      have hkey : key.span.isBad = false := by cases key <;> rfl
      have hbytes : key.span.bytes = key.bytes := by cases key <;> rfl
      have hchild := valueClone_built checked v m
      rw [cloneEntries]
      generalize valueClone bufs v a m = r at hchild
      cases hchild with
      | nomem blocks refused => exact .unbuilt sound live blocks refused
      | @ok child m₁ soundChild clone alloc built granted =>
          have hboth := built.still_live live
          have hlive := (Multiset.le_add_right _ _).trans hboth
          dsimp only
          generalize hrun : bencodeDictSet (some (.dict h s)) key.span (some child) m₁ = r
          obtain ⟨st, out, m₂⟩ := r
          have hset := bencodeDictSet_wasSet (sound_dict_iff.mp sound).1 hkey hrun
          rw [hbytes] at hset
          cases hset.attached sound soundChild hlive with
          | nomem blocks refused =>
              exact .unattached sound soundChild live built granted blocks refused
          | ok sound' header content handed granted' =>
              obtain ⟨s', rfl, hitems⟩ := content
              have hlive' := handed.came_live hboth
              refine Filled.step ?_ header built granted handed granted'
              exact (cloneEntries_filled checked es h s' m₂ sound' hlive').mono fun _ =>
                .cons clone hitems

end

end Bencode
