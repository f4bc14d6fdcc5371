import Bencode.Client.DeskRuns

/-!
# Who owns the blocks

After any run of calls every live block belongs to exactly one tree of the caller, and
was and will be returned to the allocator it came from. Freeing the trees leaves no
block behind.
-/

namespace Bencode

variable {m : Memory} {c : Client}

/-! ## One owner for each block -/

theorem Consistent.owner_unique (h : Consistent m c) {v w : Value} (hv : v ∈ c.roots)
    (hw : w ∈ c.roots) {b : MemBlock} (hb : b ∈ v.blocks) (hb' : b ∈ w.blocks) : v = w := by
  by_contra hne
  obtain ⟨rest, hrest⟩ := Multiset.exists_cons_of_mem hv
  have hmem : w ∈ rest := by
    rw [hrest, Multiset.mem_cons] at hw
    exact hw.resolve_left (Ne.symm hne)
  have hnodup := h.nodup
  rw [hrest, Multiset.map_cons, Multiset.sum_cons, Multiset.nodup_add] at hnodup
  exact Multiset.disjoint_left.mp hnodup.2.2 hb
    (Multiset.mem_of_le (Consistent.root_le hmem) hb')

theorem Consistent.roots_nodup (h : Consistent m c) : c.roots.Nodup := by
  rw [Multiset.nodup_iff_ne_cons_cons]
  intro v rest heq
  have hnodup := h.nodup
  rw [heq, Multiset.map_cons, Multiset.map_cons, Multiset.sum_cons, Multiset.sum_cons,
    Multiset.nodup_add] at hnodup
  exact Multiset.disjoint_left.mp hnodup.2.2 v.self_mem_blocks
    (Multiset.mem_add.mpr (.inl v.self_mem_blocks))

theorem exists_owner {roots : Multiset Value} {b : MemBlock}
    (hb : b ∈ (roots.map Value.blocks).sum) : ∃ v ∈ roots, b ∈ v.blocks := by
  induction roots using Multiset.induction_on with
  | empty => exact absurd hb (Multiset.notMem_zero b)
  | cons v rest ih =>
      rw [Multiset.map_cons, Multiset.sum_cons, Multiset.mem_add] at hb
      rcases hb with hb | hb
      · exact ⟨v, Multiset.mem_cons_self v rest, hb⟩
      · obtain ⟨w, hw, hbw⟩ := ih hb
        exact ⟨w, Multiset.mem_cons_of_mem hw, hbw⟩

/-! ## Calls that fail -/

/-- A call that did not take the child has left its container and the caller's trees alone. -/
theorem Consistent.kept {child root old : Value} {rest : Multiset Value} {p : MemBlock}
    (h : Consistent m c) (roots : c.roots = child ::ₘ root ::ₘ rest)
    (found : root.find? p = some old) {r : Status × Option Value × Memory}
    (call : Offered old child c.mem r) (bad : r.1 ≠ .ok) :
    r.2.1 = some old ∧ (Client.handOver child root rest p r).roots = c.roots := by
  cases call with
  | taken => exact absurd rfl bad
  | kept bad' blocks =>
      have hnodup : root.blocks.Nodup := h.root_nodup (by simp [roots])
      obtain ⟨ls, hroot, hstore⟩ := Value.replace_found hnodup found old
      refine ⟨rfl, ?_⟩
      rw [Client.handOver, if_neg bad', Client.store, hstore, ← hroot, roots]

/-! ## Freeing everything -/

def freeAll (trees : List Value) (m : Memory) : Memory :=
  trees.foldl (fun m v => bencodeValueFree (some v) m) m

theorem Consistent.freeAll (trees : List Value) {m₁ : Memory}
    (h : Consistent m ⟨↑trees, m₁⟩) : Consistent m ⟨0, freeAll trees m₁⟩ := by
  induction trees generalizing m₁ with
  | nil => exact h
  | cons v rest ih =>
      rw [← Multiset.cons_coe] at h
      exact ih (h.step (.valueFree v ↑rest m₁))

/-! ## Ownership over whole runs -/

/-- After any calls with any allocators and refusals, from an empty memory: the live blocks are
those of the caller's trees, each in one tree; the interface was never misused, so every block
went back to its own allocator and only once; an append or set that fails leaves the container
and the caller's trees as they were; a set that replaces releases the blocks of the old value
only; and freeing all trees, in any order, leaves nothing. -/
theorem client_ownership {refuses : Nat → Bool} {c : Client}
    (run : Reachable (.empty refuses) c) :
    c.mem.live = (c.roots.map Value.blocks).sum ∧ c.mem.live.Nodup ∧ c.roots.Nodup ∧
    (∀ b ∈ c.mem.live, ∃! v, v ∈ c.roots ∧ b ∈ v.blocks) ∧ c.mem.misuses = 0 ∧
    (∀ (child root old : Value) (rest : Multiset Value) (p : MemBlock),
      c.roots = child ::ₘ root ::ₘ rest → root.find? p = some old →
      (∀ r, bencodeListAppend (some old) (some child) c.mem = r → r.1 ≠ .ok →
        r.2.1 = some old ∧ (Client.handOver child root rest p r).roots = c.roots) ∧
      (∀ key r, bencodeDictSet (some old) key (some child) c.mem = r → r.1 ≠ .ok →
        r.2.1 = some old ∧ (Client.handOver child root rest p r).roots = c.roots) ∧
      (∀ h s key i e, old = .dict h s → key.isBad = false → s.items[i]? = some e →
        e.key.bytes = key.bytes → ∃ m',
          bencodeDictSet (some old) key (some child) c.mem =
            (.ok, some (.dict h { s with items := s.items.set i ⟨e.key, child⟩ }), m') ∧
          m'.live + e.value.blocks = c.mem.live)) ∧
    (∀ trees : List Value, ↑trees = c.roots →
      (freeAll trees c.mem).live = 0 ∧ (freeAll trees c.mem).misuses = 0) := by
  have h := run.consistent
  have hlive : c.mem.live = (c.roots.map Value.blocks).sum :=
    h.blocks.came_eq.trans (zero_add _)
  refine ⟨hlive, c.mem.nodup, h.roots_nodup, fun b hb => ?_, h.blocks.misuses, ?_, ?_⟩
  · obtain ⟨v, hv, hbv⟩ := exists_owner (hlive ▸ hb)
    exact ⟨v, ⟨hv, hbv⟩, fun w hw => h.owner_unique hw.1 hv hw.2 hbv⟩
  · intro child root old rest p roots found
    obtain ⟨roots', mem⟩ := c
    obtain rfl : roots' = child ::ₘ root ::ₘ rest := roots
    obtain ⟨hchild, hold, hle⟩ := h.split found
    have hle := (Multiset.le_add_right _ _).trans hle
    refine ⟨?_, ?_, ?_⟩
    · rintro r rfl bad
      exact h.kept rfl found (bencodeListAppend_offered hold hchild hle) bad
    · rintro key r rfl bad
      exact h.kept rfl found (bencodeDictSet_offered key hold hchild hle) bad
    · rintro hd s key i e rfl hkey at_ eq
      have hdict := sound_dict_iff.mp hold
      have hmem := List.mem_of_getElem? at_
      have hfree := frees_value e.value (soundEntries_iff.mp hdict.2 e hmem).2 mem
        ((entry_blocks_le hmem).trans hle)
      exact ⟨_, bencodeDictSet_replaces hdict.1 hkey at_ eq mem, by simpa using hfree.1.live⟩
  · intro trees htrees
    have hend : Consistent (.empty refuses) ⟨0, freeAll trees c.mem⟩ := by
      apply Consistent.freeAll trees
      rw [htrees]
      exact h
    exact ⟨hend.blocks.came_eq.trans (zero_add _), hend.blocks.misuses⟩

/-- Two allocators, a refused request and a replaced value. -/
theorem client_ownership_sample :
    (sampleDesk [120, 121]).mem.refused = 1 ∧ (sampleDesk [120, 121]).mem.live.card = 13 ∧
      (sampleDesk [120, 121]).mem.live = (sampleDesk [120, 121]).first.blocks ∧
      (sampleDesk [120, 121]).mem.misuses = 0 ∧
      (freeAll [(sampleDesk [120, 121]).first] (sampleDesk [120, 121]).mem).live = 0 := by
  have hroots : (sampleDesk [120, 121]).client.roots = {(sampleDesk [120, 121]).first} :=
    first_only (by decide +kernel) (by decide +kernel)
  obtain ⟨hlive, -, -, -, hmisuses, -, hfree⟩ := client_ownership (sampleDesk_reached [120, 121])
  obtain ⟨hfreed, -⟩ := hfree [(sampleDesk [120, 121]).first] hroots.symm
  rw [hroots, Multiset.map_singleton, Multiset.sum_singleton] at hlive
  exact ⟨by decide +kernel, by decide +kernel, hlive, hmisuses, hfreed⟩

end Bencode
