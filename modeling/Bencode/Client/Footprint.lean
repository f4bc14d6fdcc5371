import Bencode.Client.Encoding
import Bencode.Dom.Footprint

/-!
# How much memory a client takes

No call leaves an array with room for more than four times its elements, whatever the
calls before it were. What a client holds is therefore bounded by what it is written as.
-/

namespace Bencode

/-! ## Calls that return a tree -/

section Results

variable {a : AllocRef} {m : Memory} {v : Value}

theorem tight_empty_list (h : Header) : (Value.list h ⟨none, 0, []⟩).Tight :=
  tight_list_iff.mpr ⟨rfl, by simp⟩

theorem tight_empty_dict (h : Header) : (Value.dict h ⟨none, 0, []⟩).Tight :=
  tight_dict_iff.mpr ⟨rfl, by simp⟩

theorem bencodeIntNew_tight {i : Int64} (h : (bencodeIntNew i a m).2.1 = some v) : v.Tight := by
  unfold bencodeIntNew at h
  split at h
  · split at h
    · cases h
    · cases h
      trivial
  · cases h

theorem bencodeStringNew_tight {bytes : Span} (h : (bencodeStringNew bytes a m).2.1 = some v) :
    v.Tight := by
  unfold bencodeStringNew at h
  split at h
  · cases h
  · split at h
    · split at h
      · cases h
      · split at h
        · cases h
          trivial
        · split at h
          · cases h
          · cases h
            trivial
    · cases h

theorem bencodeListNew_tight (h : (bencodeListNew a m).2.1 = some v) : v.Tight := by
  unfold bencodeListNew at h
  split at h
  · split at h
    · cases h
    · cases h
      exact tight_empty_list _
  · cases h

theorem bencodeDictNew_tight (h : (bencodeDictNew a m).2.1 = some v) : v.Tight := by
  unfold bencodeDictNew at h
  split at h
  · split at h
    · cases h
    · cases h
      exact tight_empty_dict _
  · cases h

theorem bencodeValueClone_tight {bufs : Buffers} {source : Option Value}
    (h : (bencodeValueClone bufs source a m).2.1 = some v) : v.Tight := by
  unfold bencodeValueClone at h
  split at h
  · next checked =>
      cases source with
      | none => cases h
      | some w =>
          dsimp only at h
          have hbuilt := @valueClone_built bufs a checked w m
          generalize hrun : valueClone bufs w a m = r at hbuilt h
          cases hbuilt with
          | nomem => cases h
          | ok =>
              cases h
              exact valueClone_tight checked w hrun
  · cases h

end Results

/-! ## Calls that take a child -/

section Offers

variable {old child new : Value} {m m' : Memory}

theorem listAppend_tight (sound : old.Sound) (hchild : child.Sound) (tight : old.Tight)
    (tightChild : child.Tight)
    (run : bencodeListAppend (some old) (some child) m = (.ok, some new, m')) : new.Tight := by
  cases old with
  | list h s => exact bencodeListAppend_tight sound hchild tight tightChild run
  | int => cases run
  | string => cases run
  | dict => cases run

theorem dictSet_tight {key : Span} (sound : old.Sound) (tight : old.Tight)
    (tightChild : child.Tight)
    (run : bencodeDictSet (some old) key (some child) m = (.ok, some new, m')) : new.Tight := by
  cases old with
  | dict h s => exact bencodeDictSet_tight (sound_dict_iff.mp sound).1 tight tightChild run
  | int => cases run
  | string => cases run
  | list => cases run

end Offers

/-! ## Whole runs -/

def Client.Compact (c : Client) : Prop := ∀ v ∈ c.roots, v.Tight

namespace Client.Compact

variable {m : Memory} {c : Client}

theorem receive (h : c.Compact) {r : Status × Option Value × Memory}
    (tight : ∀ v, r.2.1 = some v → v.Tight) : (Client.receive c.roots r).Compact := by
  obtain ⟨st, out, m'⟩ := r
  cases out with
  | none => exact h
  | some v =>
      intro w hw
      rcases Multiset.mem_cons.mp hw with rfl | hw
      · exact tight w rfl
      · exact h w hw

theorem handOver {child root old : Value} {rest : Multiset Value} {p : MemBlock} {m₁ : Memory}
    (h : Client.Compact ⟨child ::ₘ root ::ₘ rest, m₁⟩)
    (consistent : Consistent m ⟨child ::ₘ root ::ₘ rest, m₁⟩)
    (found : root.find? p = some old) {r : Status × Option Value × Memory}
    (call : Offered old child m₁ r)
    (tight : ∀ new m', r = (.ok, some new, m') → new.Tight) :
    (Client.handOver child root rest p r).Compact := by
  have hnodup : root.blocks.Nodup := consistent.root_nodup (by simp)
  have hroot : root.Tight := h root (by simp)
  cases call with
  | @taken new m' sound header blocks =>
      obtain ⟨ls, rfl, hstore⟩ := Value.replace_found hnodup found new
      rw [Client.handOver, if_pos rfl, Client.store, hstore]
      intro v hv
      rcases Multiset.mem_cons.mp hv with rfl | hv
      · exact tight_plug hroot (tight new m' rfl)
      · exact h v (by simp [hv])
  | @kept st m' bad blocks =>
      obtain ⟨ls, rfl, hstore⟩ := Value.replace_found hnodup found old
      rw [Client.handOver, if_neg bad, Client.store, hstore]
      exact h

theorem step {d : Client} (h : c.Compact) (consistent : Consistent m c) (call : ClientStep c d) :
    d.Compact := by
  cases call with
  | intNew c i a => exact h.receive fun v hv => bencodeIntNew_tight hv
  | stringNew c bytes a => exact h.receive fun v hv => bencodeStringNew_tight hv
  | listNew c a => exact h.receive fun v hv => bencodeListNew_tight hv
  | dictNew c a => exact h.receive fun v hv => bencodeDictNew_tight hv
  | clone c bufs source a held => exact h.receive fun v hv => bencodeValueClone_tight hv
  | parse c bufs input opts r run => exact h.receive fun v hv => bencodeParse_tight run hv
  | @listAppend child root list p rest m₁ found =>
      obtain ⟨hchild, hlist, hlive⟩ := consistent.split found
      have hroot : root.Tight := h root (by simp)
      apply h.handOver consistent found
        (bencodeListAppend_offered hlist hchild ((Multiset.le_add_right _ _).trans hlive))
      intro new m' hrun
      obtain ⟨-, ls, rfl⟩ := root.exists_path found
      exact listAppend_tight hlist hchild (tight_of_plug hroot) (h child (by simp)) hrun
  | @dictSet child root dict p rest m₁ key found =>
      obtain ⟨hchild, hdict, hlive⟩ := consistent.split found
      have hroot : root.Tight := h root (by simp)
      apply h.handOver consistent found
        (bencodeDictSet_offered key hdict hchild ((Multiset.le_add_right _ _).trans hlive))
      intro new m' hrun
      obtain ⟨-, ls, rfl⟩ := root.exists_path found
      exact dictSet_tight hdict (tight_of_plug hroot) (h child (by simp)) hrun
  | listAppendNull => exact h
  | dictSetNull => exact h
  | valueFree root rest m₁ =>
      intro v hv
      exact h v (Multiset.mem_cons_of_mem hv)
  | valueFreeNull => exact h

end Client.Compact

theorem Reachable.compact {m : Memory} {c : Client} (h : Reachable m c) : c.Compact := by
  induction h with
  | refl => exact fun v hv => absurd hv (Multiset.notMem_zero v)
  | tail run call ih => exact ih.step (Reachable.consistent run) call

theorem weight_roots_le (bufs : Buffers) (roots : Multiset Value) (sound : ∀ v ∈ roots, v.Sound)
    (tight : ∀ v ∈ roots, v.Tight) :
    weight (roots.map Value.blocks).sum + 32 * roots.card ≤
      bytesPerByte * (roots.map fun v => (v.tree bufs).encode.length).sum := by
  induction roots using Multiset.induction_on with
  | empty => exact Nat.le_refl 0
  | cons v roots ih =>
      have hv := v.weight_le bufs (sound v (by simp)) (tight v (by simp))
      have hroots := ih (fun w hw => sound w (by simp [hw])) fun w hw => tight w (by simp [hw])
      simp only [Multiset.map_cons, Multiset.sum_cons, weight_add, Multiset.card_cons,
        Nat.mul_add, Nat.mul_one] at hv hroots ⊢
      omega

/-- After any calls, in any order, with any allocators and refusals: a node that the caller can
point at takes, with all that is below it, at most 36 bytes for each byte it is written as, less
32; and so does all memory that the calls have taken, for what the trees are written as together,
less 32 for each tree. -/
theorem client_footprint {refuses : Nat → Bool} {c : Client} (run : Reachable (.empty refuses) c)
    (bufs : Buffers) :
    (∀ v, c.Holds v → ∃ text, Writes bufs v text ∧ weight v.blocks + 32 ≤ 36 * text.length) ∧
    ∃ size : Value → Nat, (∀ v ∈ c.roots, ∃ text, Writes bufs v text ∧ text.length = size v) ∧
      c.mem.used + 32 * c.roots.card ≤ 36 * (c.roots.map size).sum := by
  have h := run.consistent
  have hcompact := run.compact
  constructor
  · intro v held
    have hsound := h.sound_of_holds held
    obtain ⟨root, hroot, hfound⟩ := held
    obtain ⟨-, ls, rfl⟩ := root.exists_path hfound
    exact ⟨_, hsound.writes bufs, v.weight_le bufs hsound (tight_of_plug (hcompact _ hroot))⟩
  · refine ⟨fun v => (v.tree bufs).encode.length, fun v hv => ⟨_, (h.sound v hv).writes bufs, rfl⟩,
      ?_⟩
    have hused : c.mem.used = 0 + weight (c.roots.map Value.blocks).sum := h.blocks.used_eq
    rw [hused, Nat.zero_add]
    exact weight_roots_le bufs c.roots h.sound hcompact

/-- 26 bytes of text and 469 bytes of memory. -/
theorem client_footprint_sample :
    (sampleDesk [120, 121]).mem.used = 469 ∧ ∃ text,
      Writes sampleBufs (sampleDesk [120, 121]).first text ∧ text.length = 26 ∧
      (sampleDesk [120, 121]).mem.used + 32 ≤ 36 * text.length := by
  have hroots : (sampleDesk [120, 121]).client.roots = {(sampleDesk [120, 121]).first} :=
    first_only (by decide +kernel) (by decide +kernel)
  obtain ⟨-, size, hsize, hle⟩ := client_footprint (sampleDesk_reached [120, 121]) sampleBufs
  obtain ⟨text, hwrites, hlength⟩ := hsize (sampleDesk [120, 121]).first (by rw [hroots]; simp)
  have htext : text.length = 26 := by
    rw [hwrites.text_eq]
    decide +kernel
  rw [hroots, Multiset.card_singleton, Multiset.map_singleton, Multiset.sum_singleton,
    ← hlength] at hle
  exact ⟨by decide +kernel, text, hwrites, htext, hle⟩

end Bencode
