import Bencode.Client.DeskRuns
import Bencode.Dom.Refinement
import Bencode.Spec.Meaning

/-!
# What a client's trees are written as

Every node that a client can point at has one text, and every sink that accepts all
writes receives it. Texts are equal exactly when the nodes mean the same, no text is
the beginning of another, and parsing a text gives the tree back.
-/

namespace Bencode

/-- Emitting `v` succeeds on every sink that accepts all writes, and writes `text`. -/
def Writes (bufs : Buffers) (v : Value) (text : Bytes) : Prop :=
  ∀ (τ : Type) (receive : Span → τ → τ) (user : τ), ∃ user',
    bencodeEmit bufs (some v) (some (acceptingSink receive)) (user, []) = (.ok, user', text)

theorem Value.Sound.writes {v : Value} (h : v.Sound) (bufs : Buffers) :
    Writes bufs v (v.tree bufs).encode := fun _ receive user =>
  bencodeEmit_accepting bufs v (h.fits bufs v) receive user

theorem Writes.text_eq {bufs : Buffers} {v : Value} {text : Bytes} (h : Writes bufs v text) :
    text = (bencodeEmit bufs (some v) (some (acceptingSink fun _ u => u)) ((), [])).2.2 := by
  obtain ⟨user', hrun⟩ := h Unit (fun _ u => u) ()
  rw [hrun]

theorem held_text {m : Memory} {c : Client} {v : Value} (hc : Reachable m c) (hv : c.Holds v)
    {bufs : Buffers} {text : Bytes} (h : Writes bufs v text) : text = (v.tree bufs).encode :=
  h.text_eq.trans ((hc.consistent.sound_of_holds hv).writes bufs).text_eq.symm

/-- For any two nodes of any two clients: both are written in full, as the same bytes exactly when
they mean the same, and neither text is a proper beginning of the other. -/
theorem held_encodings {m n : Memory} {c d : Client} {v w : Value} (hc : Reachable m c)
    (hv : c.Holds v) (hd : Reachable n d) (hw : d.Holds w) (bufs bufs' : Buffers) :
    ∃ x y, Writes bufs v x ∧ Writes bufs' w y ∧
      (x = y ↔ (v.tree bufs).meaning = (w.tree bufs').meaning) ∧
      (x <+: y → x = y) ∧ (y <+: x → y = x) := by
  have soundv := hc.consistent.sound_of_holds hv
  have soundw := hd.consistent.sound_of_holds hw
  have hvw := Tree.encode_meaning (soundv.canonical bufs v) (soundv.fits bufs v)
    (soundw.canonical bufs' w) (soundw.fits bufs' w)
  have hwv := Tree.encode_meaning (soundw.canonical bufs' w) (soundw.fits bufs' w)
    (soundv.canonical bufs v) (soundv.fits bufs v)
  exact ⟨_, _, soundv.writes bufs, soundw.writes bufs', hvw.1, hvw.2, hwv.2⟩

/-- Two clients with dicts that mean the same, and one whose inner string differs. -/
theorem held_encodings_sample :
    ∃ x y z, Writes sampleBufs (sampleDesk [120, 121]).first x ∧
      Writes sampleBufs
        (Desk.after sampleBufs (fun _ => false) (sampleCommands none [120, 121])).first y ∧
      Writes sampleBufs (sampleDesk [120, 122]).first z ∧ x = y ∧ x ≠ z ∧
      ((sampleDesk [120, 121]).first.tree sampleBufs).meaning ≠
        ((sampleDesk [120, 122]).first.tree sampleBufs).meaning ∧ ¬ x <+: z ∧ ¬ z <+: x := by
  obtain ⟨turns, -, -, hreached⟩ :=
    after_run sampleBufs (fun _ => false) (sampleCommands none [120, 121])
  have hv := @first_held (sampleDesk [120, 121]) (by decide +kernel)
  have hu := @first_held (Desk.after sampleBufs (fun _ => false) (sampleCommands none [120, 121]))
    (by decide +kernel)
  have hw := @first_held (sampleDesk [120, 122]) (by decide +kernel)
  obtain ⟨x, y, hx, hy, -⟩ := held_encodings (sampleDesk_reached [120, 121]) hv hreached hu
    sampleBufs sampleBufs
  obtain ⟨x', z, hx', hz, hiff, hleft, hright⟩ := held_encodings (sampleDesk_reached [120, 121]) hv
    (sampleDesk_reached [120, 122]) hw sampleBufs sampleBufs
  obtain rfl : x = x' := hx.text_eq.trans hx'.text_eq.symm
  have hsame : x = y := by
    rw [hx.text_eq, hy.text_eq]
    decide +kernel
  have hother : x ≠ z := by
    rw [hx.text_eq, hz.text_eq]
    decide +kernel
  exact ⟨x, y, z, hx, hy, hz, hsame, hother, fun h => hother (hiff.mpr h),
    fun h => hother (hleft h), fun h => hother (hright h).symm⟩

/-! ## Parsing a text -/

theorem effectiveDepth_eq (maxDepth : Nat) :
    effectiveDepth maxDepth = min (if maxDepth = 0 then 64 else maxDepth) 256 := by
  simp only [effectiveDepth, defaultMaxDepth, internalMaxDepth]
  split <;> split <;> omega

theorem Value.Sound.parsed {v : Value} (h : v.Sound) (bufs : Buffers) {bufs' : Buffers}
    {base limit : Nat} {z : Bytes} {m : Memory} {r : ParseResult}
    (hrun : Parsed bufs' base limit true ((v.tree bufs).encode ++ z) m r)
    (granted : r.mem.refused = m.refused) :
    ((v.tree bufs).nesting ≤ limit → r.status = .ok ∧
      r.consumed = (v.tree bufs).encode.length ∧
        ∃ v', r.out = some v' ∧ v'.tree bufs' = v.tree bufs) ∧
    (limit < (v.tree bufs).nesting → r.status = .errNestingTooDeep) := by
  have canonical := h.canonical bufs v
  have fits := h.fits bufs v
  constructor
  · intro shallow
    have scan := scans_encode canonical fits shallow z
    cases hrun with
    | @accepted v' rest es m' scan' text whole sound told blocks granted' =>
        obtain ⟨-, heq⟩ := scan.unique scan'
        obtain ⟨htree, -⟩ := Tree.encode_injective canonical fits (sound.canonical bufs' v')
          (sound.fits bufs' v') text
        exact ⟨rfl, (congrArg Prod.snd heq).symm, v', rfl, htree.symm⟩
    | trailing scan' strict => cases strict
    | rejected scan' bad blocks granted' =>
        obtain ⟨-, heq⟩ := scan.unique scan'
        exact absurd (congrArg Prod.fst heq).symm bad
    | nomem blocks refused => exact absurd granted (Nat.ne_of_gt refused)
  · intro deep
    obtain ⟨es, off, scan⟩ := scans_tooDeep canonical fits deep z
    obtain ⟨-, hst, -⟩ := hrun.refines granted scan
    simpa [domVerdict] using hst

/-- What a client's node is written as can be read back, whatever bytes follow: as the same tree
when it is not nested more deeply than the limit, and otherwise the depth is reported. -/
theorem bencodeParse_written {n : Memory} {c : Client} {v : Value} (hc : Reachable n c)
    (hv : c.Holds v) (bufs : Buffers) :
    ∃ text, Writes bufs v text ∧
      ∀ (bufs' : Buffers) (base : Nat) (z : Bytes) (maxDepth : Nat) (alloc : AllocRef)
          (m : Memory), bufs' base = text ++ z → bencodeAllocatorCheck alloc = .ok →
        ∃ r, bencodeParse bufs' (.buffer base) (some ⟨maxDepth, alloc, true⟩) m = .ok r ∧
          (r.mem.refused = m.refused →
            ((v.tree bufs).nesting ≤ min (if maxDepth = 0 then 64 else maxDepth) 256 →
              r.status = .ok ∧ r.consumed = text.length ∧
                ∃ v', r.out = some v' ∧ v'.tree bufs' = v.tree bufs) ∧
            (min (if maxDepth = 0 then 64 else maxDepth) 256 < (v.tree bufs).nesting →
              r.status = .errNestingTooDeep)) := by
  have sound := hc.consistent.sound_of_holds hv
  refine ⟨_, sound.writes bufs, ?_⟩
  intro bufs' base z maxDepth alloc m htext checked
  obtain ⟨r, hrun, hparsed⟩ :=
    bencodeParse_parsed bufs' base (some ⟨maxDepth, alloc, true⟩) checked m
  have hlimit := effectiveDepth_eq maxDepth
  rw [htext] at hparsed
  refine ⟨r, hrun, ?_⟩
  intro granted
  rw [← hlimit]
  exact sound.parsed bufs hparsed granted

/-- A dict with a dict and a list, written and read back with one byte behind it, within a limit of
2 and beyond a limit of 1. -/
theorem bencodeParse_written_sample :
    ∃ r r', bencodeParse (fun _ => sampleText ++ [120]) (.buffer 0) (some ⟨2, none, true⟩)
        (.empty fun _ => false) = .ok r ∧ r.status = .ok ∧ r.consumed = 26 ∧
      (∃ v, r.out = some v ∧ v.tree (fun _ => sampleText ++ [120]) =
        (sampleDesk [120, 121]).first.tree sampleBufs) ∧
      bencodeParse (fun _ => sampleText ++ [120]) (.buffer 0) (some ⟨1, none, true⟩)
        (.empty fun _ => false) = .ok r' ∧ r'.status = .errNestingTooDeep := by
  have hv := @first_held (sampleDesk [120, 121]) (by decide +kernel)
  obtain ⟨text, hwrites, hparse⟩ :=
    bencodeParse_written (sampleDesk_reached [120, 121]) hv sampleBufs
  obtain rfl : text = sampleText := by
    rw [hwrites.text_eq]
    decide +kernel
  have hnesting : ((sampleDesk [120, 121]).first.tree sampleBufs).nesting = 2 := by decide +kernel
  have hrefused : ∀ maxDepth r, maxDepth = 2 ∨ maxDepth = 1 →
      bencodeParse (fun _ => sampleText ++ [120]) (.buffer 0) (some ⟨maxDepth, none, true⟩)
        (.empty fun _ => false) = .ok r → r.mem.refused = 0 := by
    intro maxDepth r hdepth hrun
    have heval : (bencodeParse (fun _ => sampleText ++ [120]) (.buffer 0)
        (some ⟨maxDepth, none, true⟩) (.empty fun _ => false)).toOption.map (·.mem.refused) =
          some 0 := by
      rcases hdepth with rfl | rfl
      · decide +kernel
      · decide +kernel
    rw [hrun] at heval
    exact Option.some.inj heval
  obtain ⟨r, hrun, hresult⟩ := hparse (fun _ => sampleText ++ [120]) 0 [120] 2 none
    (.empty fun _ => false) rfl rfl
  obtain ⟨r', hrun', hresult'⟩ := hparse (fun _ => sampleText ++ [120]) 0 [120] 1 none
    (.empty fun _ => false) rfl rfl
  obtain ⟨hshallow, -⟩ := hresult (hrefused 2 r (.inl rfl) hrun)
  obtain ⟨-, hdeep⟩ := hresult' (hrefused 1 r' (.inr rfl) hrun')
  rw [hnesting] at hshallow hdeep
  obtain ⟨hst, hconsumed, hout⟩ := hshallow (by decide)
  exact ⟨r, r', hrun, hst, hconsumed, hout, hrun', hdeep (by decide)⟩

end Bencode
