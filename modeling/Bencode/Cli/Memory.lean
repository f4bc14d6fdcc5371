import Bencode.Cli.Subcommands

/-!
# The memory of the process

Whatever a subcommand meets, it gives back what it was granted: the input buffer, also
when doubling it fails, the tree and the emitted bytes.
-/

namespace Bencode

open OutStream

variable {m m₁ m' : Memory}

/-! ## The input buffer -/

def bufferBlocks : Option ReadBuffer → Multiset MemBlock
  | none => 0
  | some buf => {buf.block}

structure ReadBuffer.Allocated (buf : ReadBuffer) : Prop where
  pool : buf.block.pool = .platform
  room : 0 < buf.cap

theorem ReadBuffer.Allocated.frees {buf : ReadBuffer} (h : buf.Allocated) :
    Frees {buf.block} (free (some buf.block)) :=
  @frees_block none buf.block buf.block.size rfl ⟨h.pool, rfl⟩

structure BufferOwned (m : Memory) (r : Option ReadBuffer) (m' : Memory) : Prop where
  allocated : ∀ buf, r = some buf → buf.Allocated
  blocks : m.Exchange m' 0 (bufferBlocks r)

theorem BufferOwned.freed {buf : ReadBuffer} (h : BufferOwned m (some buf) m') :
    BufferOwned m none (free (some buf.block) m') := by
  have hlive := h.blocks.came_live (Multiset.zero_le _)
  obtain ⟨hfree, -⟩ := (h.allocated buf rfl).frees m' hlive
  refine ⟨fun _ hbuf => (by cases hbuf), ?_⟩
  exact ((h.blocks.trans hfree).congr rfl (add_comm _ _)).cancel _

theorem growBuf_owned {buf : ReadBuffer} (h : BufferOwned m (some buf) m₁) :
    BufferOwned m (growBuf buf m₁).1 (growBuf buf m₁).2 := by
  have halloc := h.allocated buf rfl
  unfold growBuf
  by_cases hlarge : buf.cap > sizeMax / 2
  · rw [if_pos hlarge]
    exact h.freed
  · rw [if_neg hlarge]
    have hroom : 0 < buf.cap * 2 % sizeMod := by
      have hcap := halloc.room
      have hmax : sizeMax = sizeMod - 1 := rfl
      rw [Nat.mod_eq_of_lt (by omega)]
      omega
    cases hmalloc : malloc (buf.cap * 2 % sizeMod) m₁ with
    | mk grown m₂ =>
        cases grown with
        | none =>
            obtain ⟨hex, -⟩ := bencodeAlloc_none hmalloc hroom
            have hblocks := h.blocks.trans hex
            rw [add_zero, add_zero] at hblocks
            exact BufferOwned.freed ⟨h.allocated, hblocks⟩
        | some grown =>
            obtain ⟨hfrom, -, hex, -⟩ := bencodeAlloc_some hmalloc hroom
            have hboth := h.blocks.trans hex
            have hlive := hboth.came_live (Multiset.zero_le _)
            obtain ⟨hfree, -⟩ := halloc.frees m₂ ((Multiset.le_add_right _ _).trans hlive)
            refine ⟨?_, ?_⟩
            · rintro buf' ⟨⟩
              exact ⟨hfrom.pool, hroom⟩
            · exact ((hboth.trans hfree).congr rfl (by
                simp only [bufferBlocks, add_zero]
                exact add_comm _ _)).cancel {buf.block}

theorem readLoop_owned {fails : Bool} {fuel : Nat} {rest : Bytes} {buf : ReadBuffer}
    {r : Option ReadBuffer} (h : BufferOwned m (some buf) m₁)
    (run : readLoop fails fuel rest buf m₁ = .ok (r, m')) : BufferOwned m r m' := by
  induction fuel generalizing rest buf m₁ with
  | zero => cases run
  | succ fuel ih =>
      have hmade : BufferOwned m
          (if buf.bytes.length = buf.cap then growBuf buf m₁ else (some buf, m₁)).1
          (if buf.bytes.length = buf.cap then growBuf buf m₁ else (some buf, m₁)).2 := by
        split
        · exact growBuf_owned h
        · exact h
      rw [readLoop] at run
      generalize (if buf.bytes.length = buf.cap then growBuf buf m₁ else (some buf, m₁)) = made
        at hmade run
      obtain ⟨made, m₂⟩ := made
      cases made with
      | none =>
          cases run
          exact hmade
      | some buf' =>
          dsimp only at run
          split at run
          · split at run
            · cases run
              exact hmade.freed
            · cases run
              exact hmade
          · apply ih ?_ run
            have halloc := hmade.allocated buf' rfl
            refine ⟨?_, hmade.blocks⟩
            rintro b ⟨⟩
            exact ⟨halloc.pool, halloc.room⟩

theorem readAll_owned {file : InputFile} {r : Option ReadBuffer}
    (run : readAll file m = .ok (r, m')) : BufferOwned m r m' := by
  unfold readAll at run
  split at run
  · cases hmalloc : malloc 4096 m with
    | mk block m₁ =>
        rw [hmalloc] at run
        cases block with
        | none =>
            cases run
            obtain ⟨hex, -⟩ := bencodeAlloc_none hmalloc (by decide)
            exact ⟨fun _ hbuf => (by cases hbuf), hex⟩
        | some block =>
            obtain ⟨hfrom, -, hex, -⟩ := bencodeAlloc_some hmalloc (by decide)
            have hfirst : ∀ buf, some (⟨block, 4096, []⟩ : ReadBuffer) = some buf →
                buf.Allocated := by
              rintro buf ⟨⟩
              exact ⟨hfrom.pool, Nat.succ_pos 4095⟩
            exact readLoop_owned ⟨hfirst, hex⟩ run
  · cases run
    exact ⟨fun _ hbuf => (by cases hbuf), .refl m⟩

/-! ## The tree -/

inductive LoadOwned (m : Memory) : Loaded → Prop
  | nothing {rc : Nat} {m' : Memory} (blocks : m.Exchange m' 0 0) : LoadOwned m ⟨rc, none, m'⟩
  | both {rc : Nat} {buf : ReadBuffer} {out : Option Value} {m' : Memory}
      (allocated : buf.Allocated) (sound : ∀ v, out = some v → v.Sound)
      (blocks : m.Exchange m' 0 (rootBlocks out + {buf.block})) :
      LoadOwned m ⟨rc, some (buf, out), m'⟩

theorem load_owned {prog : Bytes} {path : Option Bytes} {file : InputFile} {l : Loaded × Bytes}
    (run : load prog path file m = .ok l) : LoadOwned m l.1 := by
  unfold load at run
  cases hread : readAll file m with
  | error f =>
      rw [hread] at run
      cases run
  | ok p =>
      obtain ⟨buf, m₁⟩ := p
      have howned := readAll_owned hread
      rw [hread] at run
      cases buf with
      | none =>
          cases run
          exact .nothing howned.blocks
      | some buf =>
          obtain ⟨r, hparse, clean⟩ :=
            bencodeParse_clean buf.bufs (.buffer 0) (some ⟨0, none, false⟩) m₁
          dsimp only at run
          rw [hparse] at run
          dsimp only at run
          have hboth := howned.blocks.trans clean.blocks
          rw [add_zero] at hboth
          split at run
          · next bad =>
              cases run
              rw [clean.failed bad, rootBlocks, add_zero] at hboth
              exact .nothing (BufferOwned.freed ⟨howned.allocated, hboth⟩).blocks
          · cases run
            exact .both (howned.allocated buf rfl) clean.sound
              (hboth.congr rfl (add_comm _ _))

/-! ## The subcommands -/

section Commands

variable {d : Device} {buf : ReadBuffer} {value : Option Value}

theorem frees_loaded (allocated : buf.Allocated) (sound : ∀ v, value = some v → v.Sound)
    (blocks : m.Exchange m₁ 0 (rootBlocks value + {buf.block})) :
    m.Exchange (free (some buf.block) (bencodeValueFree value m₁)) 0 0 := by
  have hlive := blocks.came_live (Multiset.zero_le _)
  obtain ⟨hfree, -⟩ := ((frees_root sound).comp allocated.frees) m₁ hlive
  exact ((blocks.trans hfree).congr rfl (add_comm _ _)).cancel _

theorem emitted_given_back (blocks : m.Exchange m₁ 0 (rootBlocks value + {buf.block}))
    (bufs : Buffers) : m.Exchange
      (bencodeBufferFree none (bencodeEmitToAlloc bufs value none m₁).outBytes
        (bencodeEmitToAlloc bufs value none m₁).mem) 0 (rootBlocks value + {buf.block}) ∧
      ((bencodeEmitToAlloc bufs value none m₁).status ≠ .ok →
        m.Exchange (bencodeEmitToAlloc bufs value none m₁).mem 0
          (rootBlocks value + {buf.block})) := by
  have hafter : ∀ {m₂ : Memory}, m₁.Exchange m₂ 0 0 →
      m.Exchange m₂ 0 (rootBlocks value + {buf.block}) := by
    intro m₂ hex
    exact (blocks.trans hex).congr (add_zero _) (add_zero _)
  cases value with
  | none => exact ⟨hafter (.refl m₁), fun _ => hafter (.refl m₁)⟩
  | some v =>
      have hemitted := bencodeEmitToAlloc_emitted (a := none) rfl bufs v m₁
      generalize bencodeEmitToAlloc bufs (some v) none m₁ = r at hemitted
      cases hemitted with
      | @ok block cap m₂ array len_le hex granted =>
          have hlive := hex.came_live (Multiset.zero_le _)
          obtain ⟨hfree, -⟩ := frees_array (a := none) rfl array m₂ hlive
          exact ⟨hafter (((hex.trans hfree).congr rfl (add_comm _ _)).cancel _),
            fun bad => absurd rfl bad⟩
      | nomem hex => exact ⟨hafter hex, fun _ => hafter hex⟩
      | unformatted long hex granted => exact ⟨hafter hex, fun _ => hafter hex⟩

/-- A subcommand that has ended has given back all it was granted. -/
theorem cmd_gives_back (sub : Subcommand) {prog err : Bytes} {path : Option Bytes}
    {file : InputFile} {out : OutStream d} {e : Exit d}
    (run : sub.cmd prog path file out m = .ok (e, err)) : m.Exchange e.mem 0 0 := by
  cases hload : load prog path file m with
  | error f => cases sub <;> simp [Subcommand.cmd, cmdValidate, cmdPrint, cmdRoundtrip, cmdSize,
      withInput, hload] at run
  | ok l =>
      obtain ⟨l, said⟩ := l
      have howned : LoadOwned m l := load_owned hload
      cases howned with
      | nothing blocks =>
          rw [cmd_unloaded sub hload] at run
          cases run
          exact blocks
      | @both rc buf value m₁ allocated sound blocks =>
          have hfreed := frees_loaded allocated sound blocks
          cases sub with
          | validate =>
              simp only [Subcommand.cmd, cmdValidate, withInput_loaded hload] at run
              cases run
              exact hfreed
          | print =>
              simp only [Subcommand.cmd, cmdPrint, withInput_loaded hload] at run
              cases run
              exact hfreed
          | size =>
              simp only [Subcommand.cmd, cmdSize, withInput_loaded hload] at run
              cases run
              exact hfreed
          | roundtrip =>
              obtain ⟨hback, hkept⟩ := emitted_given_back blocks buf.bufs
              simp only [Subcommand.cmd, cmdRoundtrip, withInput_loaded hload] at run
              split at run
              · next bad =>
                  cases run
                  exact frees_loaded allocated sound (hkept bad)
              · split at run
                · cases run
                · split at run
                  · cases run
                    exact frees_loaded allocated sound hback
                  · cases run
                    exact frees_loaded allocated sound hback

end Commands

end Bencode
