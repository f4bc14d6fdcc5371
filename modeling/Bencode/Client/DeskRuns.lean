import Bencode.Client.Refinement
import Bencode.Library.Simulation
import Bencode.Sax.Refinement

/-!
# Runs of a desk

Any sequence of calls is carried out to its end, and is a run of the shelf. As long as no
request is refused, the calls alone settle the replies.
-/

namespace Bencode

open Simulation

/-! ## Refinement of runs -/

section Runs

variable {s s' : Desk} {m : Memory} {turn : Turn} {turns : List Turn}

/-- The calls of the library refine those of the shelf. -/
theorem desk_simulates (bufs : Buffers) (m : Memory) :
    Refines (Desk.Acts bufs) (Shelf.Acts bufs) (fun s => Reachable m s.client)
      (Desk.trees bufs) id where
  keeps := by
    intro s s₁ turn reached acts
    obtain ⟨r, hrun, hmirrors⟩ := act_mirrors reached.consistent bufs turn.command
    cases hrun.symm.trans acts.1
    rcases hmirrors.client with same | call
    · rwa [← same]
    · exact reached.tail call
  simulates := by
    intro s s₁ turn reached acts
    obtain ⟨r, hrun, hmirrors⟩ := act_mirrors reached.consistent bufs turn.command
    obtain ⟨command, reply, short⟩ := turn
    obtain ⟨hact, hshort⟩ := acts
    cases hrun.symm.trans hact
    dsimp only at hshort
    rw [id, hshort]
    exact hmirrors.acts

theorem Desk.Acts.refused {bufs : Buffers} (reached : Reachable m s.client)
    (acts : s.Acts bufs turn s') :
    s.mem.refused ≤ s'.mem.refused ∧ (turn.short = false ↔ s'.mem.refused = s.mem.refused) := by
  obtain ⟨r, hrun, hmirrors⟩ := act_mirrors reached.consistent bufs turn.command
  cases hrun.symm.trans acts.1
  have hle : s.mem.refused ≤ s'.mem.refused := hmirrors.refused
  refine ⟨hle, ?_⟩
  rw [acts.2, decide_eq_false_iff_not]
  omega

theorem refused_of_run {bufs : Buffers} (reached : Reachable m s.client)
    (run : Run (Desk.Acts bufs) s turns s') :
    s.mem.refused ≤ s'.mem.refused ∧
      ((∀ turn ∈ turns, turn.short = false) ↔ s'.mem.refused = s.mem.refused) := by
  induction run with
  | nil s => simp
  | cons head tail ih =>
      obtain ⟨hle, hhead⟩ := head.refused reached
      obtain ⟨hle', htail⟩ := ih ((desk_simulates bufs m).keeps reached head)
      refine ⟨hle.trans hle', ?_⟩
      rw [List.forall_mem_cons, hhead, htail]
      omega

theorem desk_takes (bufs : Buffers) (s : Desk) (c : Command) (reached : Reachable m s.client) :
    ∃ turn s₁, s.Acts bufs turn s₁ ∧ turn.command = c := by
  obtain ⟨⟨reply, s₁⟩, hrun, -⟩ := act_mirrors reached.consistent bufs c
  exact ⟨⟨c, reply, decide (s.mem.refused < s₁.mem.refused)⟩, s₁, ⟨hrun, rfl⟩, rfl⟩

def Desk.start (m : Memory) : Desk := ⟨[], m⟩

theorem start_reached (m : Memory) : Reachable m (Desk.start m).client := .refl

/-- Every sequence of calls is carried out to its end, whatever the allocators are and whichever
requests are refused, and the shelf explains all replies and every tree that is left. -/
theorem desk_refines (bufs : Buffers) (m : Memory) (commands : List Command) :
    ∃ turns s, Run (Desk.Acts bufs) (.start m) turns s ∧ turns.map Turn.command = commands ∧
      Run (Shelf.Acts bufs) [] turns (s.trees bufs) ∧ Reachable m s.client ∧
      ((∀ turn ∈ turns, turn.short = false) ↔ s.mem.refused = m.refused) := by
  have hrefines := desk_simulates bufs m
  obtain ⟨turns, s, hrun, hcommands⟩ :=
    hrefines.total (desk_takes bufs) commands (start_reached m)
  obtain ⟨hreached, hshelf⟩ := hrefines.run (start_reached m) hrun
  rw [List.map_id] at hshelf
  exact ⟨turns, s, hrun, hcommands, hshelf, hreached, (refused_of_run (start_reached m) hrun).2⟩

end Runs

/-! ## A desk to look at -/

def Desk.carryOut (bufs : Buffers) : Desk → List Command → Except Fault Desk
  | s, [] => .ok s
  | s, c :: commands =>
      match s.act bufs c with
      | .error f => .error f
      | .ok (_, s') => Desk.carryOut bufs s' commands

theorem carryOut_of_run {bufs : Buffers} {s s' : Desk} {turns : List Turn}
    (run : Run (Desk.Acts bufs) s turns s') :
    s.carryOut bufs (turns.map Turn.command) = .ok s' := by
  induction run with
  | nil s => rfl
  | cons head tail ih =>
      rw [List.map_cons, Desk.carryOut, head.1]
      exact ih

@[irreducible] def Desk.after (bufs : Buffers) (refuses : Nat → Bool) (commands : List Command) :
    Desk :=
  ((Desk.start (.empty refuses)).carryOut bufs commands).toOption.getD (.start (.empty refuses))

theorem after_run (bufs : Buffers) (refuses : Nat → Bool) (commands : List Command) :
    ∃ turns, Run (Desk.Acts bufs) (.start (.empty refuses)) turns
        (Desk.after bufs refuses commands) ∧
      turns.map Turn.command = commands ∧
      Reachable (.empty refuses) (Desk.after bufs refuses commands).client := by
  obtain ⟨turns, s, hrun, hcommands, -, hreached, -⟩ :=
    desk_refines bufs (.empty refuses) commands
  have hcarried := carryOut_of_run hrun
  rw [hcommands] at hcarried
  have hdesk : Desk.after bufs refuses commands = s := by
    rw [Desk.after, hcarried]
    rfl
  rw [hdesk]
  exact ⟨turns, hrun, hcommands, hreached⟩

def Desk.first (s : Desk) : Value := (s.pointer 0).getD (.int ⟨⟨.platform, 0, 0⟩, none⟩ 0)

theorem first_held {s : Desk} (made : (s.pointer 0).isSome = true) : s.client.Holds s.first := by
  obtain ⟨root, hroot⟩ := Option.isSome_iff_exists.mp made
  rw [Desk.first, hroot, Option.getD_some]
  exact ⟨root, mem_roots hroot, Value.find?_self root⟩

theorem first_only {s : Desk} (made : (s.pointer 0).isSome = true)
    (one : s.client.roots.card = 1) : s.client.roots = {s.first} := by
  obtain ⟨root, hroot⟩ := Option.isSome_iff_exists.mp made
  obtain ⟨v, hv⟩ := Multiset.card_eq_one.mp one
  have hmem := mem_roots hroot
  rw [hv, Multiset.mem_singleton] at hmem
  rw [hv, Desk.first, hroot, Option.getD_some, hmem]

/-- The input `2:hi`. -/
def sampleBufs : Buffers := fun _ => [50, 58, 104, 105]

/-- A dict with an integer that a dict replaces and a list of an integer and a string borrowed from
the input, and a string that is freed. -/
def sampleCommands (a : AllocRef) (bytes : Bytes) : List Command :=
  [.dictNew none, .dictNew a, .stringNew (.mem bytes) a,
    .dictSet ⟨1, []⟩ (.mem [98]) 2 (by decide),
    .intNew 7 none, .dictSet ⟨0, []⟩ (.mem [97]) 3 (by decide),
    .stringNew (.mem [122]) none, .free 4, .dictSet ⟨0, []⟩ (.mem [97]) 1 (by decide),
    .listNew a, .dictSet ⟨0, []⟩ (.mem [99]) 5 (by decide),
    .intNew 7 none, .listAppend ⟨0, [.dictGet (.mem [99])]⟩ 6 (by decide),
    .parse (.buffer 0) none, .listAppend ⟨0, [.dictGet (.mem [99])]⟩ 7 (by decide)]

/-- The tenth request, for the string that is freed, is refused. -/
def sampleDesk (bytes : Bytes) : Desk :=
  .after sampleBufs (fun i => i = 9) (sampleCommands (some ⟨1, true, true⟩) bytes)

/-- The bytes of `d1:ad1:b2:xye1:cli7e2:hiee`. -/
def sampleText : Bytes :=
  [100, 49, 58, 97, 100, 49, 58, 98, 50, 58, 120, 121, 101, 49, 58, 99, 108, 105, 55, 101, 50, 58,
    104, 105, 101, 101]

theorem sampleDesk_reached (bytes : Bytes) :
    Reachable (.empty fun i => i = 9) (sampleDesk bytes).client := by
  obtain ⟨turns, -, -, hreached⟩ := after_run sampleBufs (fun i => i = 9)
    (sampleCommands (some ⟨1, true, true⟩) bytes)
  exact hreached

/-! ## What the calls settle -/

section Decoding

variable {bufs : Buffers} {opts : ParseOptions} {input : InputArg} {st st' : Status}
  {off off' : Nat} {w : Bytes} {t : Tree}

theorem FirstFlaw.unique {maxDepth : Nat} (h : FirstFlaw (effectiveDepth maxDepth) w st off)
    (bad : st ≠ .ok) (h' : FirstFlaw (effectiveDepth maxDepth) w st' off') (bad' : st' ≠ .ok) :
    st = st' ∧ off = off' := by
  obtain ⟨es, s, k, -, scan⟩ := bencodeParseSax_recorder (.mem w) rfl maxDepth
  obtain ⟨rfl, rfl⟩ := (scans_flaw_iff scan bad).mpr h
  exact (scans_flaw_iff scan bad').mpr h'

theorem encode_unflawed {limit : Nat} {z : Bytes} (canonical : t.Canonical) (fits : t.Fits)
    (shallow : t.nesting ≤ limit) (text : w = t.encode ++ z) (bad : st ≠ .ok) :
    ¬ FirstFlaw limit w st off := by
  intro flaw
  rw [text] at flaw
  obtain ⟨hst, -⟩ := (scans_flaw_iff (scans_encode canonical fits shallow z) bad).mpr flaw
  exact bad hst.symm

theorem not_whole {trailing : Bool} {z : Bytes} (strict : trailing = false) (more : z ≠ []) :
    ¬ (trailing = true ∨ z = []) := by
  rintro (lenient | empty)
  · rw [strict] at lenient
    cases lenient
  · exact more empty

theorem Decodes.unique {t t' : Option Tree} (h : Decodes bufs opts input st off t)
    (h' : Decodes bufs opts input st' off' t') : st = st' ∧ off = off' ∧ t = t' := by
  cases h with
  | unchecked bad =>
      cases h' with
      | unchecked => exact ⟨rfl, rfl, rfl⟩
      | null checked => exact absurd checked bad
      | value checked => exact absurd checked bad
      | trailing checked => exact absurd checked bad
      | flawed checked => exact absurd checked bad
  | null checked =>
      cases h' with
      | unchecked bad => exact absurd checked bad
      | null => exact ⟨rfl, rfl, rfl⟩
  | value checked canonical fits shallow text whole =>
      cases h' with
      | unchecked bad => exact absurd checked bad
      | value _ canonical' fits' _ text' =>
          obtain ⟨rfl, -⟩ :=
            Tree.encode_injective canonical fits canonical' fits' (text.symm.trans text')
          exact ⟨rfl, rfl, rfl⟩
      | trailing _ canonical' fits' _ text' strict more =>
          obtain ⟨-, rfl⟩ :=
            Tree.encode_injective canonical fits canonical' fits' (text.symm.trans text')
          exact absurd whole (not_whole strict more)
      | flawed _ bad flaw => exact absurd flaw (encode_unflawed canonical fits shallow text bad)
  | trailing checked canonical fits shallow text strict more =>
      cases h' with
      | unchecked bad => exact absurd checked bad
      | value _ canonical' fits' _ text' whole =>
          obtain ⟨-, rfl⟩ :=
            Tree.encode_injective canonical fits canonical' fits' (text.symm.trans text')
          exact absurd whole (not_whole strict more)
      | trailing _ canonical' fits' _ text' =>
          obtain ⟨rfl, -⟩ :=
            Tree.encode_injective canonical fits canonical' fits' (text.symm.trans text')
          exact ⟨rfl, rfl, rfl⟩
      | flawed _ bad flaw => exact absurd flaw (encode_unflawed canonical fits shallow text bad)
  | flawed checked bad flaw =>
      cases h' with
      | unchecked unchecked => exact absurd checked unchecked
      | value _ canonical fits shallow text =>
          exact absurd flaw (encode_unflawed canonical fits shallow text bad)
      | trailing _ canonical fits shallow text =>
          exact absurd flaw (encode_unflawed canonical fits shallow text bad)
      | flawed _ bad' flaw' =>
          obtain ⟨rfl, rfl⟩ := flaw.unique bad flaw' bad'
          exact ⟨rfl, rfl, rfl⟩

end Decoding

section Plain

/-- An allocator that passes the check when `a` does. -/
def plainAllocator (a : AllocRef) : AllocRef :=
  if bencodeAllocatorCheck a = .ok then none else some ⟨0, false, false⟩

def ParseOptions.plain (opts : ParseOptions) : ParseOptions :=
  { opts with allocator := plainAllocator opts.allocator }

/-- The call with any allocator in the place of its own. -/
def Command.plain : Command → Command
  | .intNew i a => .intNew i (plainAllocator a)
  | .stringNew bytes a => .stringNew bytes (plainAllocator a)
  | .listNew a => .listNew (plainAllocator a)
  | .dictNew a => .dictNew (plainAllocator a)
  | .clone p a => .clone p (plainAllocator a)
  | .parse input opts => .parse input (some (opts.getD .default).plain)
  | c => c

variable {bufs : Buffers} {ts us us' : Shelf} {turn turn' : Turn} {c : Command}

theorem check_plainAllocator (a : AllocRef) :
    bencodeAllocatorCheck (plainAllocator a) = bencodeAllocatorCheck a := by
  rw [plainAllocator]
  by_cases checked : bencodeAllocatorCheck a = .ok
  · rw [if_pos checked, checked]
    rfl
  · rw [if_neg checked, allocatorCheck_bad checked]
    rfl

theorem checkedBy_plain (a : AllocRef) (t : Option Tree) :
    checkedBy (plainAllocator a) t = checkedBy a t := by
  rw [checkedBy, check_plainAllocator, checkedBy]

theorem Decodes.plain {opts : ParseOptions} {input : InputArg} {st : Status} {n : Nat}
    {t : Option Tree} (h : Decodes bufs opts input st n t) :
    Decodes bufs opts.plain input st n t := by
  have hcheck := check_plainAllocator opts.allocator
  cases h with
  | unchecked bad =>
      rw [← hcheck] at bad ⊢
      exact .unchecked bad
  | null checked => exact .null (hcheck.trans checked)
  | value checked canonical fits shallow text whole =>
      exact .value (hcheck.trans checked) canonical fits shallow text whole
  | trailing checked canonical fits shallow text strict more =>
      exact .trailing (hcheck.trans checked) canonical fits shallow text strict more
  | flawed checked bad first => exact .flawed (hcheck.trans checked) bad first

/-- What a call does to the shelf when nothing is refused. Parses are told apart. -/
def Shelf.answers (ts : Shelf) : Command → Option (Reply × Shelf)
  | .parse .. => none
  | .free handle => some (.freed, ts.set handle none)
  | c =>
      match ts.makes c, ts.takes c with
      | some (st, t), _ => some (.status st, ts ++ [t])
      | none, some (st, us) => some (.status st, us)
      | none, none => (ts.tells c).map fun reply => (reply, ts)

theorem answers_plain (ts : Shelf) (c : Command) : ts.answers c.plain = ts.answers c := by
  cases c <;> simp only [Command.plain, Shelf.answers, Shelf.makes, Shelf.takes, checkedBy_plain]

theorem answers_makes {st : Status} {t : Option Tree} (call : ts.makes c = some (st, t)) :
    ts.answers c = some (.status st, ts ++ [t]) := by
  cases c with
  | intNew i a => simp only [Shelf.answers, call]
  | stringNew bytes a => simp only [Shelf.answers, call]
  | listNew a => simp only [Shelf.answers, call]
  | dictNew a => simp only [Shelf.answers, call]
  | clone p a => simp only [Shelf.answers, call]
  | _ => cases call

theorem answers_takes {st : Status} (call : ts.takes c = some (st, us)) :
    ts.answers c = some (.status st, us) := by
  cases c with
  | listAppend p child apart => simp only [Shelf.answers, Shelf.makes, call]
  | dictSet p key child apart => simp only [Shelf.answers, Shelf.makes, call]
  | _ => cases call

theorem answers_tells {reply : Reply} (call : ts.tells c = some reply) :
    ts.answers c = some (reply, ts) := by
  cases c with
  | look p => simp only [Shelf.answers, Shelf.makes, Shelf.takes, call, Option.map_some]
  | keyAt p i => simp only [Shelf.answers, Shelf.makes, Shelf.takes, call, Option.map_some]
  | emit p => simp only [Shelf.answers, Shelf.makes, Shelf.takes, call, Option.map_some]
  | _ => cases call

theorem Shelf.Acts.granted (h : ts.Acts bufs turn us) (full : turn.short = false) :
    ts.answers turn.command = some (turn.reply, us) ∨
      ∃ input opts st n t, turn.command = .parse input opts ∧ turn.reply = .parsed st n ∧
        us = ts ++ [t] ∧ Decodes bufs (opts.getD .default) input st n t := by
  cases h with
  | made call => exact .inl (answers_makes call)
  | parsed call => exact .inr ⟨_, _, _, _, _, rfl, rfl, rfl, call⟩
  | taken call => exact .inl (answers_takes call)
  | freed handle => exact .inl rfl
  | told call => exact .inl (answers_tells call)
  | unmade => cases full
  | unparsed => cases full
  | untaken => cases full

theorem Shelf.Acts.settled (h : ts.Acts bufs turn us) (h' : ts.Acts bufs turn' us')
    (full : turn.short = false) (full' : turn'.short = false)
    (same : turn.command.plain = turn'.command.plain) : turn.reply = turn'.reply ∧ us = us' := by
  have hanswers : ts.answers turn.command = ts.answers turn'.command := by
    rw [← answers_plain, same, answers_plain]
  rcases h.granted full with call | ⟨input, opts, st, n, t, hparse, hreply, rfl, call⟩
  · rcases h'.granted full' with call' | ⟨input', opts', st', n', t', hparse', -⟩
    · rw [call, call'] at hanswers
      exact Prod.mk.inj (Option.some.inj hanswers)
    · rw [call, hparse'] at hanswers
      cases hanswers
  · rcases h'.granted full' with call' | ⟨input', opts', st', n', t', hparse', hreply', rfl, call'⟩
    · rw [call', hparse] at hanswers
      cases hanswers
    · rw [hparse, hparse'] at same
      obtain ⟨rfl, hopts⟩ := Command.parse.inj same
      have hplain := call.plain
      rw [Option.some.inj hopts] at hplain
      obtain ⟨rfl, rfl, rfl⟩ := hplain.unique call'.plain
      exact ⟨hreply.trans hreply'.symm, rfl⟩

end Plain

/-! ## Runs without a refusal -/

section Granted

variable {m n : Memory} {s s' : Desk} {turns turns' : List Turn}

theorem shelf_settled (bufs : Buffers) :
    Settled (fun ts turn us => turn.short = false ∧ Shelf.Acts bufs ts turn us)
      (fun turn => turn.command.plain) Turn.reply := by
  rintro ts us us' turn turn' ⟨full, acts⟩ ⟨full', acts'⟩ same
  exact acts.settled acts' full full' same

theorem granted_run {bufs : Buffers} (run : Run (Desk.Acts bufs) (.start m) turns s)
    (granted : s.mem.refused = m.refused) :
    Run (fun ts turn us => turn.short = false ∧ Shelf.Acts bufs ts turn us) [] turns
      (s.trees bufs) := by
  obtain ⟨-, hshelf⟩ := (desk_simulates bufs m).run (start_reached m) run
  rw [List.map_id] at hshelf
  have hfull := (refused_of_run (start_reached m) run).2.mpr granted
  exact hshelf.mono (fun full acts => ⟨full, acts⟩) hfull

/-- Two runs of the same calls to which nothing is refused give the same replies and leave the
same trees, whatever else the memories hold and whichever allocators serve the calls. -/
theorem replies_settled {bufs : Buffers} (run : Run (Desk.Acts bufs) (.start m) turns s)
    (run' : Run (Desk.Acts bufs) (.start n) turns' s') (granted : s.mem.refused = m.refused)
    (granted' : s'.mem.refused = n.refused)
    (same : turns.map (fun turn => turn.command.plain) =
      turns'.map fun turn => turn.command.plain) :
    turns.map Turn.reply = turns'.map Turn.reply ∧ s.trees bufs = s'.trees bufs :=
  (granted_run run granted).unique (shelf_settled bufs) (granted_run run' granted') same

/-- Calls served by two allocators and by one, in memories that refuse nothing. -/
theorem replies_settled_sample :
    ∃ turns turns' : List Turn,
      turns.map Turn.command = sampleCommands (some ⟨1, true, true⟩) [120, 121] ∧
      turns'.map Turn.command = sampleCommands none [120, 121] ∧
      turns.map Turn.reply = turns'.map Turn.reply ∧
      (Desk.after sampleBufs (fun _ => false)
          (sampleCommands (some ⟨1, true, true⟩) [120, 121])).trees sampleBufs =
        (Desk.after sampleBufs (fun _ => false) (sampleCommands none [120, 121])).trees
          sampleBufs ∧
      ((Desk.after sampleBufs (fun _ => false) (sampleCommands none [120, 121])).first.tree
        sampleBufs).encode = sampleText := by
  obtain ⟨turns, run, hcommands, -⟩ := after_run sampleBufs (fun _ => false)
    (sampleCommands (some ⟨1, true, true⟩) [120, 121])
  obtain ⟨turns', run', hcommands', -⟩ := after_run sampleBufs (fun _ => false)
    (sampleCommands none [120, 121])
  have hsame : turns.map (fun turn => turn.command.plain) =
      turns'.map fun turn => turn.command.plain := by
    have hplain : ∀ ts : List Turn, ts.map (fun turn => turn.command.plain) =
        (ts.map Turn.command).map Command.plain := fun ts => by simp
    rw [hplain, hplain, hcommands, hcommands']
    rfl
  obtain ⟨hreplies, htrees⟩ := replies_settled run run' (by decide +kernel) (by decide +kernel)
    hsame
  exact ⟨turns, turns', hcommands, hcommands', hreplies, htrees, by decide +kernel⟩

end Granted

end Bencode
