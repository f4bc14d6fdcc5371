import Bencode.Source.ParseDom
import Bencode.Spec.History
import Bencode.Value.Shape
import Bencode.Value.Zipper
import Mathlib.Data.List.Forall2

/-!
# The tree under construction

The DOM builder links a container into the tree when it opens. The scanner's open
containers are therefore a path in that tree, one frame per container, and a walk
over the nodes on the path tells the events so far.
-/

namespace Bencode

/-! ## Walking over a tree of nodes -/

/-- One stop of a preorder walk. -/
inductive Visit
  | int (i : Int64)
  | string (str : Payload)
  | key (bytes : Bytes)
  | listBegin
  | listEnd
  | dictBegin
  | dictEnd

mutual

def Value.visits : Value → List Visit
  | .int _ i => [.int i]
  | .string _ str => [.string str]
  | .list _ ⟨_, _, items⟩ => .listBegin :: (itemsVisits items ++ [.listEnd])
  | .dict _ ⟨_, _, entries⟩ => .dictBegin :: (entriesVisits entries ++ [.dictEnd])

def itemsVisits : List Value → List Visit
  | [] => []
  | v :: vs => v.visits ++ itemsVisits vs

def entriesVisits : List (Entry Value) → List Visit
  | [] => []
  | ⟨key, v⟩ :: es => .key key.bytes :: (v.visits ++ entriesVisits es)

end

theorem itemsVisits_append (vs ws : List Value) :
    itemsVisits (vs ++ ws) = itemsVisits vs ++ itemsVisits ws := by
  induction vs with
  | nil => rfl
  | cons v vs ih => simp [itemsVisits, ih]

theorem entriesVisits_append (es fs : List (Entry Value)) :
    entriesVisits (es ++ fs) = entriesVisits es ++ entriesVisits fs := by
  induction es with
  | nil => rfl
  | cons e es ih =>
      obtain ⟨key, v⟩ := e
      simp [entriesVisits, ih]

def parsedPayload (base off len : Nat) : Payload :=
  if len = 0 then .literal else .borrowed ⟨base, off⟩ len

/-- The stop of the walk that an event tells. A string node is the slice of the buffer `base`
at the place where the string was met. -/
def Visit.Tells (bufs : Buffers) (base : Nat) : Visit → Event → Prop
  | .int i, .int j => i = j
  | .string str, .string off bytes =>
      str = parsedPayload base off bytes.length ∧ str.read bufs = bytes
  | .key k, .string off bytes => k = bytes ∧ ((bufs base).drop off).take bytes.length = bytes
  | .listBegin, .listBegin => True
  | .listEnd, .listEnd => True
  | .dictBegin, .dictBegin => True
  | .dictEnd, .dictEnd => True
  | _, _ => False

theorem parsedPayload_read {bufs : Buffers} {base off : Nat} {bytes : Bytes}
    (slice : ((bufs base).drop off).take bytes.length = bytes) :
    (parsedPayload base off bytes.length).read bufs = bytes := by
  unfold parsedPayload
  split
  · next hzero => exact (List.length_eq_zero_iff.mp hzero).symm
  · exact slice

/-! ## Open containers in the tree -/

def Value.openVisits : Value → List Visit
  | .int _ _ => []
  | .string _ _ => []
  | .list _ s => .listBegin :: itemsVisits s.items
  | .dict _ s => .dictBegin :: entriesVisits s.items

def Layer.visits : Layer → List Visit
  | .list _ _ _ front _ => .listBegin :: itemsVisits front
  | .dict _ _ _ front key _ => .dictBegin :: (entriesVisits front ++ [.key key.bytes])

def pathVisits : List Layer → List Visit
  | [] => []
  | l :: ls => pathVisits ls ++ l.visits

/-- A key that waits for its value is not in the tree yet. -/
def OpenScope.pending : OpenScope → List Visit
  | .list _ => []
  | .dict _ none => []
  | .dict _ (some k) => [.key k]

def ScopeHolds (bufs : Buffers) : OpenScope → Value → Prop
  | .list done, .list _ s => itemTrees bufs s.items = done
  | .dict done _, .dict _ s => entryTrees bufs s.items = done
  | _, _ => False

def LayerHolds (bufs : Buffers) : OpenScope → Layer → Prop
  | .list done, .list _ _ _ front back => itemTrees bufs front = done ∧ back = []
  | .dict done (some k), .dict _ _ _ front key back =>
      entryTrees bufs front = done ∧ key.bytes = k ∧ back = []
  | _, _ => False

/-! ## Frames -/

def FrameHolds (v : Value) (f : DomFrame) : OpenScope → Prop
  | .list _ => f.container = v.self
  | .dict _ none => f.container = v.self ∧ f.expectingKey = true ∧ f.pendingKey = .null 0
  | .dict _ (some k) => f.container = v.self ∧ f.expectingKey = false ∧ f.pendingKey = .mem k

theorem FrameHolds.container {v : Value} {f : DomFrame} {o : OpenScope} (h : FrameHolds v f o) :
    f.container = v.self := by
  cases o with
  | list => exact h
  | dict done key => cases key <;> exact h.1

/-- The frame of a container further out: no key is left in it. -/
def LayerFrame (f : DomFrame) : Layer → Prop
  | .list h _ _ _ _ => f.container = h.self
  | .dict h _ _ _ _ _ => f.container = h.self ∧ f.expectingKey = true ∧ f.pendingKey = .null 0

def PathFrames (frames : Nat → DomFrame) : List Layer → Prop
  | [] => True
  | l :: ls => LayerFrame (frames ls.length) l ∧ PathFrames frames ls

/-- Writing a frame further in does not change the frames of the path. -/
theorem PathFrames.update {frames : Nat → DomFrame} {ls : List Layer} (h : PathFrames frames ls)
    {i : Nat} (hi : ls.length ≤ i) (f : DomFrame) :
    PathFrames (Function.update frames i f) ls := by
  induction ls with
  | nil => trivial
  | cons l ls ih =>
      rw [List.length_cons] at hi
      refine ⟨?_, ih h.2 (by omega)⟩
      rw [Function.update_of_ne (by omega)]
      exact h.1

/-! ## The shape of the builder's state -/

/-- The node `v` hangs where the scanner waited for a value, and the visits `vis` of it have
been told. -/
structure Hangs (bufs : Buffers) (base : Nat) (stack : List OpenScope) (ls : List Layer)
    (v : Value) (vis : List Visit) (hist : List Event) (s : DomState) : Prop where
  root : s.root = some (plug ls v)
  layers : List.Forall₂ (LayerHolds bufs) stack ls
  frames : PathFrames s.frames ls
  told : List.Forall₂ (Visit.Tells bufs base) (pathVisits ls ++ vis) hist

/-- How the tree under construction matches the scanner after the events `hist`. -/
inductive Growing (bufs : Buffers) (base : Nat) (s : DomState) :
    List OpenScope → Option Tree → List Event → Prop
  | empty (root : s.root = none) (depth : s.depth = 0) : Growing bufs base s [] none []
  | whole {v : Value} {hist : List Event} (root : s.root = some v) (depth : s.depth = 0)
      (told : List.Forall₂ (Visit.Tells bufs base) v.visits hist) :
      Growing bufs base s [] (some (v.tree bufs)) hist
  | inside {o : OpenScope} {below : List OpenScope} {hist : List Event} (v : Value)
      (ls : List Layer) (depth : s.depth = below.length + 1)
      (hangs : Hangs bufs base below ls v (v.openVisits ++ o.pending) hist s)
      (holds : ScopeHolds bufs o v) (frame : FrameHolds v (s.frames below.length) o) :
      Growing bufs base s (o :: below) none hist

section Shape

variable {bufs : Buffers} {base : Nat} {s : DomState} {stack below : List OpenScope}
  {ls : List Layer} {v : Value} {hist : List Event}

theorem Hangs.tell {vis more : List Visit} {es : List Event}
    (h : Hangs bufs base stack ls v vis hist s)
    (told : List.Forall₂ (Visit.Tells bufs base) more es) :
    Hangs bufs base stack ls v (vis ++ more) (hist ++ es) s where
  root := h.root
  layers := h.layers
  frames := h.frames
  told := by
    rw [← List.append_assoc]
    exact List.rel_append h.told told

theorem Hangs.settle (h : Hangs bufs base stack ls v v.visits hist s)
    (depth : s.depth = stack.length) :
    Growing bufs base s (settle stack (v.tree bufs)).1 (settle stack (v.tree bufs)).2 hist := by
  obtain ⟨root, layers, frames, told⟩ := h
  cases layers with
  | nil => exact .whole root depth told
  | @cons o l below ls hl hls =>
      obtain ⟨frame, frames⟩ := frames
      rw [← hls.length_eq] at frame
      cases l with
      | list hd block capacity front back =>
          cases o with
          | dict => simp [LayerHolds] at hl
          | list done =>
              obtain ⟨rfl, rfl⟩ := hl
              refine .inside (Layer.fill (.list hd block capacity front []) v) ls depth
                ⟨root, hls, frames, ?_⟩ ?_ frame
              · simpa [pathVisits, Layer.visits, Layer.fill, Value.openVisits, OpenScope.pending,
                  itemsVisits_append, itemsVisits] using told
              · simp [Layer.fill, ScopeHolds, itemTrees]
      | dict hd block capacity front key back =>
          cases o with
          | list done => simp [LayerHolds] at hl
          | dict done k =>
              cases k with
              | none => simp [LayerHolds] at hl
              | some k =>
                  obtain ⟨rfl, rfl, rfl⟩ := hl
                  refine .inside (Layer.fill (.dict hd block capacity front key []) v) ls depth
                    ⟨root, hls, frames, ?_⟩ ?_ frame
                  · simpa [pathVisits, Layer.visits, Layer.fill, Value.openVisits,
                      OpenScope.pending, entriesVisits_append, entriesVisits] using told
                  · simp [Layer.fill, ScopeHolds, entryTrees]

end Shape

end Bencode
