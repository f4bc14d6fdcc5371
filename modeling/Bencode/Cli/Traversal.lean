import Bencode.Cli.Output
import Bencode.Source.Traversal

/-!
# No accessor fails while a tree is printed or tallied

Reading a tree by index finds every child once and in order. The branches for null pointers
and for failing accessors are dead, so printing fails only if the stream does.
-/

namespace Bencode

open OutStream

variable {d : Device}

/-! ## Loops over indices -/

/-- A loop over indices is the recursion over the list, when each round prints the element at its
index and the recursion does the same. -/
theorem eachIndex_eq {α : Type} {round : Nat → OutStream d → Bool × OutStream d} (xs : List α)
    (printAll : List α → OutStream d → Bool × OutStream d)
    (nil : ∀ out, printAll [] out = (true, out))
    (cons : ∀ i x rest out, xs.drop i = x :: rest →
      printAll (x :: rest) out = andThen (round i out) (printAll rest))
    {k i : Nat} (bounds : i + k = xs.length) (out : OutStream d) :
    eachIndex round k i out = printAll (xs.drop i) out := by
  induction k generalizing i out with
  | zero =>
      rw [List.drop_of_length_le (by omega), nil]
      rfl
  | succ k ih =>
      have hi : i < xs.length := by omega
      have hdrop := List.drop_eq_getElem_cons hi
      have hrest : eachIndex round k (i + 1) = printAll (xs.drop (i + 1)) := by
        funext out
        exact ih (by omega) out
      rw [eachIndex, hdrop, cons i _ _ out hdrop, hrest]

theorem foldl_range_eq {α σ : Type} {round : σ → Nat → σ} (xs : List α)
    (tallyAll : List α → σ → σ)
    (nil : ∀ st, tallyAll [] st = st)
    (cons : ∀ i x rest st, xs.drop i = x :: rest →
      tallyAll (x :: rest) st = tallyAll rest (round st i))
    {k i : Nat} (bounds : i + k = xs.length) (st : σ) :
    (List.range' i k).foldl round st = tallyAll (xs.drop i) st := by
  induction k generalizing i st with
  | zero =>
      rw [List.drop_of_length_le (by omega), nil]
      rfl
  | succ k ih =>
      have hi : i < xs.length := by omega
      have hdrop := List.drop_eq_getElem_cons hi
      rw [List.range'_succ, List.foldl_cons, hdrop, cons i _ _ st hdrop, ih (by omega)]

/-! ## Accessors -/

section Accessors

variable {α : Type} {xs rest : List α} {x : α} {i : Nat}

theorem getElem?_of_drop (h : xs.drop i = x :: rest) : xs[i]? = some x := by
  have hhead : (xs.drop i)[0]? = some x := by rw [h]; rfl
  rwa [List.getElem?_drop, Nat.add_zero] at hhead

theorem lt_of_drop (h : xs.drop i = x :: rest) : i < xs.length :=
  (List.getElem?_eq_some_iff.mp (getElem?_of_drop h)).1

theorem separatorAt_eq (h : xs.drop i = x :: rest) : separatorAt i xs.length = separator rest := by
  have hlen := congrArg List.length h
  rw [List.length_drop, List.length_cons] at hlen
  unfold separatorAt separator
  cases rest with
  | nil =>
      rw [List.length_nil] at hlen
      exact if_neg (by omega)
  | cons y rest =>
      rw [List.length_cons] at hlen
      exact if_pos (by omega)

end Accessors

theorem bencodeListAt_drop {h : Header} {s : Slots Value} {i : Nat} {v : Value} {rest : List Value}
    (hdrop : s.items.drop i = v :: rest) : bencodeListAt (some (.list h s)) i = some v := by
  have hlt := lt_of_drop hdrop
  rw [bencodeListAt, if_neg (by omega), getElem?_of_drop hdrop]

theorem bencodeDictAt_drop {h : Header} {s : Slots (Entry Value)} {i : Nat} {e : Entry Value}
    {rest : List (Entry Value)} (hdrop : s.items.drop i = e :: rest) :
    bencodeDictAt (some (.dict h s)) i = (.ok, some (e.key.span, e.value)) := by
  rw [bencodeDictAt, getElem?_of_drop hdrop]

theorem KeyCopy.bytes_span (key : KeyCopy) : key.span.bytes = key.bytes := by
  cases key <;> rfl

theorem KeyCopy.len_span (key : KeyCopy) : key.span.len = key.len := by
  cases key <;> rfl

/-! ## Whole trees -/

theorem itemsNesting_le (bufs : Buffers) {vs : List Value} {v : Value} (h : v ∈ vs) :
    (v.tree bufs).nesting ≤ itemsNesting (itemTrees bufs vs) := by
  induction vs with
  | nil => cases h
  | cons w ws ih =>
      rw [itemTrees, itemsNesting]
      rcases List.mem_cons.mp h with rfl | h
      · exact Nat.le_max_left _ _
      · exact (ih h).trans (Nat.le_max_right _ _)

theorem entriesNesting_le (bufs : Buffers) {es : List (Entry Value)} {e : Entry Value}
    (h : e ∈ es) : (e.value.tree bufs).nesting ≤ entriesNesting (entryTrees bufs es) := by
  induction es with
  | nil => cases h
  | cons f fs ih =>
      obtain ⟨key, v⟩ := f
      rw [entryTrees, entriesNesting]
      rcases List.mem_cons.mp h with rfl | h
      · exact Nat.le_max_left _ _
      · exact (ih h).trans (Nat.le_max_right _ _)

theorem mem_of_drop {α : Type} {xs rest : List α} {x : α} {i : Nat} (h : xs.drop i = x :: rest) :
    x ∈ xs := List.mem_of_mem_drop (h ▸ List.mem_cons_self)

theorem printPointer_eq (bufs : Buffers) {fuel : Nat} {v : Value}
    (enough : (v.tree bufs).nesting < fuel) (depth : Nat) (out : OutStream d) :
    printPointer bufs fuel (some v) depth out = printValue bufs v depth out := by
  induction fuel generalizing v depth out with
  | zero => exact absurd enough (Nat.not_lt_zero _)
  | succ fuel ih =>
      cases v with
      | int h i => rfl
      | string h str => rfl
      | list h slots =>
          obtain ⟨block, capacity, items⟩ := slots
          have hdeep : itemsNesting (itemTrees bufs items) < fuel := Nat.lt_of_succ_lt_succ enough
          have hrounds : ∀ out : OutStream d,
              eachIndex (printListRound (fun child => printPointer bufs fuel child (depth + 1))
                (some (.list h ⟨block, capacity, items⟩)) depth) items.length 0 out =
                  printItems bufs items depth out := by
            intro out
            refine eachIndex_eq items (fun vs => printItems bufs vs depth) (fun _ => rfl) ?_
              (Nat.zero_add _) out
            intro i v rest out hdrop
            have hv := (itemsNesting_le bufs (mem_of_drop hdrop)).trans_lt hdeep
            have hat := bencodeListAt_drop (h := h) (s := ⟨block, capacity, items⟩) hdrop
            have hprint : printPointer bufs fuel (some v) (depth + 1) =
                printValue bufs v (depth + 1) (d := d) := funext (ih hv (depth + 1))
            unfold printListRound
            rw [hat, printItems, andThen_assoc]
            simp only [andThen_assoc, hprint, bencodeListSize, separatorAt_eq hdrop]
          show printList _ _ depth out = _
          unfold printList
          simp only [bencodeListSize, hrounds]
          rw [printValue]
          cases items with
          | nil => rfl
          | cons v vs => rfl
      | dict h slots =>
          obtain ⟨block, capacity, entries⟩ := slots
          have hdeep : entriesNesting (entryTrees bufs entries) < fuel :=
            Nat.lt_of_succ_lt_succ enough
          have hrounds : ∀ out : OutStream d,
              eachIndex (printDictRound (fun child => printPointer bufs fuel child (depth + 1))
                (some (.dict h ⟨block, capacity, entries⟩)) depth) entries.length 0 out =
                  printEntries bufs entries depth out := by
            intro out
            refine eachIndex_eq entries (fun es => printEntries bufs es depth) (fun _ => rfl) ?_
              (Nat.zero_add _) out
            intro i e rest out hdrop
            obtain ⟨key, v⟩ := e
            have hv := (entriesNesting_le bufs (mem_of_drop hdrop)).trans_lt hdeep
            have hat := bencodeDictAt_drop (h := h) (s := ⟨block, capacity, entries⟩) hdrop
            have hprint : printPointer bufs fuel (some v) (depth + 1) =
                printValue bufs v (depth + 1) (d := d) := funext (ih hv (depth + 1))
            unfold printDictRound
            rw [hat, printEntries]
            simp only [andThen_assoc, hprint, key.bytes_span, bencodeDictSize,
              separatorAt_eq hdrop]
          show printDict _ _ depth out = _
          unfold printDict
          simp only [bencodeDictSize, hrounds]
          rw [printValue]
          cases entries with
          | nil => rfl
          | cons e es => rfl

theorem walkPointer_eq (bufs : Buffers) {fuel : Nat} {v : Value}
    (enough : (v.tree bufs).nesting < fuel) (st : Stats) (depth : Nat) :
    walkPointer bufs fuel (some v) st depth = walk bufs v st depth := by
  induction fuel generalizing v st depth with
  | zero => exact absurd enough (Nat.not_lt_zero _)
  | succ fuel ih =>
      cases v with
      | int h i => rfl
      | string h str => rfl
      | list h slots =>
          obtain ⟨block, capacity, items⟩ := slots
          have hdeep : itemsNesting (itemTrees bufs items) < fuel := Nat.lt_of_succ_lt_succ enough
          show (List.range items.length).foldl _ (st.enter depth).addList = _
          rw [walk, List.range_eq_range']
          refine foldl_range_eq items (fun vs st => walkItems bufs vs st depth) (fun _ => rfl) ?_
            (Nat.zero_add _) _
          intro i v rest st hdrop
          have hv := (itemsNesting_le bufs (mem_of_drop hdrop)).trans_lt hdeep
          rw [bencodeListAt_drop (h := h) (s := ⟨block, capacity, items⟩) hdrop, ih hv, walkItems]
      | dict h slots =>
          obtain ⟨block, capacity, entries⟩ := slots
          have hdeep : entriesNesting (entryTrees bufs entries) < fuel :=
            Nat.lt_of_succ_lt_succ enough
          show (List.range entries.length).foldl _ (st.enter depth).addDict = _
          rw [walk, List.range_eq_range']
          refine foldl_range_eq entries (fun es st => walkEntries bufs es st depth) (fun _ => rfl)
            ?_ (Nat.zero_add _) _
          intro i e rest st hdrop
          obtain ⟨key, v⟩ := e
          have hv := (entriesNesting_le bufs (mem_of_drop hdrop)).trans_lt hdeep
          rw [walkDictRound, bencodeDictAt_drop (h := h) (s := ⟨block, capacity, entries⟩) hdrop]
          dsimp only
          rw [ih hv, key.len_span, walkEntries]

/-- Through the accessors, with enough rounds for the nesting of the tree, `print_value` puts the
rendering of the tree on the stream and returns -1 only if the stream does, and `walk` adds the
tally of the tree. -/
theorem accessors_never_fail (bufs : Buffers) (v : Value) {fuel : Nat}
    (enough : (v.tree bufs).nesting < fuel) (depth : Nat) (out : OutStream d) (st : Stats) :
    printPointer bufs fuel (some v) depth out = fputs ((v.tree bufs).rendering depth) out ∧
      walkPointer bufs fuel (some v) st depth = (v.tree bufs).walk st depth := by
  rw [printPointer_eq bufs enough, walkPointer_eq bufs enough]
  exact ⟨printValue_eq bufs v depth out, walk_eq bufs v st depth⟩

/-- The list of the integer 7. -/
theorem accessors_never_fail_list :
    printPointer (fun _ => []) 2 (some (.list ⟨⟨.platform, 0, 40⟩, none⟩
        ⟨some ⟨.platform, 2, 32⟩, 4, [.int ⟨⟨.platform, 1, 40⟩, none⟩ 7]⟩)) 0
        (opened ⟨4096, by decide, fun _ => none, false⟩) =
      (true, ⟨0, [91, 10, 32, 32, 55, 10, 93], []⟩) := by
  have h := (accessors_never_fail (fun _ => []) (.list ⟨⟨.platform, 0, 40⟩, none⟩
    ⟨some ⟨.platform, 2, 32⟩, 4, [.int ⟨⟨.platform, 1, 40⟩, none⟩ 7]⟩) (by decide : _ < 2) 0
    (opened ⟨4096, by decide, fun _ => none, false⟩) .zero).1
  rw [h]
  rfl

end Bencode
