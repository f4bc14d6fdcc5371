import Mathlib.Data.List.Sort
import Mathlib.Order.Basic

/-! # Lists of keyed elements as finite maps

A list whose elements carry distinct keys is a finite map. Inserting an element with
a new key anywhere, or storing another one in place of an element with its key, both
change the map at that key only. Two sorted lists that are the same map are equal.
-/

namespace KeyedList

variable {κ α : Type} [DecidableEq κ] {key : α → κ} {xs ys : List α}

def lookup (key : α → κ) (xs : List α) (k : κ) : Option α := xs.find? fun x => key x = k

theorem lookup_eq_none {k : κ} : lookup key xs k = none ↔ k ∉ xs.map key := by
  simp [lookup, List.find?_eq_none]

theorem lookup_cons (x : α) (xs : List α) (k : κ) :
    lookup key (x :: xs) k = if key x = k then some x else lookup key xs k := by
  by_cases h : key x = k
  · rw [if_pos h, lookup, List.find?_cons_of_pos (by simpa using h)]
  · rw [if_neg h, lookup, List.find?_cons_of_neg (by simpa using h), lookup]

theorem lookup_append (xs ys : List α) (k : κ) :
    lookup key (xs ++ ys) k = (lookup key xs k).or (lookup key ys k) := List.find?_append

theorem lookup_key {k : κ} {x : α} (h : lookup key xs k = some x) : x ∈ xs ∧ key x = k :=
  ⟨List.mem_of_find?_eq_some h, by simpa using List.find?_some h⟩

/-- An element with a key of its own may stand anywhere. -/
theorem lookup_between (front back : List α) {x : α} (new : key x ∉ front.map key) (k : κ) :
    lookup key (front ++ x :: back) k =
      if key x = k then some x else lookup key (front ++ back) k := by
  rw [lookup_append, lookup_cons, lookup_append]
  by_cases h : key x = k
  · rw [if_pos h, if_pos h, lookup_eq_none.mpr (h ▸ new), Option.none_or]
  · rw [if_neg h, if_neg h]

theorem lookup_insert (i : Nat) {x : α} (new : key x ∉ xs.map key) (k : κ) :
    lookup key (xs.take i ++ x :: xs.drop i) k =
      if key x = k then some x else lookup key xs k := by
  rw [lookup_between, List.take_append_drop]
  exact fun h => new (List.map_subset _ (List.take_subset i xs) h)

theorem lookup_set {i : Nat} {x old : α} (nodup : (xs.map key).Nodup) (hi : xs[i]? = some old)
    (same : key x = key old) (k : κ) :
    lookup key (xs.set i x) k = if key x = k then some x else lookup key xs k := by
  obtain ⟨hlt, hold⟩ := List.getElem?_eq_some_iff.mp hi
  have hxs : xs = xs.take i ++ old :: xs.drop (i + 1) := by
    rw [← hold, ← List.drop_eq_getElem_cons hlt, List.take_append_drop]
  have hset : xs.set i x = xs.take i ++ x :: xs.drop (i + 1) := by
    rw [List.set_eq_take_append_cons_drop, if_pos hlt]
  have hnew : key old ∉ (xs.take i).map key := by
    rw [hxs, List.map_append, List.map_cons, List.nodup_append] at nodup
    exact fun hmem => nodup.2.2 _ hmem _ List.mem_cons_self rfl
  have hlookup := lookup_between (xs.take i) (xs.drop (i + 1)) hnew k
  rw [← hxs] at hlookup
  rw [hset, lookup_between _ _ (same ▸ hnew), hlookup, same]
  by_cases h : key old = k
  · rw [if_pos h, if_pos h]
  · simp only [if_neg h]

theorem lookup_mem (nodup : (xs.map key).Nodup) {x : α} :
    lookup key xs (key x) = some x ↔ x ∈ xs := by
  constructor
  · exact fun h => (lookup_key h).1
  · intro hx
    cases h : lookup key xs (key x) with
    | none => exact absurd (List.mem_map_of_mem hx) (lookup_eq_none.mp h)
    | some y =>
        obtain ⟨hy, hkey⟩ := lookup_key h
        rw [List.inj_on_of_nodup_map nodup hy hx hkey]

/-- Sorted lists that agree as maps are the same list. -/
theorem sorted_ext [Preorder κ] (hx : (xs.map key).Pairwise (· < ·))
    (hy : (ys.map key).Pairwise (· < ·)) (h : ∀ k, lookup key xs k = lookup key ys k) :
    xs = ys := by
  have hx' : (xs.map key).Nodup := hx.imp ne_of_lt
  have hy' : (ys.map key).Nodup := hy.imp ne_of_lt
  have hperm : xs.Perm ys := by
    rw [List.perm_ext_iff_of_nodup hx'.of_map hy'.of_map]
    intro x
    rw [← lookup_mem hx', ← lookup_mem hy', h]
  refine hperm.eq_of_pairwise ?_ (List.pairwise_map.mp hx) (List.pairwise_map.mp hy)
  intro a b _ _ hab hba
  exact absurd (hab.trans hba) (lt_irrefl _)

/-! ## Sorted lists -/

section Sorted

variable [Preorder κ] [DecidableLT κ]

/-- Put `x` in its place, or in the place of the element with its key. -/
def put (key : α → κ) (x : α) : List α → List α
  | [] => [x]
  | y :: ys =>
      if key y = key x then x :: ys
      else if key x < key y then x :: y :: ys
      else y :: put key x ys

theorem put_append {front : List α} {x : α} (below : ∀ y ∈ front, key y < key x)
    (back : List α) : put key x (front ++ back) = front ++ put key x back := by
  induction front with
  | nil => rfl
  | cons y front ih =>
      have hlt := below y List.mem_cons_self
      rw [List.cons_append, put, if_neg hlt.ne, if_neg hlt.asymm,
        ih fun z hz => below z (List.mem_cons_of_mem y hz), List.cons_append]

theorem put_replaces {front : List α} {x old : α} (below : ∀ y ∈ front, key y < key x)
    (same : key old = key x) (back : List α) :
    put key x (front ++ old :: back) = front ++ x :: back := by
  rw [put_append below, put, if_pos same]

theorem put_inserts {front back : List α} {x : α} (below : ∀ y ∈ front, key y < key x)
    (above : ∀ y ∈ back, key x < key y) : put key x (front ++ back) = front ++ x :: back := by
  rw [put_append below]
  cases back with
  | nil => rfl
  | cons y back =>
      have hlt := above y List.mem_cons_self
      rw [put, if_neg hlt.ne', if_pos hlt]

end Sorted

end KeyedList
