import Bencode.Spec.Completeness

/-!
# What a tree means

A dict is a finite map from byte strings: the order in which it is stored is not part
of what it means. Canonical trees with one meaning are the same tree, so the canonical
encoding of a meaning is unique, and no encoding is the beginning of another.
-/

namespace Bencode

/-- Bencode values up to structural equality, with dicts as maps. -/
inductive Meaning
  | int (i : Int64)
  | string (bytes : Bytes)
  | list (items : List Meaning)
  | dict (values : Bytes → Option Meaning)

mutual

def Tree.meaning : Tree → Meaning
  | .int i => .int i
  | .string bytes => .string bytes
  | .list items => .list (itemsMeaning items)
  | .dict entries => .dict (entriesMeaning entries)

def itemsMeaning : List Tree → List Meaning
  | [] => []
  | t :: ts => t.meaning :: itemsMeaning ts

def entriesMeaning : List (Bytes × Tree) → Bytes → Option Meaning
  | [], _ => none
  | (k, t) :: es, l => if l = k then some t.meaning else entriesMeaning es l

end

/-! ## Maps of sorted entries -/

theorem entriesMeaning_none {es : List (Bytes × Tree)} {k : Bytes} (h : k ∉ entryKeys es) :
    entriesMeaning es k = none := by
  induction es with
  | nil => rfl
  | cons e es ih =>
      obtain ⟨l, t⟩ := e
      rw [entryKeys, List.map_cons, List.mem_cons, not_or] at h
      rw [entriesMeaning, if_neg h.1, ih h.2]

theorem entriesMeaning_head (k : Bytes) (t : Tree) (es : List (Bytes × Tree)) :
    entriesMeaning ((k, t) :: es) k = some t.meaning := if_pos rfl

theorem not_mem_tail {k : Bytes} {t : Tree} {es : List (Bytes × Tree)}
    (sorted : (entryKeys ((k, t) :: es)).Pairwise (· < ·)) {l : Bytes} (hl : l ≤ k) :
    l ∉ entryKeys es := fun hmem =>
  absurd ((List.pairwise_cons.mp sorted).1 l hmem) (not_lt.mpr hl)

theorem entriesMeaning_below {k : Bytes} {t : Tree} {es : List (Bytes × Tree)}
    (sorted : (entryKeys ((k, t) :: es)).Pairwise (· < ·)) {l : Bytes} (hl : l < k) :
    entriesMeaning ((k, t) :: es) l = none := by
  rw [entriesMeaning, if_neg hl.ne, entriesMeaning_none (not_mem_tail sorted hl.le)]

/-! ## Canonical trees -/

mutual

/-- Canonical trees with one meaning are the same. -/
theorem Tree.meaning_injective (t u : Tree) (ht : t.Canonical) (hu : u.Canonical)
    (h : t.meaning = u.meaning) : t = u := by
  cases t with
  | int i =>
      cases u with
      | int j =>
          cases h
          rfl
      | string => cases h
      | list => cases h
      | dict => cases h
  | string bytes =>
      cases u with
      | int => cases h
      | string bytes' =>
          cases h
          rfl
      | list => cases h
      | dict => cases h
  | list items =>
      cases u with
      | int => cases h
      | string => cases h
      | list items' =>
          rw [Tree.meaning, Tree.meaning, Meaning.list.injEq] at h
          rw [itemsMeaning_injective items items' ht hu h]
      | dict => cases h
  | dict entries =>
      cases u with
      | int => cases h
      | string => cases h
      | list => cases h
      | dict entries' =>
          rw [Tree.meaning, Tree.meaning, Meaning.dict.injEq] at h
          rw [entriesMeaning_injective entries entries' ht.1 hu.1 ht.2 hu.2 (congrFun h)]

theorem itemsMeaning_injective (ts us : List Tree) (ht : CanonicalItems ts)
    (hu : CanonicalItems us) (h : itemsMeaning ts = itemsMeaning us) : ts = us := by
  cases ts with
  | nil =>
      cases us with
      | nil => rfl
      | cons => cases h
  | cons t ts =>
      cases us with
      | nil => cases h
      | cons u us =>
          rw [itemsMeaning, itemsMeaning, List.cons.injEq] at h
          rw [t.meaning_injective u ht.1 hu.1 h.1, itemsMeaning_injective ts us ht.2 hu.2 h.2]

theorem entriesMeaning_injective (es fs : List (Bytes × Tree))
    (sorted : (entryKeys es).Pairwise (· < ·)) (sorted' : (entryKeys fs).Pairwise (· < ·))
    (he : CanonicalEntries es) (hf : CanonicalEntries fs)
    (h : ∀ k, entriesMeaning es k = entriesMeaning fs k) : es = fs := by
  cases es with
  | nil =>
      cases fs with
      | nil => rfl
      | cons f fs =>
          obtain ⟨l, u⟩ := f
          have hl := h l
          rw [entriesMeaning_head] at hl
          cases hl
  | cons e es =>
      obtain ⟨k, t⟩ := e
      have hk := h k
      rw [entriesMeaning_head] at hk
      cases fs with
      | nil => cases hk
      | cons f fs =>
          obtain ⟨l, u⟩ := f
          have hl := h l
          rw [entriesMeaning_head] at hl
          rcases lt_trichotomy k l with hlt | rfl | hgt
          · rw [entriesMeaning_below sorted' hlt] at hk
            cases hk
          · rw [entriesMeaning_head, Option.some.injEq] at hk
            rw [t.meaning_injective u he.1 hf.1 hk]
            congr 1
            refine entriesMeaning_injective es fs (List.pairwise_cons.mp sorted).2
              (List.pairwise_cons.mp sorted').2 he.2 hf.2 fun i => ?_
            by_cases hi : i = k
            · rw [hi, entriesMeaning_none (not_mem_tail sorted le_rfl),
                entriesMeaning_none (not_mem_tail sorted' le_rfl)]
            · have hrest := h i
              rwa [entriesMeaning, entriesMeaning, if_neg hi, if_neg hi] at hrest
          · rw [entriesMeaning_below sorted hgt] at hl
            cases hl

end

/-! ## Encodings of meanings -/

/-- Canonical encodings are equal exactly when the trees mean the same, and neither is a proper
beginning of the other. -/
theorem Tree.encode_meaning {t u : Tree} (ht : t.Canonical) (ht' : t.Fits) (hu : u.Canonical)
    (hu' : u.Fits) :
    (t.encode = u.encode ↔ t.meaning = u.meaning) ∧
      (t.encode <+: u.encode → t.encode = u.encode) := by
  refine ⟨⟨fun h => ?_, fun h => ?_⟩, ?_⟩
  · have hsame : t.encode ++ [] = u.encode ++ [] := by rw [h]
    rw [(Tree.encode_injective ht ht' hu hu' hsame).1]
  · rw [t.meaning_injective u ht hu h]
  · rintro ⟨z, hz⟩
    have hsame : t.encode ++ z = u.encode ++ [] := by rw [hz, List.append_nil]
    rw [(Tree.encode_injective ht ht' hu hu' hsame).1]

end Bencode
