import Bencode.Spec.Tree
import Bencode.Spec.Token

/-!
# The grammar of canonical Bencode

The grammar is stated on bytes alone: it knows no trees, no cursor and no scanner.
Its sentences are exactly the encodings of canonical trees.
-/

namespace Bencode

namespace Grammar

/-! ## Literals -/

def IsDigit (b : UInt8) : Prop := '0'.toUInt8 ≤ b ∧ b ≤ '9'.toUInt8

def IsNonzeroDigit (b : UInt8) : Prop := '1'.toUInt8 ≤ b ∧ b ≤ '9'.toUInt8

instance (b : UInt8) : Decidable (IsDigit b) := inferInstanceAs (Decidable (_ ∧ _))

instance (b : UInt8) : Decidable (IsNonzeroDigit b) := inferInstanceAs (Decidable (_ ∧ _))

/-- `0`, or a nonzero digit followed by digits. -/
inductive Numeral : Bytes → Nat → Prop
  | zero : Numeral ['0'.toUInt8] 0
  | digits {d : UInt8} {ds : Bytes} (first : IsNonzeroDigit d) (more : ∀ b ∈ ds, IsDigit b) :
      Numeral (d :: ds) (Nat.ofDigits 10 ((d :: ds).map fun b => b.toNat - 48).reverse)

/-- `0`, or an optional minus and a numeral other than `0`. -/
inductive IntLiteral : Bytes → Int → Prop
  | unsigned {lit : Bytes} {n : Nat} (h : Numeral lit n) : IntLiteral lit n
  | negative {lit : Bytes} {n : Nat} (h : Numeral lit n) (nonzero : n ≠ 0) :
      IntLiteral ('-'.toUInt8 :: lit) (-n)

/-- `<len>:<bytes>` with exactly `len` bytes, paired with the bytes. -/
inductive ByteString : Bytes → Bytes → Prop
  | mk {lit payload : Bytes} (len : Numeral lit payload.length) :
      ByteString (lit ++ ':'.toUInt8 :: payload) payload

/-! ## Values -/

mutual

/-- `Value d w`: the word `w` is a value with at most `d` containers nested. -/
inductive Value : Nat → Bytes → Prop
  | int {d : Nat} {lit : Bytes} {v : Int} (h : IntLiteral lit v) (lo : -2 ^ 63 ≤ v)
      (hi : v < 2 ^ 63) : Value d ('i'.toUInt8 :: (lit ++ ['e'.toUInt8]))
  | string {d : Nat} {w payload : Bytes} (h : ByteString w payload) : Value d w
  | list {d : Nat} {w : Bytes} (h : Values d w) :
      Value (d + 1) ('l'.toUInt8 :: (w ++ ['e'.toUInt8]))
  | dict {d : Nat} {keys : List Bytes} {w : Bytes} (h : Pairs d keys w)
      (sorted : keys.Pairwise (· < ·)) : Value (d + 1) ('d'.toUInt8 :: (w ++ ['e'.toUInt8]))

inductive Values : Nat → Bytes → Prop
  | nil {d : Nat} : Values d []
  | cons {d : Nat} {v w : Bytes} (head : Value d v) (tail : Values d w) : Values d (v ++ w)

/-- Keys and values alternate; the keys are listed in order of appearance. -/
inductive Pairs : Nat → List Bytes → Bytes → Prop
  | nil {d : Nat} : Pairs d [] []
  | cons {d : Nat} {key : Bytes} {keys : List Bytes} {k v w : Bytes} (name : ByteString k key)
      (head : Value d v) (tail : Pairs d keys w) : Pairs d (key :: keys) (k ++ (v ++ w))

end

/-! ## Literals are the printed numbers -/

theorem isDigit_iff {b : UInt8} : IsDigit b ↔ Decimal.isDigit b = true := by
  simp [IsDigit, Decimal.isDigit]

theorem isNonzeroDigit_iff {b : UInt8} :
    IsNonzeroDigit b ↔ Decimal.isDigit b = true ∧ b ≠ '0'.toUInt8 := by
  rw [Decimal.isDigit_iff, IsNonzeroDigit, UInt8.le_iff_toNat_le, UInt8.le_iff_toNat_le, ne_eq,
    ← UInt8.toNat_inj]
  have h0 : ('0'.toUInt8).toNat = 48 := rfl
  have h1 : ('1'.toUInt8).toNat = 49 := rfl
  have h9 : ('9'.toUInt8).toNat = 57 := rfl
  omega

theorem Numeral.eq_format {lit : Bytes} {n : Nat} (h : Numeral lit n) : lit = formatNat n := by
  cases h with
  | zero => rfl
  | @digits d ds first more =>
      obtain ⟨hd, hne⟩ := isNonzeroDigit_iff.mp first
      have hcanon : Decimal.Canonical (d :: ds) := by
        refine ⟨by simp, ?_, fun hhead => absurd (by simpa using hhead) hne⟩
        intro b hb
        rcases List.mem_cons.mp hb with rfl | hb
        · exact hd
        · exact isDigit_iff.mp (more b hb)
      have hvalue := Decimal.value_eq_ofDigits (d :: ds)
      have hfmt := Decimal.format_value hcanon
      rw [hvalue] at hfmt
      exact hfmt.symm

theorem numeral_format (n : Nat) : Numeral (formatNat n) n := by
  by_cases hn : n = 0
  · subst hn
    exact .zero
  obtain ⟨hne, hdig, hlead⟩ := Decimal.format_canonical n
  obtain ⟨d, ds, hfmt⟩ := List.exists_cons_of_ne_nil hne
  have hvalue := Decimal.value_format n
  rw [hfmt] at hdig hlead hvalue
  rw [Decimal.value_eq_ofDigits] at hvalue
  have hd : d ≠ '0'.toUInt8 := by
    rintro rfl
    have hnil : ds = [] := by simpa using hlead rfl
    rw [hnil] at hvalue
    exact hn (hvalue.symm.trans (by decide))
  have hnum := Numeral.digits (isNonzeroDigit_iff.mpr ⟨hdig d List.mem_cons_self, hd⟩)
    fun b hb => isDigit_iff.mpr (hdig b (List.mem_cons_of_mem d hb))
  have hmap : ((d :: ds).map fun b => b.toNat - 48) = (d :: ds).map Decimal.digitVal := rfl
  rw [hmap, hvalue] at hnum
  rw [formatNat, hfmt]
  exact hnum

theorem IntLiteral.eq_format {lit : Bytes} {i : Int64} (h : IntLiteral lit i.toInt) :
    lit = formatInt i := by
  generalize hv : i.toInt = v at h
  unfold formatInt
  cases h with
  | @unsigned lit n h =>
      rw [if_neg (by omega), h.eq_format, hv]
      rfl
  | @negative lit n h nonzero =>
      rw [if_pos (by omega), h.eq_format, hv]
      simp

theorem intLiteral_format (i : Int64) : IntLiteral (formatInt i) i.toInt := by
  unfold formatInt
  split
  · next hneg =>
      have h := IntLiteral.negative (numeral_format i.toInt.natAbs) (by omega)
      have hv : -(i.toInt.natAbs : Int) = i.toInt := by omega
      rwa [hv] at h
  · next hneg =>
      have h := IntLiteral.unsigned (numeral_format i.toInt.natAbs)
      have hv : (i.toInt.natAbs : Int) = i.toInt := by omega
      rwa [hv] at h

theorem ByteString.eq_encode {w payload : Bytes} (h : ByteString w payload) :
    w = encodeString payload := by
  cases h with
  | mk len => rw [len.eq_format, encodeString]

theorem byteString_encode (payload : Bytes) : ByteString (encodeString payload) payload :=
  .mk (numeral_format payload.length)

/-! ## Sentences are the encodings of canonical trees -/

mutual

theorem Value.exists_tree {d : Nat} {w : Bytes} :
    Value d w → ∃ t : Tree, t.encode = w ∧ t.Canonical ∧ t.nesting ≤ d
  | @Value.int _ lit v h lo hi => by
      have hv : (Int64.ofInt v).toInt = v := Int64.toInt_ofInt_of_le lo hi
      refine ⟨.int (Int64.ofInt v), ?_, trivial, Nat.zero_le _⟩
      rw [← hv] at h
      rw [Tree.encode, encodeInt, h.eq_format]
  | @Value.string _ _ payload h => ⟨.string payload, h.eq_encode.symm, trivial, Nat.zero_le _⟩
  | .list h => by
      obtain ⟨ts, rfl, canonical, nesting⟩ := h.exists_trees
      exact ⟨.list ts, rfl, canonical, Nat.succ_le_succ nesting⟩
  | .dict h sorted => by
      obtain ⟨es, rfl, rfl, canonical, nesting⟩ := h.exists_entries
      exact ⟨.dict es, rfl, ⟨sorted, canonical⟩, Nat.succ_le_succ nesting⟩

theorem Values.exists_trees {d : Nat} {w : Bytes} :
    Values d w → ∃ ts, encodeItems ts = w ∧ CanonicalItems ts ∧ itemsNesting ts ≤ d
  | .nil => ⟨[], rfl, trivial, Nat.zero_le _⟩
  | .cons head tail => by
      obtain ⟨t, rfl, ht, hnest⟩ := head.exists_tree
      obtain ⟨ts, rfl, hts, hnests⟩ := tail.exists_trees
      exact ⟨t :: ts, rfl, ⟨ht, hts⟩, Nat.max_le.mpr ⟨hnest, hnests⟩⟩

theorem Pairs.exists_entries {d : Nat} {keys : List Bytes} {w : Bytes} :
    Pairs d keys w → ∃ es, encodeEntries es = w ∧ entryKeys es = keys ∧ CanonicalEntries es ∧
      entriesNesting es ≤ d
  | .nil => ⟨[], rfl, rfl, trivial, Nat.zero_le _⟩
  | @Pairs.cons _ key _ _ _ _ name head tail => by
      obtain ⟨t, rfl, ht, hnest⟩ := head.exists_tree
      obtain ⟨es, rfl, rfl, hes, hnests⟩ := tail.exists_entries
      refine ⟨(key, t) :: es, ?_, rfl, ⟨ht, hes⟩, Nat.max_le.mpr ⟨hnest, hnests⟩⟩
      rw [encodeEntries, name.eq_encode]

end

mutual

theorem value_encode (t : Tree) {d : Nat} (canonical : t.Canonical) (nesting : t.nesting ≤ d) :
    Value d t.encode := by
  cases t with
  | int i => exact .int (intLiteral_format i) i.le_toInt i.toInt_lt
  | string bytes => exact .string (byteString_encode bytes)
  | list items =>
      obtain ⟨d, rfl⟩ : ∃ d', d = d' + 1 := ⟨d - 1, by simp only [Tree.nesting] at nesting; omega⟩
      exact .list (values_encode items canonical (Nat.le_of_succ_le_succ nesting))
  | dict entries =>
      obtain ⟨d, rfl⟩ : ∃ d', d = d' + 1 := ⟨d - 1, by simp only [Tree.nesting] at nesting; omega⟩
      exact .dict (pairs_encode entries canonical.2 (Nat.le_of_succ_le_succ nesting)) canonical.1

theorem values_encode (ts : List Tree) {d : Nat} (canonical : CanonicalItems ts)
    (nesting : itemsNesting ts ≤ d) : Values d (encodeItems ts) := by
  cases ts with
  | nil => exact .nil
  | cons t ts =>
      obtain ⟨hhead, htail⟩ := Nat.max_le.mp nesting
      exact .cons (value_encode t canonical.1 hhead) (values_encode ts canonical.2 htail)

theorem pairs_encode (es : List (Bytes × Tree)) {d : Nat} (canonical : CanonicalEntries es)
    (nesting : entriesNesting es ≤ d) : Pairs d (entryKeys es) (encodeEntries es) := by
  cases es with
  | nil => exact .nil
  | cons e es =>
      obtain ⟨k, t⟩ := e
      obtain ⟨hhead, htail⟩ := Nat.max_le.mp nesting
      exact .cons (byteString_encode k) (value_encode t canonical.1 hhead)
        (pairs_encode es canonical.2 htail)

end

/-- The sentences of the grammar are the encodings of canonical trees. -/
theorem value_iff {d : Nat} {w : Bytes} :
    Value d w ↔ ∃ t : Tree, t.encode = w ∧ t.Canonical ∧ t.nesting ≤ d := by
  constructor
  · exact Value.exists_tree
  · rintro ⟨t, rfl, canonical, nesting⟩
    exact value_encode t canonical nesting

end Grammar

end Bencode
