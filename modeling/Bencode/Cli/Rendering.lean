import Bencode.Cli.Output
import Bencode.Client.DeskRuns
import Bencode.Library.PrefixCode
import Bencode.Spec.Token

/-!
# The rendering can be read back

Escapes are a prefix code that no quote begins, and the first byte of a rendering tells
the kind of the tree. A tree and what follows it can therefore be read off a text, as
long as no digit follows, and two trees that print alike are one.
-/

namespace Bencode

open OutStream PrefixCode

/-! ## Strings -/

theorem hexDigit_injective : ∀ m < 16, ∀ n < 16, hexDigit m = hexDigit n → m = n := by
  decide

inductive EscapedAs (b : UInt8) : Bytes → Prop
  | marked (mark : b = '\x22'.toUInt8 ∨ b = '\x5c'.toUInt8) : EscapedAs b ['\x5c'.toUInt8, b]
  | plain (mark : ¬ (b = '\x22'.toUInt8 ∨ b = '\x5c'.toUInt8)) : EscapedAs b [b]
  | hex : EscapedAs b
      ['\x5c'.toUInt8, 'x'.toUInt8, hexDigit (b.toNat / 16), hexDigit (b.toNat % 16)]

theorem escaped_as (b : UInt8) : EscapedAs b (escaped b) := by
  unfold escaped
  split
  · next mark => exact .marked mark
  · next mark =>
      split
      · exact .plain mark
      · exact .hex

theorem escaped_avoids : Avoids escaped '\x22'.toUInt8 := by
  intro b z z' h
  have hshape := escaped_as b
  generalize escaped b = w at h hshape
  cases hshape with
  | marked mark => exact absurd (List.cons.inj h).1 (by decide)
  | plain mark => exact mark (.inl (List.cons.inj h).1)
  | hex => exact absurd (List.cons.inj h).1 (by decide)

theorem escaped_prefixCode : IsPrefixCode escaped := by
  have hx : ∀ b : UInt8, b = '\x22'.toUInt8 ∨ b = '\x5c'.toUInt8 → b ≠ 'x'.toUInt8 := by
    rintro b (rfl | rfl) <;> decide
  intro b c z z' h
  have hb := escaped_as b
  have hc := escaped_as c
  generalize escaped b = w at h hb
  generalize escaped c = w' at h hc
  cases hb with
  | marked mark =>
      cases hc with
      | marked mark' =>
          obtain ⟨-, hrest⟩ := List.cons.inj h
          exact List.cons.inj hrest
      | plain mark' => exact absurd (.inr (List.cons.inj h).1.symm) mark'
      | hex =>
          obtain ⟨-, hrest⟩ := List.cons.inj h
          exact absurd (List.cons.inj hrest).1 (hx b mark)
  | plain mark =>
      cases hc with
      | marked mark' => exact absurd (.inr (List.cons.inj h).1) mark
      | plain mark' => exact List.cons.inj h
      | hex => exact absurd (.inr (List.cons.inj h).1) mark
  | hex =>
      cases hc with
      | marked mark' =>
          obtain ⟨-, hrest⟩ := List.cons.inj h
          exact absurd (List.cons.inj hrest).1.symm (hx c mark')
      | plain mark' => exact absurd (.inr (List.cons.inj h).1.symm) mark'
      | hex =>
          simp only [List.cons_append, List.nil_append, List.cons.injEq, true_and] at h
          obtain ⟨hhigh, hlow, hz⟩ := h
          have hbound : ∀ a : UInt8, a.toNat / 16 < 16 ∧ a.toNat % 16 < 16 := by
            intro a
            have := a.toNat_lt
            omega
          have hdiv := hexDigit_injective _ (hbound b).1 _ (hbound c).1 hhigh
          have hmod := hexDigit_injective _ (hbound b).2 _ (hbound c).2 hlow
          refine ⟨UInt8.toNat_inj.mp ?_, hz⟩
          omega

theorem quoted_cancel {a b z z' : Bytes} (h : quoted a ++ z = quoted b ++ z') :
    a = b ∧ z = z' := by
  simp only [quoted, List.cons_append, List.append_assoc, List.cons.injEq, true_and,
    List.nil_append] at h
  exact flatMap_cancel escaped_prefixCode escaped_avoids h

/-! ## Numbers -/

theorem formatNat_cancel {m n : Nat} {z z' : Bytes} (hz : startsWithDigit z = false)
    (hz' : startsWithDigit z' = false) (h : formatNat m ++ z = formatNat n ++ z') :
    m = n ∧ z = z' := by
  have hm := scanNat_format hz (Nat.le_max_left m n)
  have hn := scanNat_format hz' (Nat.le_max_right m n)
  rw [h, hn] at hm
  simp only [Token.ok.injEq] at hm
  exact ⟨hm.1.symm, hm.2.symm⟩

theorem formatInt_head (i : Int64) :
    ∃ b bs, formatInt i = b :: bs ∧
      (isDigit b = true ∧ ¬ i.toInt < 0 ∨ b = '-'.toUInt8 ∧ i.toInt < 0) := by
  unfold formatInt
  split
  · next hneg => exact ⟨_, _, rfl, .inr ⟨rfl, hneg⟩⟩
  · next hpos =>
      obtain ⟨b, bs, hfmt⟩ := List.exists_cons_of_ne_nil (Decimal.format_ne_nil i.toInt.natAbs)
      have hmem : b ∈ Decimal.format i.toInt.natAbs := by
        rw [hfmt]
        exact List.mem_cons_self
      exact ⟨b, bs, hfmt, .inl ⟨Decimal.format_digits hmem, hpos⟩⟩

theorem formatInt_cancel {i j : Int64} {z z' : Bytes} (hz : startsWithDigit z = false)
    (hz' : startsWithDigit z' = false) (h : formatInt i ++ z = formatInt j ++ z') :
    i = j ∧ z = z' := by
  have hsign : i.toInt < 0 ↔ j.toInt < 0 := by
    obtain ⟨b, bs, hfi, hb⟩ := formatInt_head i
    obtain ⟨c, cs, hfj, hc⟩ := formatInt_head j
    rw [hfi, hfj] at h
    have hbc : b = c := (List.cons.inj h).1
    subst hbc
    have hminus : isDigit '-'.toUInt8 = false := by decide
    rcases hb with ⟨hb, hi⟩ | ⟨rfl, hi⟩
    · rcases hc with ⟨-, hj⟩ | ⟨rfl, -⟩
      · exact iff_of_false hi hj
      · rw [hminus] at hb
        cases hb
    · rcases hc with ⟨hc, -⟩ | ⟨-, hj⟩
      · rw [hminus] at hc
        cases hc
      · exact iff_of_true hi hj
  have hnat : i.toInt.natAbs = j.toInt.natAbs ∧ z = z' := by
    unfold formatInt at h
    by_cases hneg : i.toInt < 0
    · rw [if_pos hneg, if_pos (hsign.mp hneg)] at h
      exact formatNat_cancel hz hz' (List.cons.inj h).2
    · rw [if_neg hneg, if_neg (fun hj => hneg (hsign.mpr hj))] at h
      exact formatNat_cancel hz hz' h
  refine ⟨Int64.toInt_inj.mp ?_, hnat.2⟩
  omega

/-! ## Trees -/

/-- The type that the first byte of a rendering tells. -/
def leadType (b : UInt8) : ValueType :=
  if b = '\x22'.toUInt8 then .string
  else if b = '['.toUInt8 then .list
  else if b = '\x7b'.toUInt8 then .dict
  else .int

def Tree.type : Tree → ValueType
  | .int _ => .int
  | .string _ => .string
  | .list _ => .list
  | .dict _ => .dict

theorem leadType_number {b : UInt8} (h : isDigit b = true ∨ b = '-'.toUInt8) :
    leadType b = .int := by
  have hne : ∀ c : UInt8, isDigit c = false → c ≠ '-'.toUInt8 → b ≠ c := by
    intro c hc hminus heq
    rw [heq, hc] at h
    exact h.elim (fun hd => Bool.noConfusion hd) hminus
  unfold leadType
  rw [if_neg (hne _ (by decide) (by decide)), if_neg (hne _ (by decide) (by decide)),
    if_neg (hne _ (by decide) (by decide))]

theorem rendering_lead (t : Tree) (depth : Nat) :
    ∃ b bs, t.rendering depth = b :: bs ∧ leadType b = t.type := by
  have hstring : leadType '\x22'.toUInt8 = .string := by decide
  have hlist : leadType '['.toUInt8 = .list := by decide
  have hdict : leadType '\x7b'.toUInt8 = .dict := by decide
  cases t with
  | int i =>
      obtain ⟨b, bs, hfmt, hb⟩ := formatInt_head i
      exact ⟨b, bs, hfmt, leadType_number (hb.imp And.left And.left)⟩
  | string bytes => exact ⟨_, _, rfl, hstring⟩
  | list items =>
      cases items with
      | nil => exact ⟨_, _, rfl, hlist⟩
      | cons u us => exact ⟨_, _, rfl, hlist⟩
  | dict entries =>
      cases entries with
      | nil => exact ⟨_, _, rfl, hdict⟩
      | cons e es => exact ⟨_, _, rfl, hdict⟩

theorem rendering_type {t u : Tree} {depth : Nat} {z z' : Bytes}
    (h : t.rendering depth ++ z = u.rendering depth ++ z') : t.type = u.type := by
  obtain ⟨b, bs, ht, hb⟩ := rendering_lead t depth
  obtain ⟨c, cs, hu, hc⟩ := rendering_lead u depth
  rw [ht, hu] at h
  have hbc : b = c := (List.cons.inj h).1
  rw [← hb, ← hc, hbc]

theorem separator_stops {α : Type} (more : List α) (z : Bytes) :
    startsWithDigit (separator more ++ z) = false := by
  cases more with
  | nil =>
      show isDigit '\n'.toUInt8 = false
      decide
  | cons a more =>
      show isDigit ','.toUInt8 = false
      decide

theorem separator_cancel {α : Type} {more more' : List α} {z z' : Bytes}
    (h : separator more ++ z = separator more' ++ z') : more.isEmpty = more'.isEmpty ∧ z = z' := by
  have hne : ','.toUInt8 ≠ '\n'.toUInt8 := by decide
  cases more with
  | nil =>
      cases more' with
      | nil => exact ⟨rfl, (List.cons.inj h).2⟩
      | cons b more' => exact absurd (List.cons.inj h).1.symm hne
  | cons a more =>
      cases more' with
      | nil => exact absurd (List.cons.inj h).1 hne
      | cons b more' => exact ⟨rfl, (List.cons.inj (List.cons.inj h).2).2⟩

mutual

/-- A tree and what follows it can be read off its rendering. -/
theorem rendering_cancel (t u : Tree) (depth : Nat) {z z' : Bytes}
    (hz : startsWithDigit z = false) (hz' : startsWithDigit z' = false)
    (h : t.rendering depth ++ z = u.rendering depth ++ z') : t = u ∧ z = z' := by
  have htype := rendering_type h
  cases t with
  | int i =>
      cases u with
      | int j =>
          have hij := formatInt_cancel hz hz' h
          exact ⟨congrArg Tree.int hij.1, hij.2⟩
      | _ => cases htype
  | string a =>
      cases u with
      | string b =>
          have hab := quoted_cancel h
          exact ⟨congrArg Tree.string hab.1, hab.2⟩
      | _ => cases htype
  | list ts =>
      cases u with
      | list us =>
          rw [Tree.rendering, Tree.rendering] at h
          have hne : ']'.toUInt8 ≠ '\n'.toUInt8 := by decide
          cases ts with
          | nil =>
              cases us with
              | nil => exact ⟨rfl, (List.cons.inj (List.cons.inj h).2).2⟩
              | cons u us => exact absurd (List.cons.inj (List.cons.inj h).2).1 hne
          | cons t ts =>
              cases us with
              | nil => exact absurd (List.cons.inj (List.cons.inj h).2).1.symm hne
              | cons u us =>
                  have hrest := (List.cons.inj (List.cons.inj h).2).2
                  simp only [List.append_eq, List.append_assoc, List.cons_append,
                    List.nil_append] at hrest
                  have hitems := renderItems_cancel (t :: ts) (u :: us) depth rfl hrest
                  exact ⟨congrArg Tree.list hitems.1, hitems.2⟩
      | _ => cases htype
  | dict es =>
      cases u with
      | dict fs =>
          rw [Tree.rendering, Tree.rendering] at h
          have hne : '\x7d'.toUInt8 ≠ '\n'.toUInt8 := by decide
          cases es with
          | nil =>
              cases fs with
              | nil => exact ⟨rfl, (List.cons.inj (List.cons.inj h).2).2⟩
              | cons f fs => exact absurd (List.cons.inj (List.cons.inj h).2).1 hne
          | cons e es =>
              cases fs with
              | nil => exact absurd (List.cons.inj (List.cons.inj h).2).1.symm hne
              | cons f fs =>
                  have hrest := (List.cons.inj (List.cons.inj h).2).2
                  simp only [List.append_eq, List.append_assoc, List.cons_append,
                    List.nil_append] at hrest
                  have hentries := renderEntries_cancel (e :: es) (f :: fs) depth rfl hrest
                  exact ⟨congrArg Tree.dict hentries.1, hentries.2⟩
      | _ => cases htype

theorem renderItems_cancel (ts us : List Tree) (depth : Nat) {z z' : Bytes}
    (hempty : ts.isEmpty = us.isEmpty)
    (h : renderItems ts depth ++ (indentation depth ++ ']'.toUInt8 :: z) =
      renderItems us depth ++ (indentation depth ++ ']'.toUInt8 :: z')) : ts = us ∧ z = z' := by
  cases ts with
  | nil =>
      cases us with
      | nil => exact ⟨rfl, (List.cons.inj (List.append_cancel_left h)).2⟩
      | cons u us => cases hempty
  | cons t ts =>
      cases us with
      | nil => cases hempty
      | cons u us =>
          simp only [renderItems, List.append_assoc] at h
          have hitem := List.append_cancel_left h
          obtain ⟨rfl, hsep⟩ := rendering_cancel t u (depth + 1) (separator_stops _ _)
            (separator_stops _ _) hitem
          obtain ⟨hmore, hrest⟩ := separator_cancel hsep
          obtain ⟨rfl, hz⟩ := renderItems_cancel ts us depth hmore hrest
          exact ⟨rfl, hz⟩

theorem renderEntries_cancel (es fs : List (Bytes × Tree)) (depth : Nat) {z z' : Bytes}
    (hempty : es.isEmpty = fs.isEmpty)
    (h : renderEntries es depth ++ (indentation depth ++ '\x7d'.toUInt8 :: z) =
      renderEntries fs depth ++ (indentation depth ++ '\x7d'.toUInt8 :: z')) :
    es = fs ∧ z = z' := by
  cases es with
  | nil =>
      cases fs with
      | nil => exact ⟨rfl, (List.cons.inj (List.append_cancel_left h)).2⟩
      | cons f fs => cases hempty
  | cons e es =>
      obtain ⟨k, t⟩ := e
      cases fs with
      | nil => cases hempty
      | cons f fs =>
          obtain ⟨k', u⟩ := f
          simp only [renderEntries, List.append_assoc] at h
          obtain ⟨rfl, hcolon⟩ := quoted_cancel (List.append_cancel_left h)
          have hvalue := List.append_cancel_left hcolon
          obtain ⟨rfl, hsep⟩ := rendering_cancel t u (depth + 1) (separator_stops _ _)
            (separator_stops _ _) hvalue
          obtain ⟨hmore, hrest⟩ := separator_cancel hsep
          obtain ⟨rfl, hz⟩ := renderEntries_cancel es fs depth hmore hrest
          exact ⟨rfl, hz⟩

end

theorem rendering_injective {t u : Tree} {depth : Nat}
    (h : t.rendering depth = u.rendering depth) : t = u := by
  have hnil : t.rendering depth ++ [] = u.rendering depth ++ [] := by rw [h]
  exact (rendering_cancel t u depth rfl rfl hnil).1

/-! ## The pretty printer -/

theorem printValue_written {d : Device} {bufs : Buffers} {v : Value} {depth : Nat}
    {s : OutStream d} (h : printValue bufs v depth (opened d) = (true, s)) :
    s.delivered ++ s.pending = (v.tree bufs).rendering depth := by
  rw [printValue_eq] at h
  rcases (opened_took d).fputs ((v.tree bufs).rendering depth) with
    ⟨s', hput, htook⟩ | ⟨s', i, hput, -, -⟩
  · rw [hput] at h
    cases h
    exact htook.bytes
  · rw [hput] at h
    cases h

/-- Values that are printed alike stand for the same tree, whatever bytes their strings and keys
hold. -/
theorem printValue_injective {d d' : Device} {bufs bufs' : Buffers} {v w : Value}
    {s : OutStream d} {s' : OutStream d'} (hv : printValue bufs v 0 (opened d) = (true, s))
    (hw : printValue bufs' w 0 (opened d') = (true, s'))
    (same : s.delivered ++ s.pending = s'.delivered ++ s'.pending) :
    v.tree bufs = w.tree bufs' := by
  rw [printValue_written hv, printValue_written hw] at same
  exact rendering_injective same

/-- The dicts of two clients, on two devices. -/
theorem printValue_injective_sample :
    ((sampleDesk [34, 44]).first.tree sampleBufs) =
      (Desk.after sampleBufs (fun _ => false) (sampleCommands none [34, 44])).first.tree
        sampleBufs := by
  have hv : printValue sampleBufs (sampleDesk [34, 44]).first 0
      (opened ⟨4, by decide, fun _ => none, false⟩) = (true, (printValue sampleBufs
        (sampleDesk [34, 44]).first 0 (opened ⟨4, by decide, fun _ => none, false⟩)).2) :=
    Prod.ext (by decide +kernel) rfl
  have hw : printValue sampleBufs
      (Desk.after sampleBufs (fun _ => false) (sampleCommands none [34, 44])).first 0
      (opened ⟨64, by decide, fun _ => none, false⟩) = (true, (printValue sampleBufs
        (Desk.after sampleBufs (fun _ => false) (sampleCommands none [34, 44])).first 0
        (opened ⟨64, by decide, fun _ => none, false⟩)).2) :=
    Prod.ext (by decide +kernel) rfl
  exact printValue_injective hv hw (by decide +kernel)

end Bencode
