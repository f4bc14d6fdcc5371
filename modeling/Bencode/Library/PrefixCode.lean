import Mathlib.Data.List.Basic

/-! # Prefix codes

A code whose words can be read off the front of any text can be read word by word. A
mark that no word begins with then ends a sequence of words unmistakably.
-/

namespace PrefixCode

variable {α β : Type}

/-- The first word of a text and what follows it are determined by the text. -/
def IsPrefixCode (f : α → List β) : Prop :=
  ∀ {a b : α} {z z' : List β}, f a ++ z = f b ++ z' → a = b ∧ z = z'

theorem isPrefixCode_of_free {f : α → List β} (free : ∀ a b, f a <+: f b → a = b) :
    IsPrefixCode f := by
  intro a b z z' h
  have hb : f b <+: f a ++ z := h ▸ List.prefix_append _ _
  have hsame : a = b := by
    rcases List.prefix_or_prefix_of_prefix (List.prefix_append (f a) z) hb with hle | hle
    · exact free a b hle
    · exact (free b a hle).symm
  subst hsame
  exact ⟨rfl, List.append_cancel_left h⟩

def Avoids (f : α → List β) (mark : β) : Prop := ∀ a z z', f a ++ z ≠ mark :: z'

theorem flatMap_cancel {f : α → List β} {mark : β} (code : IsPrefixCode f)
    (avoids : Avoids f mark) {xs ys : List α} {z z' : List β}
    (h : xs.flatMap f ++ mark :: z = ys.flatMap f ++ mark :: z') : xs = ys ∧ z = z' := by
  induction xs generalizing ys with
  | nil =>
      cases ys with
      | nil => exact ⟨rfl, (List.cons.inj h).2⟩
      | cons y ys =>
          rw [List.flatMap_cons, List.append_assoc] at h
          exact absurd h.symm (avoids y _ z)
  | cons x xs ih =>
      rw [List.flatMap_cons, List.append_assoc] at h
      cases ys with
      | nil => exact absurd h (avoids x _ z')
      | cons y ys =>
          rw [List.flatMap_cons, List.append_assoc] at h
          obtain ⟨rfl, hrest⟩ := code h
          obtain ⟨rfl, hz⟩ := ih hrest
          exact ⟨rfl, hz⟩

/-! ## Codes of some arguments -/

/-- Among the good arguments, the first word of a text and what follows it are determined by the
text. -/
def IsPrefixCodeOn (good : α → Prop) (f : α → List β) : Prop :=
  ∀ {a b : α} {z z' : List β}, good a → good b → f a ++ z = f b ++ z' → a = b ∧ z = z'

/-- When what follows the words `ys` begins with no word of `xs`, no other words than `ys` can be
read off the text. -/
theorem flatMap_prefix {good : α → Prop} {f : α → List β} (code : IsPrefixCodeOn good f)
    {xs ys : List α} {z z' : List β} (hx : ∀ x ∈ xs, good x) (hy : ∀ y ∈ ys, good y)
    (stuck : ∀ x ∈ xs, ∀ u, z' ≠ f x ++ u) (h : xs.flatMap f ++ z = ys.flatMap f ++ z') :
    xs <+: ys := by
  induction xs generalizing ys with
  | nil => exact List.nil_prefix
  | cons x xs ih =>
      rw [List.flatMap_cons, List.append_assoc] at h
      cases ys with
      | nil => exact absurd h.symm (stuck x List.mem_cons_self _)
      | cons y ys =>
          rw [List.flatMap_cons, List.append_assoc] at h
          obtain ⟨rfl, hrest⟩ := code (hx x List.mem_cons_self) (hy y List.mem_cons_self) h
          have hmore := ih (fun a ha => hx a (List.mem_cons_of_mem x ha))
            (fun a ha => hy a (List.mem_cons_of_mem x ha))
            (fun a ha => stuck a (List.mem_cons_of_mem x ha)) hrest
          exact List.cons_prefix_cons.mpr ⟨rfl, hmore⟩

end PrefixCode
