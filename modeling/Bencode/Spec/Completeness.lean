import Bencode.Spec.History

/-!
# The scanner reads every canonical encoding

Within the depth limit the scanner walks through the encoding of a tree and emits
its events; a tree that is nested too deeply stops it with that error. Neither
depends on what follows the encoding.
-/

namespace Bencode

open LabelledMachine

variable {limit : Nat}

namespace Config

@[simp] theorem after_stack (c : Config) (tok rest : Bytes) (next : List OpenScope × Option Tree) :
    (c.after tok rest next).stack = next.1 := rfl

@[simp] theorem after_result (c : Config) (tok rest : Bytes)
    (next : List OpenScope × Option Tree) : (c.after tok rest next).result = next.2 := rfl

@[simp] theorem after_rest (c : Config) (tok rest : Bytes) (next : List OpenScope × Option Tree) :
    (c.after tok rest next).rest = rest := rfl

@[simp] theorem after_pos (c : Config) (tok rest : Bytes) (next : List OpenScope × Option Tree) :
    (c.after tok rest next).pos = c.pos + tok.length := rfl

@[simp] theorem after_after (c : Config) (tok tok' rest rest' : Bytes)
    (next next' : List OpenScope × Option Tree) :
    (c.after tok rest next).after tok' rest' next' = c.after (tok ++ tok') rest' next' := by
  simp [after, Nat.add_assoc]

theorem after_nil {c : Config} (hopen : c.result = none) :
    c.after [] c.rest (c.stack, none) = c := by
  cases c
  simp [after] at hopen ⊢
  exact hopen.symm

end Config

/-! ## Within the limit -/

theorem Reads.reaches {c d : Config} {tok rest : Bytes} {e : Event} {es : List Event}
    {next : List OpenScope × Option Tree} (h : Reads limit c.stack c.pos tok e next)
    (hopen : c.result = none) (hr : c.rest = tok ++ rest)
    (tail : Reaches (scanStep limit) (c.after tok rest next) es d) :
    Reaches (scanStep limit) c (e :: es) d :=
  .next (h.step hopen hr) tail

mutual

theorem Tree.reaches (t : Tree) (c : Config) (z : Bytes) (hopen : c.result = none)
    (await : Awaits c.stack) (canonical : t.Canonical) (fits : t.Fits)
    (room : c.stack.length + t.nesting ≤ limit) (hr : c.rest = t.encode ++ z) :
    Reaches (scanStep limit) c (t.events c.pos) (c.after t.encode z (settle c.stack t)) := by
  cases t with
  | int i => exact (Reads.int await i).reaches hopen hr (.refl _)
  | string bytes => exact (Reads.string await bytes fits).reaches hopen hr (.refl _)
  | list items =>
      simp only [Tree.encode, Tree.nesting, Tree.events, List.cons_append, List.append_assoc]
        at hr room ⊢
      apply (Reads.listBegin await (by omega)).reaches hopen hr
      have hitems := itemsReaches items (c.after ['l'.toUInt8] _ (.list [] :: c.stack, none))
        [] c.stack ('e'.toUInt8 :: z) rfl rfl canonical fits
        (by simp only [Config.after_stack, List.length_cons]; omega) rfl
      refine Reaches.trans hitems ((Reads.listEnd items c.stack).reaches rfl rfl ?_)
      simpa using Reaches.refl _
  | dict entries =>
      simp only [Tree.encode, Tree.nesting, Tree.events, List.cons_append, List.append_assoc]
        at hr room ⊢
      apply (Reads.dictBegin await (by omega)).reaches hopen hr
      have hentries := entriesReaches entries
        (c.after ['d'.toUInt8] _ (.dict [] none :: c.stack, none))
        [] c.stack ('e'.toUInt8 :: z) rfl rfl canonical.1 canonical.2 fits
        (by simp only [Config.after_stack, List.length_cons]; omega) rfl
      refine Reaches.trans hentries ((Reads.dictEnd entries c.stack).reaches rfl rfl ?_)
      simpa using Reaches.refl _

theorem itemsReaches (ts : List Tree) (c : Config) (done : List Tree) (below : List OpenScope)
    (z : Bytes) (hopen : c.result = none) (hstack : c.stack = .list done :: below)
    (canonical : CanonicalItems ts) (fits : FitsItems ts)
    (room : c.stack.length + itemsNesting ts ≤ limit) (hr : c.rest = encodeItems ts ++ z) :
    Reaches (scanStep limit) c (itemsEvents ts c.pos)
      (c.after (encodeItems ts) z (.list (done ++ ts) :: below, none)) := by
  cases ts with
  | nil =>
      have hself := Config.after_nil hopen
      rw [hstack] at hself
      simp only [encodeItems, List.nil_append] at hr
      simp only [itemsEvents, encodeItems, List.append_nil, ← hr, hself]
      exact .refl c
  | cons t ts =>
      simp only [encodeItems, List.append_assoc, itemsNesting] at hr room
      have await : Awaits c.stack := by rw [hstack]; trivial
      have hhead := t.reaches c (encodeItems ts ++ z) hopen await canonical.1 fits.1
        (by omega) hr
      have hsettle : settle c.stack t = (.list (done ++ [t]) :: below, none) := by
        rw [hstack]; rfl
      rw [hsettle] at hhead
      have htail := itemsReaches ts
        (c.after t.encode (encodeItems ts ++ z) (.list (done ++ [t]) :: below, none))
        (done ++ [t]) below z rfl rfl canonical.2 fits.2
        (by rw [hstack, List.length_cons] at room
            simp only [Config.after_stack, List.length_cons]
            omega) rfl
      have hrun := hhead.trans htail
      simpa [itemsEvents, encodeItems] using hrun

theorem entriesReaches (es : List (Bytes × Tree)) (c : Config) (done : List (Bytes × Tree))
    (below : List OpenScope) (z : Bytes) (hopen : c.result = none)
    (hstack : c.stack = .dict done none :: below)
    (sorted : (entryKeys (done ++ es)).Pairwise (· < ·))
    (canonical : CanonicalEntries es) (fits : FitsEntries es)
    (room : c.stack.length + entriesNesting es ≤ limit) (hr : c.rest = encodeEntries es ++ z) :
    Reaches (scanStep limit) c (entriesEvents es c.pos)
      (c.after (encodeEntries es) z (.dict (done ++ es) none :: below, none)) := by
  cases es with
  | nil =>
      have hself := Config.after_nil hopen
      rw [hstack] at hself
      simp only [encodeEntries, List.nil_append] at hr
      simp only [entriesEvents, encodeEntries, List.append_nil, ← hr, hself]
      exact .refl c
  | cons e es =>
      obtain ⟨k, t⟩ := e
      simp only [encodeEntries, List.append_assoc, entriesNesting] at hr room
      rw [hstack, List.length_cons] at room
      have hsplit : entryKeys (done ++ (k, t) :: es) = (entryKeys done ++ [k]) ++ entryKeys es := by
        simp [entryKeys]
      rw [hsplit] at sorted
      have hfront := (List.pairwise_append.mp sorted).1
      have order := (sorted_append_key (List.pairwise_append.mp hfront).1).mp hfront
      have hkey : Reads limit c.stack c.pos (encodeString k) (stringEvent c.pos k)
          (.dict done (some k) :: below, none) := by
        rw [hstack]
        exact .key done below k order fits.1
      have hvalue := t.reaches
        (c.after (encodeString k) (t.encode ++ (encodeEntries es ++ z))
          (.dict done (some k) :: below, none))
        (encodeEntries es ++ z) rfl trivial canonical.1 fits.2.1
        (by simp only [Config.after_stack, List.length_cons]; omega) rfl
      have htail := entriesReaches es
        (c.after (encodeString k ++ t.encode) (encodeEntries es ++ z)
          (.dict (done ++ [(k, t)]) none :: below, none))
        (done ++ [(k, t)]) below z rfl rfl (by simpa [entryKeys] using sorted) canonical.2
        fits.2.2 (by simp only [Config.after_stack, List.length_cons]; omega) rfl
      have hrun := hkey.reaches hopen hr (hvalue.trans (by simpa [settle] using htail))
      simpa [entriesEvents, encodeEntries, Nat.add_assoc] using hrun

end

/-! ## Beyond the limit -/

def TooDeep (limit : Nat) (c : Config) : Prop :=
  ∃ es off, Finishes (scanStep limit) c es (.errNestingTooDeep, off)

theorem TooDeep.of_reaches {c d : Config} {es : List Event}
    (run : Reaches (scanStep limit) c es d) (h : TooDeep limit d) : TooDeep limit c := by
  obtain ⟨fs, off, hfin⟩ := h
  exact ⟨es ++ fs, off, run.finishes hfin⟩

/-- At the limit the scanner stops after the opening byte. -/
theorem TooDeep.full {c : Config} {b : UInt8} {bs : Bytes} (hopen : c.result = none)
    (await : Awaits c.stack) (hr : c.rest = b :: bs) (hb : b = 'l'.toUInt8 ∨ b = 'd'.toUInt8)
    (full : limit ≤ c.stack.length) : TooDeep limit c := by
  refine ⟨[], c.offset bs, c, .refl c, ?_⟩
  rcases hb with rfl | rfl
  · rw [scanStep_value hopen await hr (by decide), scanValue, if_neg (by decide), if_pos rfl,
      if_pos full]
  · rw [scanStep_value hopen await hr (by decide), scanValue, if_neg (by decide),
      if_neg (by decide), if_pos rfl, if_pos full]

mutual

theorem Tree.tooDeep (t : Tree) (c : Config) (z : Bytes) (hopen : c.result = none)
    (await : Awaits c.stack) (canonical : t.Canonical) (fits : t.Fits)
    (room : c.stack.length ≤ limit) (deep : limit < c.stack.length + t.nesting)
    (hr : c.rest = t.encode ++ z) : TooDeep limit c := by
  cases t with
  | int i => exact absurd deep (by simpa [Tree.nesting] using room)
  | string bytes => exact absurd deep (by simpa [Tree.nesting] using room)
  | list items =>
      simp only [Tree.encode, Tree.nesting, List.cons_append, List.append_assoc] at hr deep
      by_cases full : limit ≤ c.stack.length
      · exact .full hopen await hr (.inl rfl) full
      refine .of_reaches ((Reads.listBegin await (by omega)).reaches hopen hr (.refl _)) ?_
      exact itemsTooDeep items (c.after ['l'.toUInt8] _ (.list [] :: c.stack, none)) [] c.stack
        _ rfl rfl canonical fits (by simp only [Config.after_stack, List.length_cons]; omega)
        (by simp only [Config.after_stack, List.length_cons]; omega) rfl
  | dict entries =>
      simp only [Tree.encode, Tree.nesting, List.cons_append, List.append_assoc] at hr deep
      by_cases full : limit ≤ c.stack.length
      · exact .full hopen await hr (.inr rfl) full
      refine .of_reaches ((Reads.dictBegin await (by omega)).reaches hopen hr (.refl _)) ?_
      exact entriesTooDeep entries (c.after ['d'.toUInt8] _ (.dict [] none :: c.stack, none)) []
        c.stack _ rfl rfl canonical.1 canonical.2 fits
        (by simp only [Config.after_stack, List.length_cons]; omega)
        (by simp only [Config.after_stack, List.length_cons]; omega) rfl

theorem itemsTooDeep (ts : List Tree) (c : Config) (done : List Tree) (below : List OpenScope)
    (z : Bytes) (hopen : c.result = none) (hstack : c.stack = .list done :: below)
    (canonical : CanonicalItems ts) (fits : FitsItems ts) (room : c.stack.length ≤ limit)
    (deep : limit < c.stack.length + itemsNesting ts) (hr : c.rest = encodeItems ts ++ z) :
    TooDeep limit c := by
  cases ts with
  | nil => exact absurd deep (by simpa [itemsNesting] using room)
  | cons t ts =>
      simp only [encodeItems, List.append_assoc, itemsNesting] at hr deep
      have await : Awaits c.stack := by rw [hstack]; trivial
      by_cases head : limit < c.stack.length + t.nesting
      · exact t.tooDeep c _ hopen await canonical.1 fits.1 room head hr
      have hrun := t.reaches c _ hopen await canonical.1 fits.1 (Nat.le_of_not_lt head) hr
      have hsettle : settle c.stack t = (.list (done ++ [t]) :: below, none) := by
        rw [hstack]; rfl
      rw [hsettle] at hrun
      rw [hstack, List.length_cons] at room deep head
      refine .of_reaches hrun (itemsTooDeep ts (c.after t.encode (encodeItems ts ++ z)
        (.list (done ++ [t]) :: below, none)) (done ++ [t]) below z rfl rfl canonical.2 fits.2
        ?_ ?_ rfl)
      · simpa only [Config.after_stack, List.length_cons] using room
      · simp only [Config.after_stack, List.length_cons]
        omega

theorem entriesTooDeep (es : List (Bytes × Tree)) (c : Config) (done : List (Bytes × Tree))
    (below : List OpenScope) (z : Bytes) (hopen : c.result = none)
    (hstack : c.stack = .dict done none :: below)
    (sorted : (entryKeys (done ++ es)).Pairwise (· < ·))
    (canonical : CanonicalEntries es) (fits : FitsEntries es) (room : c.stack.length ≤ limit)
    (deep : limit < c.stack.length + entriesNesting es) (hr : c.rest = encodeEntries es ++ z) :
    TooDeep limit c := by
  cases es with
  | nil => exact absurd deep (by simpa [entriesNesting] using room)
  | cons e es =>
      obtain ⟨k, t⟩ := e
      simp only [encodeEntries, List.append_assoc, entriesNesting] at hr deep
      rw [hstack, List.length_cons] at room deep
      have hsplit : entryKeys (done ++ (k, t) :: es) = (entryKeys done ++ [k]) ++ entryKeys es := by
        simp [entryKeys]
      rw [hsplit] at sorted
      have hfront := (List.pairwise_append.mp sorted).1
      have order := (sorted_append_key (List.pairwise_append.mp hfront).1).mp hfront
      have hkey : Reads limit c.stack c.pos (encodeString k) (stringEvent c.pos k)
          (.dict done (some k) :: below, none) := by
        rw [hstack]
        exact .key done below k order fits.1
      refine .of_reaches (hkey.reaches hopen hr (.refl _)) ?_
      by_cases head : limit < below.length + 1 + t.nesting
      · exact t.tooDeep (c.after (encodeString k) _ (.dict done (some k) :: below, none)) _ rfl
          trivial canonical.1 fits.2.1 room head rfl
      have hvalue := t.reaches (c.after (encodeString k) (t.encode ++ (encodeEntries es ++ z))
        (.dict done (some k) :: below, none)) _ rfl trivial canonical.1 fits.2.1
        (Nat.le_of_not_lt head) rfl
      refine .of_reaches hvalue ?_
      refine entriesTooDeep es (Config.after _ t.encode (encodeEntries es ++ z)
        (.dict (done ++ [(k, t)]) none :: below, none)) (done ++ [(k, t)]) below z rfl rfl
        (by simpa [entryKeys] using sorted) canonical.2 fits.2.2 room ?_ rfl
      simp only [Config.after_stack, List.length_cons]
      omega

end

/-! ## Whole inputs -/

/-- The scanner accepts a canonical encoding, whatever follows it. -/
theorem scans_encode {t : Tree} (canonical : t.Canonical) (fits : t.Fits)
    (shallow : t.nesting ≤ limit) (z : Bytes) :
    Scans limit (t.encode ++ z) (t.events 0) .ok t.encode.length := by
  have hrun : Reaches (scanStep limit) _ _ _ :=
    t.reaches (.start (t.encode ++ z)) z rfl trivial canonical fits
      (by simpa [Config.start] using shallow) rfl
  refine ⟨_, hrun, ?_⟩
  simp [scanStep, settle, Config.after, Config.start]

/-- Canonical encodings are injective and prefix-free. -/
theorem Tree.encode_injective {t u : Tree} (ht : t.Canonical) (ht' : t.Fits) (hu : u.Canonical)
    (hu' : u.Fits) {y z : Bytes} (h : t.encode ++ y = u.encode ++ z) : t = u ∧ y = z := by
  have hrun : Reaches (scanStep (t.nesting + u.nesting)) _ _ _ :=
    t.reaches (.start (t.encode ++ y)) y rfl trivial
    ht ht' (by simp [Config.start]) rfl
  have hrun' : Reaches (scanStep (t.nesting + u.nesting)) _ _ _ :=
    u.reaches (.start (t.encode ++ y)) z rfl trivial
    hu hu' (by simp [Config.start]) h
  obtain ⟨-, hend⟩ := hrun.unique hrun' (v := (.ok, t.encode.length))
    (w := (.ok, u.encode.length)) (by simp [scanStep, settle, Config.after, Config.start])
    (by simp [scanStep, settle, Config.after, Config.start])
  have hresult := congrArg Config.result hend
  have hrest := congrArg Config.rest hend
  simp only [Config.after_result, Config.start, settle, Option.some.injEq] at hresult
  exact ⟨hresult, hrest⟩

theorem scans_tooDeep {t : Tree} (canonical : t.Canonical) (fits : t.Fits)
    (deep : limit < t.nesting) (z : Bytes) :
    ∃ es off, Scans limit (t.encode ++ z) es .errNestingTooDeep off :=
  t.tooDeep (.start (t.encode ++ z)) z rfl trivial canonical fits (Nat.zero_le _)
    (by simpa [Config.start] using deep) rfl

/-! ## Encodings that fit -/

mutual

theorem Tree.fits_of_length (t : Tree) (h : t.encode.length ≤ sizeMax) : t.Fits := by
  cases t with
  | int i => trivial
  | string bytes =>
      simp only [Tree.encode, encodeString, List.length_append, List.length_cons] at h
      exact Nat.le_trans (by omega) h
  | list items =>
      simp only [Tree.encode, List.length_cons, List.length_append] at h
      exact fitsItems_of_length items (by omega)
  | dict entries =>
      simp only [Tree.encode, List.length_cons, List.length_append] at h
      exact fitsEntries_of_length entries (by omega)

theorem fitsItems_of_length (ts : List Tree) (h : (encodeItems ts).length ≤ sizeMax) :
    FitsItems ts := by
  cases ts with
  | nil => trivial
  | cons t ts =>
      simp only [encodeItems, List.length_append] at h
      exact ⟨t.fits_of_length (by omega), fitsItems_of_length ts (by omega)⟩

theorem fitsEntries_of_length (es : List (Bytes × Tree))
    (h : (encodeEntries es).length ≤ sizeMax) : FitsEntries es := by
  cases es with
  | nil => trivial
  | cons e es =>
      obtain ⟨k, t⟩ := e
      simp only [encodeEntries, encodeString, List.length_append, List.length_cons] at h
      exact ⟨by omega, t.fits_of_length (by omega), fitsEntries_of_length es (by omega)⟩

end

end Bencode
