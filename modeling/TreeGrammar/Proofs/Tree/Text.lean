/-
# Trees from their text

The text of a tree tells all there is to know of its rose tree but the slots of leaves: a leaf is
written as its label alone, while any other node has all its slots, empty ones too.  Labels must
be written without parentheses, commas and bars (`Readable`).  They may have blanks, so that a
blank in front of a bar is told from the end of a label only when the bar is read (`Breaks`).

A label can be taken off the front of a text (`append_eq_append_of_breaks`), and so can the
members of a list that stand between separators (`forall₂_of_intercalate_append`), and with them
a whole tree (`Rose.equalBy_clip_of_text_append`).  The main statement is `Tree.text_eq_iff_clip`.
-/
import TreeGrammar.Proofs.Tree.NormalForm

namespace TreeGrammar

/-- The characters that the text of a tree is put together with, blanks apart. -/
def delimiters : List Char := ['(', ')', ',', '|']

/-- Labels are written with at least one character and without delimiters, and different ones are
written differently. -/
structure Readable {α : Type} [BEq α] (write : α → String) : Prop where
  ne_empty : ∀ a, write a ≠ ""
  not_delimiter : ∀ a, ∀ c ∈ (write a).toList, c ∉ delimiters
  eq_iff : ∀ a b, write a = write b ↔ (a == b) = true

/-! ### Where labels and subtrees end -/

/-- A text that has ended, or goes on with one of the given characters or with the blank in front
of a bar. -/
inductive Breaks (cs : List Char) : List Char → Prop
  | ended : Breaks cs []
  | char {c : Char} {k : List Char} (hc : c ∈ cs) : Breaks cs (c :: k)
  | bar {k : List Char} : Breaks cs (' ' :: '|' :: k)

/-- What a label may be followed by, a bar apart. -/
def afterLabel : List Char := ['(', ')', ',']

/-- What a subtree may be followed by, a bar apart. -/
def afterTree : List Char := [')', ',']

/-- What the last subtree of a slot may be followed by, a bar apart. -/
def afterSlot : List Char := [')']

lemma Breaks.mono {cs ds k : List Char} (h : Breaks cs k) (hcs : cs ⊆ ds) : Breaks ds k := by
  cases h with
  | ended => exact .ended
  | char hc => exact .char (hcs hc)
  | bar => exact .bar

lemma Breaks.afterTree_of_afterSlot {k : List Char} (h : Breaks afterSlot k) :
    Breaks afterTree k := h.mono (by simp [afterSlot, afterTree])

lemma Breaks.afterLabel_of_afterTree {k : List Char} (h : Breaks afterTree k) :
    Breaks afterLabel k := h.mono (by simp [afterTree, afterLabel])

/-- No character of a label stands where a label has ended. -/
lemma Breaks.eq_nil_of_append {xs k : List Char} (h : Breaks afterLabel (xs ++ k))
    (hk : Breaks afterLabel k) (hxs : ∀ c ∈ xs, c ∉ delimiters) : xs = [] := by
  cases xs with
  | nil => rfl
  | cons x xs =>
    exfalso
    obtain ⟨hx, hxs⟩ := List.forall_mem_cons.1 hxs
    rw [List.cons_append] at h
    generalize hl : xs ++ k = l at h
    cases h with
    | char hc =>
      apply hx
      simp only [afterLabel, List.mem_cons, List.not_mem_nil, or_false] at hc
      rcases hc with rfl | rfl | rfl <;> simp [delimiters]
    | bar =>
      -- the blank could be one of the label, but then the bar would be next
      cases xs with
      | nil =>
        rw [List.nil_append] at hl
        subst hl
        cases hk with
        | char hc => simp [afterLabel] at hc
      | cons y ys =>
        obtain ⟨rfl, -⟩ := List.cons.inj hl
        exact hxs '|' (by simp) (by simp [delimiters])

/-- Where a label ends can be told from what comes behind it. -/
theorem append_eq_append_of_breaks {xs ys k k' : List Char} (hxs : ∀ c ∈ xs, c ∉ delimiters)
    (hys : ∀ c ∈ ys, c ∉ delimiters) (hk : Breaks afterLabel k) (hk' : Breaks afterLabel k')
    (h : xs ++ k = ys ++ k') : xs = ys ∧ k = k' := by
  induction xs generalizing ys with
  | nil =>
    obtain rfl : ys = [] := Breaks.eq_nil_of_append (h ▸ hk) hk' hys
    exact ⟨rfl, h⟩
  | cons x xs ih =>
    cases ys with
    | nil =>
      have hnil : x :: xs = [] := Breaks.eq_nil_of_append (h ▸ hk') hk hxs
      cases hnil
    | cons y ys =>
      obtain ⟨rfl, hrest⟩ := List.cons.inj h
      obtain ⟨rfl, hkk'⟩ :=
        ih (List.forall_mem_cons.1 hxs).2 (List.forall_mem_cons.1 hys).2 hrest
      exact ⟨rfl, hkk'⟩

/-- Behind the first of some members there is a separator, unless it is the last one. -/
lemma intercalate_map_cons_append {β : Type} (sep : List Char) (f : β → List Char) (x : β)
    (xs : List β) (k : List Char) :
    sep.intercalate ((x :: xs).map f) ++ k =
      f x ++ if xs = [] then k else sep ++ (sep.intercalate (xs.map f) ++ k) := by
  cases xs with
  | nil => simp
  | cons y ys => simp [List.intercalate_cons_cons]

/-- Members of a list that each tell where they end are told apart by separators, if the text
behind the list does not begin with one. -/
theorem forall₂_of_intercalate_append {β : Type} {R : β → β → Prop} {f : β → List Char}
    {sep : List Char} {Stop : List Char → Prop} (hsep : ∀ l, Stop (sep ++ l)) {xs ys : List β}
    (hread : ∀ x ∈ xs, ∀ y k k', Stop k → Stop k' → f x ++ k = f y ++ k' → R x y ∧ k = k')
    (hxs : xs ≠ []) (hys : ys ≠ []) {k k' : List Char} (hk : Stop k) (hk' : Stop k')
    (hne : ∀ l, k ≠ sep ++ l) (hne' : ∀ l, k' ≠ sep ++ l)
    (h : sep.intercalate (xs.map f) ++ k = sep.intercalate (ys.map f) ++ k') :
    List.Forall₂ R xs ys ∧ k = k' := by
  have hstop : ∀ (xs : List β) (k : List Char), Stop k →
      Stop (if xs = [] then k else sep ++ (sep.intercalate (xs.map f) ++ k)) := by
    intro xs k hk
    split
    · exact hk
    · exact hsep _
  induction xs generalizing ys with
  | nil => exact absurd rfl hxs
  | cons x xs ih =>
    obtain ⟨hx, hread⟩ := List.forall_mem_cons.1 hread
    cases ys with
    | nil => exact absurd rfl hys
    | cons y ys =>
      rw [intercalate_map_cons_append, intercalate_map_cons_append] at h
      obtain ⟨hxy, hrest⟩ := hx y _ _ (hstop xs k hk) (hstop ys k' hk') h
      by_cases hxs : xs = []
      · by_cases hys : ys = []
        · subst hxs hys
          exact ⟨.cons hxy .nil, by simpa using hrest⟩
        · rw [if_pos hxs, if_neg hys] at hrest
          exact absurd hrest (hne _)
      · by_cases hys : ys = []
        · rw [if_neg hxs, if_pos hys] at hrest
          exact absurd hrest.symm (hne' _)
        · rw [if_neg hxs, if_neg hys] at hrest
          obtain ⟨hall, hkk'⟩ := ih hread hxs hys (List.append_cancel_left hrest)
          exact ⟨.cons hxy hall, hkk'⟩

namespace Rose

variable {α : Type} {write : α → String}

/-! ### The text of a node -/

lemma texts_eq_map (rs : List (Rose α)) : texts write rs = rs.map (text write) := by
  induction rs with
  | nil => rw [texts, List.map_nil]
  | cons r rs ih => rw [texts, ih, List.map_cons]

lemma slotTexts_eq_map (slots : List (List (Rose α))) :
    slotTexts write slots = slots.map fun rs => ", ".intercalate (rs.map (text write)) := by
  induction slots with
  | nil => rw [slotTexts, List.map_nil]
  | cons rs slots ih => rw [slotTexts, texts_eq_map, ih, List.map_cons]

/-- The characters of a slot. -/
def slotChars (write : α → String) (rs : List (Rose α)) : List Char :=
  [',', ' '].intercalate (rs.map fun r => (r.text write).toList)

/-- What stands behind the label of a node: its slots, if it is no leaf, and then `k`. -/
def behindLabel (write : α → String) (slots : List (List (Rose α))) (k : List Char) : List Char :=
  if slots.all List.isEmpty then k
  else '(' :: ([' ', '|', ' '].intercalate (slots.map (slotChars write)) ++ ')' :: k)

lemma toList_text_append (a : α) (slots : List (List (Rose α))) (k : List Char) :
    ((node a slots).text write).toList ++ k = (write a).toList ++ behindLabel write slots k := by
  have hslot : (String.toList ∘ fun rs => ", ".intercalate (rs.map (text write))) =
      slotChars write := by
    funext rs
    simp [slotChars, Function.comp_def]
  rw [text, behindLabel, slotTexts_eq_map]
  split
  · rfl
  · simp [hslot]

lemma breaks_behindLabel (slots : List (List (Rose α))) {k : List Char}
    (hk : Breaks afterTree k) : Breaks afterLabel (behindLabel write slots k) := by
  rw [behindLabel]
  split
  · exact hk.afterLabel_of_afterTree
  · exact .char (by simp [afterLabel])

/-! ### Leaves without slots -/

mutual

/-- The rose tree with no slots at its leaves. -/
def clip : Rose α → Rose α
  | .node a slots => .node a (if slots.all List.isEmpty then [] else clipSlots slots)

/-- The slots of a node with clipped children. -/
def clipSlots : List (List (Rose α)) → List (List (Rose α))
  | [] => []
  | rs :: slots => clipAll rs :: clipSlots slots

/-- The children in a slot, clipped. -/
def clipAll : List (Rose α) → List (Rose α)
  | [] => []
  | r :: rs => clip r :: clipAll rs

end

lemma clipAll_eq_map (rs : List (Rose α)) : clipAll rs = rs.map clip := by
  induction rs with
  | nil => rw [clipAll, List.map_nil]
  | cons r rs ih => rw [clipAll, ih, List.map_cons]

lemma clipSlots_eq_map (slots : List (List (Rose α))) :
    clipSlots slots = slots.map (List.map clip) := by
  induction slots with
  | nil => rw [clipSlots, List.map_nil]
  | cons rs slots ih => rw [clipSlots, clipAll_eq_map, ih, List.map_cons]

lemma clip_leaf {a : α} {slots : List (List (Rose α))} (h : slots.all List.isEmpty = true) :
    (node a slots).clip = .node a [] := by
  rw [clip, if_pos h]

lemma clip_inner {a : α} {slots : List (List (Rose α))} (h : slots.all List.isEmpty = false) :
    (node a slots).clip = .node a (slots.map (List.map clip)) := by
  rw [clip, if_neg (by simp [h]), clipSlots_eq_map]

lemma text_node_congr {a b : α} {slots slots' : List (List (Rose α))} (hlabel : write a = write b)
    (hslots : slots.map (List.map (text write)) = slots'.map (List.map (text write))) :
    (node a slots).text write = (node b slots').text write := by
  have hempty : ∀ slots : List (List (Rose α)),
      slots.all List.isEmpty = (slots.map (List.map (text write))).all List.isEmpty := by
    intro slots
    simp [List.all_map, Function.comp_def]
  have htexts : ∀ slots : List (List (Rose α)), slotTexts write slots =
      (slots.map (List.map (text write))).map (", ".intercalate ·) := by
    intro slots
    rw [slotTexts_eq_map, List.map_map]
    rfl
  rw [text, text, hempty slots, hempty slots', htexts slots, htexts slots', hslots, hlabel]

/-- The text does not tell the slots of leaves. -/
lemma text_clip (r : Rose α) : r.clip.text write = r.text write := by
  induction r using induction_node with
  | node a slots ih =>
    cases hleaf : slots.all List.isEmpty with
    | true =>
      rw [clip_leaf hleaf, text, text, if_pos hleaf, if_pos List.all_nil]
    | false =>
      rw [clip_inner hleaf]
      refine text_node_congr rfl ?_
      rw [List.map_map]
      refine List.map_congr_left fun rs hrs => ?_
      rw [Function.comp_apply, List.map_map]
      exact List.map_congr_left (ih rs hrs)

/-- Nor does the normal form. -/
lemma trim_clip (r : Rose α) : r.clip.trim = r.trim := by
  induction r using induction_node with
  | node a slots ih =>
    cases hleaf : slots.all List.isEmpty with
    | true =>
      have hunused : dropTrailingEmpty slots = [] := by
        rw [dropTrailingEmpty, List.reverse_eq_nil_iff, List.dropWhile_eq_nil_iff]
        simpa using hleaf
      rw [clip_leaf hleaf, trim_node, trim_node, dropTrailingEmpty_map, dropTrailingEmpty_map,
        hunused]
      rfl
    | false =>
      have hchildren : (slots.map (List.map clip)).map (List.map trim) =
          slots.map (List.map trim) := by
        rw [List.map_map]
        refine List.map_congr_left fun rs hrs => ?_
        rw [Function.comp_apply, List.map_map]
        exact List.map_congr_left (ih rs hrs)
      rw [clip_inner hleaf, trim_node, trim_node, hchildren]

/-! ### Equality up to a comparison -/

variable {eq : α → α → Bool} {r r' : Rose α}

/-- What is equal is so in normal form. -/
lemma equalBy_trim (h : r.equalBy eq r' = true) : r.trim.equalBy eq r'.trim = true := by
  induction r using induction_node generalizing r' with
  | node a slots ih =>
    obtain ⟨b, slots'⟩ := r'
    obtain ⟨hlabel, hslots⟩ := equalBy_node_iff.1 h
    rw [trim_node, trim_node, equalBy_node_iff]
    refine ⟨hlabel, forall₂_dropTrailingEmpty ?_⟩
    simp only [List.forall₂_map_left_iff, List.forall₂_map_right_iff]
    exact forall₂_imp_of_mem
      (fun rs hrs _ => forall₂_imp_of_mem fun r hr _ => ih rs hrs r hr) hslots

/-- Up to identity, what is equal is the same. -/
lemma equalBy_iff_eq (heq : ∀ a b, eq a b = true ↔ a = b) : r.equalBy eq r' = true ↔ r = r' := by
  induction r using induction_node generalizing r' with
  | node a slots ih =>
    obtain ⟨b, slots'⟩ := r'
    rw [equalBy_node_iff, eq_node_iff, heq]
    exact and_congr_right fun _ => forall₂_congr_of_mem
      (fun rs hrs => forall₂_congr_of_mem fun r hr _ => ih rs hrs r hr) slots'

/-- What is equal has one text, if equal labels have. -/
lemma text_eq_of_equalBy (heq : ∀ a b, eq a b = true → write a = write b)
    (h : r.equalBy eq r' = true) : r.text write = r'.text write := by
  induction r using induction_node generalizing r' with
  | node a slots ih =>
    obtain ⟨b, slots'⟩ := r'
    obtain ⟨hlabel, hslots⟩ := equalBy_node_iff.1 h
    refine text_node_congr (heq a b hlabel) ?_
    rw [← List.forall₂_eq_eq_eq, List.forall₂_map_left_iff, List.forall₂_map_right_iff]
    refine forall₂_imp_of_mem (fun rs hrs rs' hall => ?_) hslots
    rw [← List.forall₂_eq_eq_eq, List.forall₂_map_left_iff, List.forall₂_map_right_iff]
    exact forall₂_imp_of_mem (fun r hr _ => ih rs hrs r hr) hall

/-! ### Reading a text -/

variable [BEq α]

/-- A slot that is not empty begins with a label, and so not where a slot may end. -/
lemma slotChars_cons_append_ne (hwrite : Readable write) (r : Rose α) (rs : List (Rose α))
    {k k' : List Char} (hk : Breaks afterSlot k) (hk' : Breaks afterSlot k') :
    slotChars write (r :: rs) ++ k ≠ k' := by
  rintro rfl
  obtain ⟨a, slots⟩ := r
  have hrest : Breaks afterTree
      (if rs = [] then k else [',', ' '] ++ (slotChars write rs ++ k)) := by
    split
    · exact hk.afterTree_of_afterSlot
    · exact .char (by simp [afterTree])
  have hlabel := hk'.afterTree_of_afterSlot.afterLabel_of_afterTree
  rw [slotChars, intercalate_map_cons_append, toList_text_append] at hlabel
  have hnil := hlabel.eq_nil_of_append (breaks_behindLabel slots hrest) (hwrite.not_delimiter a)
  exact hwrite.ne_empty a (String.toList_eq_nil_iff.1 hnil)

/-- The subtrees in a slot can be told apart if each of them tells where it ends. -/
lemma forall₂_of_slotChars_append (hwrite : Readable write) {R : Rose α → Rose α → Prop}
    {rs rs' : List (Rose α)}
    (hread : ∀ r ∈ rs, ∀ r' k k', Breaks afterTree k → Breaks afterTree k' →
      (r.text write).toList ++ k = (r'.text write).toList ++ k' → R r r' ∧ k = k')
    {k k' : List Char} (hk : Breaks afterSlot k) (hk' : Breaks afterSlot k')
    (h : slotChars write rs ++ k = slotChars write rs' ++ k') : List.Forall₂ R rs rs' ∧ k = k' := by
  have hcomma : ∀ {k}, Breaks afterSlot k → ∀ l, k ≠ [',', ' '] ++ l := by
    intro k hk l hl
    subst hl
    cases hk with
    | char hc => simp [afterSlot] at hc
  cases rs with
  | nil =>
    cases rs' with
    | nil => exact ⟨.nil, h⟩
    | cons r' rs' => exact absurd h.symm (slotChars_cons_append_ne hwrite r' rs' hk' hk)
  | cons r rs =>
    cases rs' with
    | nil => exact absurd h (slotChars_cons_append_ne hwrite r rs hk hk')
    | cons r' rs' =>
      exact forall₂_of_intercalate_append (fun _ => .char (by simp [afterTree])) hread
        (List.cons_ne_nil _ _) (List.cons_ne_nil _ _) hk.afterTree_of_afterSlot
        hk'.afterTree_of_afterSlot (hcomma hk) (hcomma hk') h

/-- A tree can be read off the front of a text, but for the slots of its leaves. -/
theorem equalBy_clip_of_text_append (hwrite : Readable write) {r r' : Rose α} {k k' : List Char}
    (hk : Breaks afterTree k) (hk' : Breaks afterTree k')
    (h : (r.text write).toList ++ k = (r'.text write).toList ++ k') :
    r.clip.equalBy (· == ·) r'.clip = true ∧ k = k' := by
  induction r using induction_node generalizing r' k k' with
  | node a slots ih =>
    obtain ⟨b, slots'⟩ := r'
    rw [toList_text_append, toList_text_append] at h
    obtain ⟨hlabel, hbehind⟩ := append_eq_append_of_breaks (hwrite.not_delimiter a)
      (hwrite.not_delimiter b) (breaks_behindLabel slots hk) (breaks_behindLabel slots' hk') h
    have hlabel : (a == b) = true := (hwrite.eq_iff a b).1 (String.toList_inj.1 hlabel)
    have hopen : ∀ {k l}, Breaks afterTree k → k ≠ '(' :: l := by
      intro k l hk hl
      subst hl
      cases hk with
      | char hc => simp [afterTree] at hc
    rw [behindLabel, behindLabel] at hbehind
    cases hleaf : slots.all List.isEmpty with
    | true =>
      cases hleaf' : slots'.all List.isEmpty with
      | true =>
        rw [if_pos hleaf, if_pos hleaf'] at hbehind
        rw [clip_leaf hleaf, clip_leaf hleaf', equalBy_node_iff]
        exact ⟨⟨hlabel, .nil⟩, hbehind⟩
      | false =>
        rw [if_pos hleaf, if_neg (by simp [hleaf'])] at hbehind
        exact absurd hbehind (hopen hk)
    | false =>
      cases hleaf' : slots'.all List.isEmpty with
      | true =>
        rw [if_neg (by simp [hleaf]), if_pos hleaf'] at hbehind
        exact absurd hbehind.symm (hopen hk')
      | false =>
        rw [if_neg (by simp [hleaf]), if_neg (by simp [hleaf']), List.cons.injEq] at hbehind
        have hne : ∀ {xss : List (List (Rose α))}, xss.all List.isEmpty = false → xss ≠ [] := by
          rintro xss hxss rfl
          simp at hxss
        have hread : ∀ rs ∈ slots, ∀ rs' k k', Breaks afterSlot k → Breaks afterSlot k' →
            slotChars write rs ++ k = slotChars write rs' ++ k' →
            List.Forall₂ (fun r r' => r.clip.equalBy (· == ·) r'.clip = true) rs rs' ∧ k = k' :=
          fun rs hrs rs' k k' hk hk' => forall₂_of_slotChars_append hwrite
            (fun r hr r' k k' hk hk' hrr' => ih rs hrs r hr hk hk' hrr') hk hk'
        obtain ⟨hslots, hkk'⟩ := forall₂_of_intercalate_append (fun _ => .bar) hread (hne hleaf)
          (hne hleaf') (.char (by simp [afterSlot])) (.char (by simp [afterSlot]))
          (by simp) (by simp) hbehind.2
        rw [clip_inner hleaf, clip_inner hleaf', equalBy_node_iff]
        simp only [List.forall₂_map_left_iff, List.forall₂_map_right_iff]
        exact ⟨⟨hlabel, hslots⟩, (List.cons.inj hkk').2⟩

end Rose

namespace Tree

/-- Trees have one text exactly if they are the same rose tree but for the slots of leaves; if
equality of labels is coarser than identity, exactly if they are so up to equal labels.  Trees
with one text are equal. -/
theorem text_eq_iff_clip {α : Type} [BEq α] {write : α → String} (hwrite : Readable write)
    (t u : Tree α) :
    (t.text write = u.text write ↔
        (t.rose root).clip.equalBy (· == ·) (u.rose root).clip = true) ∧
      (∀ [LawfulBEq α], t.text write = u.text write ↔
        (t.rose root).clip = (u.rose root).clip) ∧
      (t.text write = u.text write → (t == u) = true) := by
  have hiff : t.text write = u.text write ↔
      (t.rose root).clip.equalBy (· == ·) (u.rose root).clip = true := by
    constructor
    · intro h
      exact (Rose.equalBy_clip_of_text_append hwrite .ended .ended
        (congrArg (String.toList · ++ []) h)).1
    · intro h
      have htext : (t.rose root).clip.text write = (u.rose root).clip.text write :=
        Rose.text_eq_of_equalBy (fun a b => (hwrite.eq_iff a b).2) h
      rwa [Rose.text_clip, Rose.text_clip] at htext
  refine ⟨hiff, hiff.trans (Rose.equalBy_iff_eq fun a b => beq_iff_eq), fun h => ?_⟩
  have htrim := Rose.equalBy_trim (hiff.1 h)
  rw [Rose.trim_clip, Rose.trim_clip, ← structEq_eq_equalBy] at htrim
  exact htrim

/-- Two labels with blanks, one of which is nothing but a blank. -/
def blanks (b : Bool) : String := if b then "x y" else " "

/-- The trees differ in the slots of leaves, and neither in the empty slot of the root nor in
labels that are blank. -/
theorem text_eq_iff_clip_blanks :
    Readable blanks ∧
      ((ofSubtrees true [[], [.leaf false, .single true 2]]).text blanks =
          (ofSubtrees true [[], [.single false 1, .leaf true]]).text blanks ↔
        ((ofSubtrees true [[], [.leaf false, .single true 2]]).rose root).clip =
          ((ofSubtrees true [[], [.single false 1, .leaf true]]).rose root).clip) ∧
      ((ofSubtrees true [[], [.leaf false, .single true 2]]).text blanks =
          (ofSubtrees true [[], [.single false 1, .leaf true]]).text blanks →
        (ofSubtrees true [[], [.leaf false, .single true 2]] ==
          ofSubtrees true [[], [.single false 1, .leaf true]]) = true) := by
  have hwrite : Readable blanks := by
    refine ⟨by decide, fun a => ?_, by decide⟩
    cases a <;> simp [blanks, delimiters]
  exact ⟨hwrite, (text_eq_iff_clip hwrite _ _).2.1, (text_eq_iff_clip hwrite _ _).2.2⟩

end Tree

end TreeGrammar
