/-
# The numbers of patterns

A number is turned into a pattern when a pattern is looked up and when a sample is described, and
patterns are turned into numbers when they are listed.  All of these agree: the numbers from 1 up to
the number of patterns stand for the patterns in their order, and no others do
(`PatternBook.isNumbering`).  So a scan takes samples only of what can be described
(`PatternBook.isSampleOf_of_mem_sampleList`).  Words of 32 bits serve as numbers as long as there
are fewer patterns than words.
-/
import TreeGrammar.Proofs.Corpus.Samples

namespace TreeGrammar.PatternBook

variable {α : Type}

/-! ### What is registered -/

/-- Whether a rule with its count is frequent and sizeable enough for a pattern. -/
def qualifies (settings : PatternSettings) (r : Tree α × Nat) : Bool :=
  decide (settings.minCount ≤ r.2) && decide (settings.minSize ≤ r.1.size)

lemma patterns_foldl_register (settings : PatternSettings) (b : PatternBook α)
    (rules : List (Tree α × Nat)) :
    (rules.foldl (register settings) b).patterns.toList =
      b.patterns.toList ++ (rules.filter (qualifies settings)).map (·.1) := by
  induction rules generalizing b with
  | nil => simp
  | cons r rules ih =>
    rw [List.foldl_cons, ih, register, List.filter_cons]
    by_cases hr : settings.minCount ≤ r.2 ∧ settings.minSize ≤ r.1.size
    · have hqualifies : qualifies settings r = true := by simpa [qualifies] using hr
      rw [if_pos hr, if_pos hqualifies, Array.toList_push, List.map_cons, List.append_assoc,
        List.singleton_append]
    · have hqualifies : ¬ qualifies settings r = true := by simpa [qualifies] using hr
      rw [if_neg hr, if_neg hqualifies]

lemma patterns_ofGrammar [BEq α] [Hashable α] (settings : PatternSettings) (g : Grammar α) :
    (ofGrammar settings g).patterns.toList =
      ((g.toList.flatMap fun e => e.2.toList).filter (qualifies settings)).map (·.1) := by
  rw [ofGrammar, ← List.foldl_flatMap, patterns_foldl_register]
  rfl

/-! ### Numbers and patterns -/

variable (b : PatternBook α) {id : Nat} {p : Tree α}

lemma get?_eq_some_iff : b.get? id = some p ↔ (id, p) ∈ b.toList := by
  have hmem : (id, p) ∈ b.toList ↔ (p, id) ∈ b.patterns.toList.zipIdx 1 := by
    rw [toList, List.mem_map]
    constructor
    · rintro ⟨e, he, hswap⟩
      rwa [← Prod.swap_swap e, hswap] at he
    · exact fun he => ⟨_, he, rfl⟩
  rw [hmem, List.mk_mem_zipIdx_iff_le_and_getElem?_sub, Array.getElem?_toList, get?]
  split
  case isTrue hid =>
    rw [hid]
    exact iff_of_false (Option.some_ne_none p).symm fun h => absurd h.1 (by decide)
  case isFalse hid => exact ⟨fun h => ⟨Nat.one_le_iff_ne_zero.2 hid, h⟩, fun h => h.2⟩

lemma map_fst_toList : b.toList.map (·.1) = List.range' 1 b.size := by
  rw [toList, List.map_map]
  exact List.zipIdx_map_snd 1 _

lemma map_snd_toList : b.toList.map (·.2) = b.patterns.toList := by
  rw [toList, List.map_map]
  exact List.zipIdx_map_fst 1 _

lemma isSome_get?_iff : (b.get? id).isSome = true ↔ 1 ≤ id ∧ id ≤ b.size := by
  have hnumbers : (∃ p, (id, p) ∈ b.toList) ↔ id ∈ List.range' 1 b.size := by
    rw [← map_fst_toList, List.mem_map]
    exact ⟨fun ⟨p, hp⟩ => ⟨_, hp, rfl⟩, fun ⟨e, he, hid⟩ => ⟨e.2, hid ▸ he⟩⟩
  rw [Option.isSome_iff_exists]
  simp only [get?_eq_some_iff, hnumbers, List.mem_range'_1]
  omega

/-! ### Descriptions -/

variable {write : α → String} {previous : List α}

lemma describe_noPattern :
    b.describe write ⟨noPattern, previous⟩ =
      .ok (sampleText "NO_PATTERN" (previous.map write)) := rfl

lemma describe_of_get?_eq_some (h : b.get? id = some p) :
    b.describe write ⟨id, previous⟩ = .ok (sampleText (p.text write) (previous.map write)) := by
  rw [get?] at h
  split at h
  case isTrue => cases h
  case isFalse hid =>
    rw [describe, if_neg hid]
    simp only [h]
    rfl

/-- A number beyond the patterns has no text. -/
lemma describe_of_size_lt (h : b.size < id) :
    b.describe write ⟨id, previous⟩ = .error ⟨id, b.size⟩ := by
  have hid : ¬ id = noPattern := Nat.ne_zero_of_lt h
  have hnone : b.patterns[id - 1]? = none := Array.getElem?_eq_none (Nat.le_sub_one_of_lt h)
  rw [describe, if_neg hid]
  simp only [hnone]
  rfl

lemma describe_eq_error_iff {e : UnknownPattern} :
    b.describe write ⟨id, previous⟩ = .error e ↔ b.size < id ∧ e = ⟨id, b.size⟩ := by
  constructor
  · intro h
    -- with every other number there is a text
    by_cases hsize : b.size < id
    · rw [describe_of_size_lt b hsize] at h
      exact ⟨hsize, (Except.error.inj h).symm⟩
    · by_cases hid : id = noPattern
      · rw [hid, describe_noPattern] at h
        cases h
      · obtain ⟨p, hp⟩ := Option.isSome_iff_exists.1
          (b.isSome_get?_iff.2 ⟨Nat.one_le_iff_ne_zero.2 hid, Nat.le_of_not_lt hsize⟩)
        rw [describe_of_get?_eq_some b hp] at h
        cases h
  · rintro ⟨hsize, rfl⟩
    exact describe_of_size_lt b hsize

/-! ### Numbers as words -/

lemma map_toNat_numberFrom {β : Type} (xs : List β) (n : UInt32)
    (h : n.toNat + xs.length ≤ UInt32.size) :
    (numberFrom n xs).map (fun e => (e.1.toNat, e.2)) =
      (xs.zipIdx n.toNat).map Prod.swap := by
  induction xs generalizing n with
  | nil => rfl
  | cons x xs ih =>
    rw [List.length_cons] at h
    rw [numberFrom, List.map_cons, List.zipIdx_cons, List.map_cons]
    cases xs with
    | nil => rfl
    | cons y ys =>
      -- a further number is needed, and there is one
      have hnext : (n + 1).toNat = n.toNat + 1 := by
        rw [UInt32.toNat_add, UInt32.toNat_one]
        refine Nat.mod_eq_of_lt ?_
        rw [List.length_cons] at h
        have hsize : UInt32.size = 2 ^ 32 := rfl
        omega
      rw [ih (n + 1) (by rw [hnext]; omega), hnext]
      rfl

lemma map_toNat_listing (h : b.size < UInt32.size) :
    b.listing.map (fun e => (e.1.toNat, e.2)) = b.toList :=
  map_toNat_numberFrom b.patterns.toList 1 (by
    rw [UInt32.toNat_one, Array.length_toList]
    exact Nat.one_add_le_iff.2 h)

lemma get?_toNat_eq_some_iff (h : b.size < UInt32.size) {n : UInt32} :
    b.get? n.toNat = some p ↔ (n, p) ∈ b.listing := by
  rw [get?_eq_some_iff, ← map_toNat_listing b h, List.mem_map]
  constructor
  · rintro ⟨⟨m, q⟩, hmem, heq⟩
    obtain ⟨hmn, rfl⟩ := Prod.mk.inj heq
    exact UInt32.toNat_inj.1 hmn ▸ hmem
  · exact fun hmem => ⟨_, hmem, rfl⟩

/-! ### Samples -/

/-- A sample is one of a registered pattern that can be applied in the tree, and is described by the
text of this pattern. -/
def IsSampleOf (b : PatternBook α) (eq : α → α → Bool) (t : Tree α) (s : Sample α) : Prop :=
  ∃ p, (s.pattern, p) ∈ b.toList ∧ 1 ≤ s.pattern ∧ s.pattern ≤ b.size ∧
    (∃ v < t.size, Matcher.applies ⟨eq, .exact⟩ p t v = true) ∧
    ∀ write, b.describe write s = .ok (sampleText (p.text write) (s.previous.map write))

lemma isSampleOf_of_mem_sampleList {window : Nat} {eq : α → α → Bool} {t : Tree α} {s : Sample α}
    (h : s ∈ b.sampleList window eq t) : b.IsSampleOf eq t s := by
  rw [sampleList, samplesAlong, List.mem_flatMap] at h
  obtain ⟨⟨v, i⟩, hv, hs⟩ := h
  obtain ⟨id, hid, rfl⟩ := List.mem_map.1 hs
  obtain ⟨-, happlies⟩ := List.mem_filter.1 hid
  cases hp : b.get? id with
  | none =>
    rw [hp] at happlies
    cases happlies
  | some p =>
    rw [hp] at happlies
    obtain ⟨hpos, hle⟩ := b.isSome_get?_iff.1 (Option.isSome_of_eq_some hp)
    have hsize : v < t.size := Tree.mem_plan_iff.1 (List.fst_mem_of_mem_zipIdx hv)
    exact ⟨p, b.get?_eq_some_iff.1 hp, hpos, hle, ⟨v, hsize, happlies⟩,
      fun write => b.describe_of_get?_eq_some hp⟩

/-! ### The book of a grammar -/

/-- Numbers from 1 on stand for the patterns in their order, and no others do, whether patterns are
listed, looked up or described. -/
structure IsNumbering (b : PatternBook α) : Prop where
  ids_eq : b.toList.map (·.1) = List.range' 1 b.size
  patterns_eq : b.toList.map (·.2) = b.patterns.toList
  isSome_get?_iff : ∀ id, (b.get? id).isSome = true ↔ 1 ≤ id ∧ id ≤ b.size
  get?_iff : ∀ id p, b.get? id = some p ↔ (id, p) ∈ b.toList
  describe_eq : ∀ id p, (id, p) ∈ b.toList → ∀ write previous,
    b.describe write ⟨id, previous⟩ = .ok (sampleText (p.text write) (previous.map write))
  describe_noPattern : ∀ write previous, b.describe write ⟨noPattern, previous⟩ =
    .ok (sampleText "NO_PATTERN" (previous.map write))
  describe_eq_error_iff : ∀ id write previous e,
    b.describe write ⟨id, previous⟩ = .error e ↔ b.size < id ∧ e = ⟨id, b.size⟩
  /-- Words of 32 bits serve as well, unless there are too few. -/
  listing_eq : b.size < UInt32.size → b.listing.map (fun e => (e.1.toNat, e.2)) = b.toList
  get?_toNat_iff : b.size < UInt32.size → ∀ (n : UInt32) p,
    b.get? n.toNat = some p ↔ (n, p) ∈ b.listing

lemma isNumbering : b.IsNumbering where
  ids_eq := b.map_fst_toList
  patterns_eq := b.map_snd_toList
  isSome_get?_iff _ := b.isSome_get?_iff
  get?_iff _ _ := b.get?_eq_some_iff
  describe_eq _ _ h _ _ := b.describe_of_get?_eq_some (b.get?_eq_some_iff.2 h)
  describe_noPattern _ _ := b.describe_noPattern
  describe_eq_error_iff _ _ _ _ := b.describe_eq_error_iff
  listing_eq h := b.map_toNat_listing h
  get?_toNat_iff h _ _ := b.get?_toNat_eq_some_iff h

example : (PatternBook.mk #[fork, .leaf 4]).describe toString ⟨2, [1, 3]⟩ =
    .ok "Sample [tsgPattern=4, previousNodes=[1, 3]]" := by
  decide +kernel

end TreeGrammar.PatternBook
