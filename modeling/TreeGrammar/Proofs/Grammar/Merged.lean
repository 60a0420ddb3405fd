/-
# Grammars that merge labels

Additions under a comparison `eq` go to the entry that a look-up of the root label finds, and a
look-up tries the very label before it goes through the entries.  If `eq` is an equivalence that
does not tell equal labels apart (`Coarsens`), no label is opened beside one that `eq` takes for it,
so that it makes no difference in which of the two ways an entry is found: it is the only one whose
label `eq` accepts (`Merged`, `Merged.find?_eq_some_iff`).  One addition keeps this and goes to the
entry of all labels that `eq` accepts (`Merged.addCountBy_spec`); so after all of them an entry has
the additions for its class of labels (`productionsFor_addAllBy`), whatever their order.
-/
import TreeGrammar.Proofs.Grammar.Words

namespace TreeGrammar

variable {α : Type} [BEq α]

/-- The comparison is an equivalence that does not tell equal labels apart. -/
structure Coarsens (eq : α → α → Bool) : Prop where
  equivalence : Equivalence fun a b => eq a b = true
  of_beq : ∀ a b, (a == b) = true → eq a b = true

/-- Among the additions for a class of root labels are all those of a rule with a label of it. -/
lemma Coarsens.added_filter [EquivBEq α] {eq : α → α → Bool} (heq : Coarsens eq) {a : α}
    {rule : Tree α} (h : eq rule.rootLabel a = true) (calls : List (Tree α × Nat)) :
    RuleSet.added (calls.filter fun c => eq c.1.rootLabel a) rule = RuleSet.added calls rule := by
  rw [RuleSet.added, RuleSet.added, List.filter_filter]
  congr 2
  refine List.filter_congr fun c _ => ?_
  cases hc : c.1 == rule with
  | true =>
    rw [heq.equivalence.trans (heq.of_beq _ _ (Tree.rootLabel_beq hc)) h, Bool.and_self]
  | false => rfl

namespace Grammar

variable [Hashable α]

section

variable {N : Type} [OfNat N 0] [Add N] [DecidableEq N]

/-- Makes some additions under `eq` one after the other, each of a rule and a count, which is 1 for
`addBy`. -/
def addAllBy (g : Grammar α N) (eq : α → α → Bool) (calls : List (Tree α × N)) : Grammar α N :=
  calls.foldl (fun g c => g.addCountBy eq c.1 c.2) g

lemma addAllBy_append_singleton (g : Grammar α N) (eq : α → α → Bool) (calls : List (Tree α × N))
    (c : Tree α × N) :
    g.addAllBy eq (calls ++ [c]) = (g.addAllBy eq calls).addCountBy eq c.1 c.2 := by
  rw [addAllBy, List.foldl_append]
  rfl

end

/-! ### One entry for each class of labels -/

/-- The index has the places of all entries, and `eq` tells their labels apart. -/
structure Merged (g : Grammar α) (eq : α → α → Bool) : Prop where
  wellIndexed : g.WellIndexed
  distinct : g.labels.Pairwise fun a b => eq a b = false

variable {g : Grammar α} {eq : α → α → Bool} {label : α} {i : Nat}

lemma Merged.place_unique (hg : g.Merged eq) (heq : Coarsens eq) {i j : Nat}
    {e e' : α × RuleSet α} (hi : g.entries[i]? = some e) (hj : g.entries[j]? = some e')
    (h : eq e.1 e'.1 = true) : i = j := by
  have hlabel : ∀ {i : Nat} {e : α × RuleSet α}, g.entries[i]? = some e →
      g.labels[i]? = some e.1 := by
    intro i e hi
    rw [labels, List.getElem?_map, toList, Array.getElem?_toList, hi]
    rfl
  obtain ⟨hi', hei⟩ := List.getElem?_eq_some_iff.1 (hlabel hi)
  obtain ⟨hj', hej⟩ := List.getElem?_eq_some_iff.1 (hlabel hj)
  have hdistinct := List.pairwise_iff_getElem.1 hg.distinct
  rcases Nat.lt_trichotomy i j with hij | rfl | hji
  · have hne := hdistinct i j hi' hj' hij
    rw [hei, hej, h] at hne
    cases hne
  · rfl
  · have hne := hdistinct j i hj' hi' hji
    rw [hei, hej, heq.equivalence.symm h] at hne
    cases hne

/-- The entry that a look-up finds has a label that `eq` accepts. -/
lemma WellIndexed.find?_sound (hg : g.WellIndexed) (heq : Coarsens eq)
    (h : g.find? eq label = some i) : ∃ e, g.entries[i]? = some e ∧ eq e.1 label = true := by
  rw [find?] at h
  split at h
  case h_1 j hindex =>
    cases h
    obtain ⟨e, he, hlabel⟩ := (hg.index_iff label i).1 hindex
    exact ⟨e, he, heq.of_beq _ _ hlabel⟩
  case h_2 =>
    obtain ⟨hi, hlabel, -⟩ := Array.findIdx?_eq_some_iff_getElem.1 h
    exact ⟨g.entries[i], Array.getElem?_eq_getElem hi, hlabel⟩

/-- If a look-up finds no entry, the label has none, nor has one that `eq` takes for it. -/
lemma of_find?_eq_none (h : g.find? eq label = none) :
    g.index[label]? = none ∧ ∀ e ∈ g.toList, eq e.1 label = false := by
  rw [find?] at h
  split at h
  case h_1 => cases h
  case h_2 hindex =>
    exact ⟨hindex, fun e he => Array.findIdx?_eq_none_iff.1 h e (Array.mem_toList_iff.1 he)⟩

/-- The entry that a look-up finds is the only one whose label `eq` accepts. -/
theorem Merged.find?_eq_some_iff (hg : g.Merged eq) (heq : Coarsens eq) :
    g.find? eq label = some i ↔ ∃ e, g.entries[i]? = some e ∧ eq e.1 label = true := by
  refine ⟨hg.wellIndexed.find?_sound heq, ?_⟩
  rintro ⟨e, he, hlabel⟩
  cases hfind : g.find? eq label with
  | none =>
    have hmem : e ∈ g.toList := Array.mem_toList_iff.2 (Array.mem_of_getElem? he)
    rw [(of_find?_eq_none hfind).2 e hmem] at hlabel
    cases hlabel
  | some j =>
    obtain ⟨e', he', hlabel'⟩ := hg.wellIndexed.find?_sound heq hfind
    have hsame : eq e'.1 e.1 = true :=
      heq.equivalence.trans hlabel' (heq.equivalence.symm hlabel)
    rw [hg.place_unique heq he' he hsame]

lemma Merged.productionsFor_eq_some_iff (hg : g.Merged eq) (heq : Coarsens eq)
    {rules : RuleSet α} :
    g.productionsFor eq label = some rules ↔
      ∃ e ∈ g.toList, eq e.1 label = true ∧ e.2 = rules := by
  rw [productionsFor, Option.bind_eq_some_iff]
  constructor
  · rintro ⟨i, hi, hrules⟩
    obtain ⟨e, he, hlabel⟩ := (hg.find?_eq_some_iff heq).1 hi
    rw [he] at hrules
    exact ⟨e, Array.mem_toList_iff.2 (Array.mem_of_getElem? he), hlabel, Option.some.inj hrules⟩
  · rintro ⟨e, he, hlabel, rfl⟩
    obtain ⟨i, hi⟩ := List.mem_iff_getElem?.1 he
    rw [toList, Array.getElem?_toList] at hi
    exact ⟨i, (hg.find?_eq_some_iff heq).2 ⟨e, hi, hlabel⟩, by rw [hi]; rfl⟩

/-! ### One addition -/

/-- An addition to the entry that a look-up finds is one for all labels of its class. -/
lemma Merged.addAt_spec (hg : g.Merged eq) (heq : Coarsens eq)
    (hi : g.find? eq label = some i) (rule : Tree α) (n : Nat) :
    (g.addAt i rule n).Merged eq ∧ ∀ a, (g.addAt i rule n).productionsFor eq a =
      if eq label a then some (((g.productionsFor eq a).getD .empty).addCount rule n)
      else g.productionsFor eq a := by
  obtain ⟨e, he, hlabel⟩ := (hg.find?_eq_some_iff heq).1 hi
  have hfind : ∀ a, g.find? eq a = some i ↔ eq label a = true := by
    intro a
    rw [hg.find?_eq_some_iff heq]
    constructor
    · rintro ⟨e', he', ha⟩
      obtain rfl : e = e' := Option.some.inj (he.symm.trans he')
      exact heq.equivalence.trans (heq.equivalence.symm hlabel) ha
    · intro ha
      exact ⟨e, he, heq.equivalence.trans hlabel ha⟩
  refine ⟨⟨hg.wellIndexed.addAt i rule n, (labels_addAt g i rule n).symm ▸ hg.distinct⟩, ?_⟩
  intro a
  rw [productionsFor_addAt]
  simp only [hfind]
  split
  case isTrue ha =>
    have hentry : g.productionsFor eq a = some e.2 := by
      rw [productionsFor, (hfind a).2 ha, Option.bind_some, he]
      rfl
    rw [hentry]
    rfl
  case isFalse => exact Option.map_id'

section

variable [EquivBEq α] [LawfulHashable α]

lemma merged_empty (eq : α → α → Bool) : (empty : Grammar α).Merged eq :=
  ⟨wellIndexed_empty, .nil⟩

/-- An entry is opened for a class of labels that has none. -/
lemma Merged.openEntry_spec (hg : g.Merged eq) (heq : Coarsens eq)
    (hnone : g.find? eq label = none) :
    (g.openEntry label).Merged eq ∧ ∀ a, (g.openEntry label).productionsFor eq a =
        if eq label a then some .empty else g.productionsFor eq a := by
  obtain ⟨hindex, hold⟩ := of_find?_eq_none hnone
  have htoList : (g.openEntry label).toList = g.toList ++ [(label, .empty)] := by
    rw [openEntry_of_index_eq_none hindex, toList, Array.toList_push, toList]
  have hopen : (g.openEntry label).Merged eq := by
    refine ⟨(hg.wellIndexed.openEntry_spec label).1, ?_⟩
    rw [labels, htoList, List.map_append, List.pairwise_append]
    refine ⟨hg.distinct, List.pairwise_singleton _ _, ?_⟩
    rintro a ha b hb
    obtain ⟨e, he, rfl⟩ := List.mem_map.1 ha
    rw [List.mem_singleton.1 hb]
    exact hold e he
  refine ⟨hopen, fun a => ?_⟩
  split
  case isTrue ha =>
    rw [hopen.productionsFor_eq_some_iff heq, htoList]
    exact ⟨(label, .empty), by simp, ha, rfl⟩
  case isFalse ha =>
    refine Option.ext fun rules => ?_
    rw [hopen.productionsFor_eq_some_iff heq, hg.productionsFor_eq_some_iff heq, htoList]
    simp [ha]

/-- An addition is one for all labels that `eq` takes for the root label of the rule. -/
theorem Merged.addCountBy_spec (hg : g.Merged eq) (heq : Coarsens eq) (rule : Tree α) (n : Nat) :
    (g.addCountBy eq rule n).Merged eq ∧ ∀ a, (g.addCountBy eq rule n).productionsFor eq a =
      if eq rule.rootLabel a then some (((g.productionsFor eq a).getD .empty).addCount rule n)
      else g.productionsFor eq a := by
  rw [addCountBy]
  split
  case h_1 i hi => exact hg.addAt_spec heq hi rule n
  case h_2 hnone =>
    obtain ⟨hopen, hopened⟩ := hg.openEntry_spec heq hnone
    obtain ⟨i, hi⟩ := Option.isSome_iff_exists.1
      (hg.wellIndexed.openEntry_spec rule.rootLabel).2.1
    have hfind : (g.openEntry rule.rootLabel).find? eq rule.rootLabel = some i := by
      rw [find?, hi]
    obtain ⟨hmerged, hadded⟩ := hopen.addAt_spec heq hfind rule n
    rw [addCount, addUnder_eq_addAt hi]
    refine ⟨hmerged, fun a => ?_⟩
    rw [hadded, hopened]
    split
    case isTrue ha =>
      have hnew : g.productionsFor eq a = none := by
        refine Option.eq_none_iff_forall_ne_some.2 fun rules hrules => ?_
        obtain ⟨e, he, hlabel, -⟩ := (hg.productionsFor_eq_some_iff heq).1 hrules
        have hold := (of_find?_eq_none hnone).2 e he
        rw [heq.equivalence.trans hlabel (heq.equivalence.symm ha)] at hold
        cases hold
      rw [hnew]
      rfl
    case isFalse => rfl

/-! ### All additions -/

/-- The entry of a label has the additions of rules whose root label `eq` takes for it. -/
theorem productionsFor_addAllBy (heq : Coarsens eq) (calls : List (Tree α × Nat)) :
    ((empty : Grammar α).addAllBy eq calls).Merged eq ∧
      ∀ a, ((empty : Grammar α).addAllBy eq calls).productionsFor eq a =
        if calls.any (fun c => eq c.1.rootLabel a) then
          some (RuleSet.empty.addAll (calls.filter fun c => eq c.1.rootLabel a))
        else none := by
  induction calls using List.reverseRecOn with
  | nil => exact ⟨merged_empty eq, fun a => by simp [addAllBy, productionsFor, find?, empty]⟩
  | append_singleton calls c ih =>
    obtain ⟨hg, hproductions⟩ := ih
    obtain ⟨hadd, hadded⟩ := hg.addCountBy_spec heq c.1 c.2
    rw [addAllBy_append_singleton]
    refine ⟨hadd, fun a => ?_⟩
    rw [hadded, hproductions, RuleSet.addAll_filter_append_singleton]

/-! ### Counts in words -/

omit [EquivBEq α] [LawfulHashable α] in
/-- Additions in words are those in numbers, taken modulo 2^64. -/
lemma addAllBy_eq_wrap (eq : α → α → Bool) (calls : List (Tree α × UInt64)) :
    (empty : Grammar α UInt64).addAllBy eq calls =
      ((empty : Grammar α).addAllBy eq (RuleSet.inNumbers calls)).wrap := by
  induction calls using List.reverseRecOn with
  | nil => exact addAll_eq_wrap []
  | append_singleton calls c ih =>
    rw [RuleSet.inNumbers, List.map_append, List.map_singleton, ← RuleSet.inNumbers,
      addAllBy_append_singleton, addAllBy_append_singleton, ih, addCountBy_wrap]

/-- The entry of a label has the additions of rules whose root label `eq` takes for it. -/
theorem productionsFor_addAllBy_words (heq : Coarsens eq) (calls : List (Tree α × UInt64))
    (a : α) :
    ((empty : Grammar α UInt64).addAllBy eq calls).productionsFor eq a =
      if calls.any (fun c => eq c.1.rootLabel a) then
        some (RuleSet.empty.addAll (calls.filter fun c => eq c.1.rootLabel a))
      else none := by
  rw [addAllBy_eq_wrap, wrap, productionsFor_mapCounts, (productionsFor_addAllBy heq _).2]
  exact map_wrap_addAll_filter (fun r => eq r.rootLabel a) calls

/-- The grammar has what was added, in one entry for each class of root labels, with the counts
taken modulo 2^64. -/
structure IsMergeOf (g : Grammar α UInt64) (eq : α → α → Bool)
    (calls : List (Tree α × UInt64)) : Prop where
  distinct : g.labels.Pairwise fun a b => eq a b = false
  isSome_iff : ∀ a,
    (g.productionsFor eq a).isSome = true ↔ ∃ c ∈ calls, eq c.1.rootLabel a = true
  count_eq : ∀ a rules, g.productionsFor eq a = some rules →
    ∀ rule, eq rule.rootLabel a = true →
      (rules.count rule).toNat = RuleSet.added (RuleSet.inNumbers calls) rule % UInt64.size
  total_eq : ∀ a rules, g.productionsFor eq a = some rules →
    rules.total.toNat =
      RuleSet.amount (calls.filter fun c => eq c.1.rootLabel a) % UInt64.size

/-- Additions under one comparison neither lose nor split anything but what runs over the words
for the counts, and their order shows at most in the order of the rules and in which of equal trees
and labels came first. -/
theorem addAllBy_isMergeOf (heq : Coarsens eq) (calls : List (Tree α × UInt64)) :
    ((empty : Grammar α UInt64).addAllBy eq calls).IsMergeOf eq calls ∧
      ∀ calls', calls.Perm calls' → ∀ a, Option.Rel RuleSet.SameContents
        (((empty : Grammar α UInt64).addAllBy eq calls).productionsFor eq a)
        (((empty : Grammar α UInt64).addAllBy eq calls').productionsFor eq a) := by
  have hproductions := productionsFor_addAllBy_words heq calls
  have hentry : ∀ a rules, ((empty : Grammar α UInt64).addAllBy eq calls).productionsFor eq a =
      some rules → rules = RuleSet.empty.addAll (calls.filter fun c => eq c.1.rootLabel a) := by
    intro a rules hrules
    rw [hproductions] at hrules
    split at hrules
    case isTrue => exact (Option.some.inj hrules).symm
    case isFalse => cases hrules
  refine ⟨⟨?_, fun a => ?_, fun a rules hrules rule hlabel => ?_, fun a rules hrules => ?_⟩,
    fun calls' hperm a => ?_⟩
  · rw [addAllBy_eq_wrap, wrap, labels_mapCounts]
    exact (productionsFor_addAllBy heq _).1.distinct
  · rw [hproductions, ← List.any_eq_true]
    split
    case isTrue hany => simp [hany]
    case isFalse hnone => simp [hnone]
  · rw [hentry a rules hrules, RuleSet.empty, RuleSet.toNat_count_addAll Token.respects_digest,
      ← filter_inNumbers fun r => eq r.rootLabel a, heq.added_filter hlabel]
  · rw [hentry a rules hrules]
    exact RuleSet.toNat_total_addAll Token.digest _
  · rw [hproductions, productionsFor_addAllBy_words heq calls', hperm.any_eq]
    split
    case isTrue =>
      rw [RuleSet.empty, RuleSet.addAll_eq_wrap, RuleSet.addAll_eq_wrap]
      exact .some ((RuleSet.addAll_isTally Token.respects_digest Token.respects_digest _).2 _
        ((hperm.filter _).map _)).wrap
    case isFalse => exact .none

end

/-- Odd labels have one entry and even ones another; a leaf is one rule with and without an empty
slot, and a count may be 0. -/
theorem addAllBy_isMergeOf_parity :
    EquivBEq Nat ∧ LawfulHashable Nat ∧ Coarsens (fun a b : Nat => a % 2 == b % 2) ∧
      ((empty : Grammar Nat UInt64).addAllBy (fun a b => a % 2 == b % 2)
          [(.leaf 1, 2), (.leaf 4, 0), (.leaf 3, 1), (.single 1 1, 3)]).IsMergeOf
        (fun a b => a % 2 == b % 2)
        [(.leaf 1, 2), (.leaf 4, 0), (.leaf 3, 1), (.single 1 1, 3)] ∧
      ∀ calls', List.Perm [(.leaf 1, 2), (.leaf 4, 0), (.leaf 3, 1), (.single 1 1, 3)] calls' →
        ∀ a, Option.Rel RuleSet.SameContents
          (((empty : Grammar Nat UInt64).addAllBy (fun a b => a % 2 == b % 2)
            [(.leaf 1, 2), (.leaf 4, 0), (.leaf 3, 1), (.single 1 1, 3)]).productionsFor
              (fun a b => a % 2 == b % 2) a)
          (((empty : Grammar Nat UInt64).addAllBy (fun a b => a % 2 == b % 2)
            calls').productionsFor (fun a b => a % 2 == b % 2) a) := by
  have hparity : Coarsens fun a b : Nat => a % 2 == b % 2 :=
    ⟨⟨fun _ => BEq.rfl, BEq.symm, BEq.trans⟩, fun _ _ h => by rw [eq_of_beq h]; exact BEq.rfl⟩
  exact ⟨inferInstance, inferInstance, hparity, addAllBy_isMergeOf hparity _⟩

/-- A rule that is added 2^64 - 1 times and then twice is left with the count 1. -/
theorem addAllBy_runs_over :
    Coarsens (fun a b : Nat => a == b) ∧ ∃ rules : RuleSet Nat UInt64,
      ((empty : Grammar Nat UInt64).addAllBy (fun a b => a == b)
          [(.leaf 1, 18446744073709551615), (.leaf 1, 2)]).productionsFor (fun a b => a == b) 1 =
        some rules ∧
      (rules.count (.leaf 1)).toNat = 1 ∧
      RuleSet.added (RuleSet.inNumbers [(.leaf 1, 18446744073709551615), (.leaf 1, 2)])
        (.leaf 1 : Tree Nat) = 18446744073709551617 ∧
      rules.total.toNat = 1 ∧
      RuleSet.amount [((.leaf 1 : Tree Nat), 18446744073709551615), (.leaf 1, 2)] =
        18446744073709551617 := by
  have heq : Coarsens fun a b : Nat => a == b :=
    ⟨⟨fun _ => BEq.rfl, BEq.symm, BEq.trans⟩, fun _ _ h => h⟩
  have hadded : RuleSet.added (RuleSet.inNumbers [(.leaf 1, 18446744073709551615), (.leaf 1, 2)])
      (.leaf 1 : Tree Nat) = 18446744073709551617 := by decide +kernel
  have hamount : RuleSet.amount [((.leaf 1 : Tree Nat), 18446744073709551615), (.leaf 1, 2)] =
      18446744073709551617 := by decide +kernel
  refine ⟨heq, _, productionsFor_addAllBy_words heq _ 1, ?_, hadded, ?_, hamount⟩
  · exact (RuleSet.toNat_count_addAll Token.respects_digest _ _).trans
      (congrArg (· % UInt64.size) hadded)
  · exact (RuleSet.toNat_total_addAll Token.digest _).trans
      (congrArg (· % UInt64.size) hamount)

end Grammar

end TreeGrammar
