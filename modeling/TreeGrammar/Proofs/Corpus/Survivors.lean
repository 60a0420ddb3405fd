/-
# What survives the cutting

The pieces of a treebank are read off as a grammar of one-level trees.  Its rules are the one-level
trees of the inner nodes that are not rare, and each has the sum of the counts of those
productions that agree with it and are frequent enough (`Treebank.readOff_pieces`).  A production
of a piece is one of the treebank (`flatMap_productions_pieces_perm`), one-level trees are merged
exactly if their productions agree (`Tree.oneLevel_beq_oneLevel`), and the counts of different
productions add up to the number of nodes that have one of them (`sum_countP_beq`).
-/
import TreeGrammar.Corpus.ReadOff
import TreeGrammar.Proofs.Corpus.Agreement
import TreeGrammar.Proofs.Corpus.Counts
import TreeGrammar.Proofs.Grammar.Contents

namespace TreeGrammar

/-! ### Counting by keys -/

section

variable {β : Type} [BEq β] [EquivBEq β]

omit [BEq β] [EquivBEq β] in
lemma countP_or_of_disjoint {p q : β → Bool} {l : List β}
    (h : ∀ x ∈ l, p x = true → q x = false) :
    l.countP (fun x => p x || q x) = l.countP p + l.countP q := by
  induction l with
  | nil => rfl
  | cons x l ih =>
    obtain ⟨hx, hl⟩ := List.forall_mem_cons.1 h
    rw [List.countP_cons, List.countP_cons, List.countP_cons, ih hl]
    cases hp : p x with
    | true =>
      rw [hx hp]
      simp only [Bool.true_or, if_true, Bool.false_eq_true, if_false]
      omega
    | false =>
      simp only [Bool.false_or, Bool.false_eq_true, if_false]
      omega

/-- The members equal to one of several different keys are counted key by key. -/
lemma sum_countP_beq {keys : List β} (h : keys.Pairwise fun k k' => (k == k') = false)
    (l : List β) :
    (keys.map fun k => l.countP (· == k)).sum = l.countP fun x => keys.any (x == ·) := by
  induction keys with
  | nil => simp
  | cons k keys ih =>
    obtain ⟨hk, hkeys⟩ := List.pairwise_cons.1 h
    have hdisjoint : ∀ x ∈ l, (x == k) = true → keys.any (x == ·) = false := by
      intro x _ hxk
      rw [List.any_eq_false]
      intro k' hk' hxk'
      have hkk := BEq.trans (BEq.symm hxk) hxk'
      rw [hk k' hk'] at hkk
      cases hkk
    simp only [List.map_cons, List.sum_cons, ih hkeys, List.any_cons,
      countP_or_of_disjoint hdisjoint]

end

/-! ### One-level trees and productions -/

namespace Tree

variable {α : Type}

/-- The one-level trees of the inner nodes. -/
def oneLevels (t : Tree α) : List (Tree α) := (t.ids.filter fun v => !t.isLeaf v).map t.oneLevel

lemma mem_oneLevels_iff {t u : Tree α} :
    u ∈ t.oneLevels ↔ ∃ v < t.size, t.isLeaf v = false ∧ t.oneLevel v = u := by
  simp [oneLevels, ids, and_assoc]

lemma length_flatMap_oneLevels (ps : List (Tree α)) :
    (ps.flatMap oneLevels).length = (ps.flatMap productions).length := by
  rw [List.length_flatMap, List.length_flatMap]
  refine congrArg List.sum (List.map_congr_left fun t _ => ?_)
  rw [t.productions_perm_ids.length_eq, oneLevels, List.length_map, List.length_map]

/-- A one-level tree is there as often as productions agree with its own. -/
lemma countP_oneLevels [BEq α] (ps : List (Tree α)) (u : Tree α) (w : Nat) :
    (ps.flatMap oneLevels).countP (· == u.oneLevel w) =
      (ps.flatMap productions).countP fun q => q.agrees (u.production w) := by
  rw [List.countP_flatMap, List.countP_flatMap]
  refine congrArg List.sum (List.map_congr_left fun t _ => ?_)
  rw [Function.comp_apply, Function.comp_apply, t.productions_perm_ids.countP_eq, oneLevels,
    List.countP_map, List.countP_map]
  refine List.countP_congr fun v _ => ?_
  rw [Function.comp_apply, Function.comp_apply, oneLevel_beq_oneLevel]

lemma rootLabel_oneLevel (t : Tree α) (v : Nat) : (t.oneLevel v).rootLabel = t.label v := by
  rw [← label_root, (t.oneLevel_spec v).1]

end Tree

namespace Grammar

variable {α : Type} [BEq α] [Hashable α]

/-- Reading off adds the one-level trees of all inner nodes, tree after tree. -/
lemma readOff_eq_ofList (ts : List (Tree α)) :
    readOff false ts = ofList (ts.flatMap Tree.oneLevels) := by
  rw [ofList, List.foldl_flatMap, readOff]
  refine congrArg (fun f => ts.foldl f empty) (funext fun g => funext fun t => ?_)
  rw [Tree.oneLevels, List.foldl_map]
  rfl

end Grammar

namespace Treebank

variable {α : Type} [BEq α]

/-- How many inner nodes have a frequent production that agrees with `q`. -/
def kept (ts : List (Tree α)) (limit : Nat) (q : Production α) : Nat :=
  (ts.flatMap Tree.productions).countP fun p =>
    p.agrees q && decide (limit ≤ occurrences ts p)

/-- The rules of the grammar are the one-level trees of the inner nodes that are not rare, with the
counts that the treebank has for them. -/
structure Survivors [Hashable α] (ts : List (Tree α)) (limit : Nat) (g : Grammar α) : Prop where
  /-- The count of such a tree is the sum of the counts of all frequent productions that agree
  with that of the node. -/
  count_eq : ∀ t ∈ ts, ∀ v < t.size, t.isLeaf v = false → (ofList ts).isRare limit t v = false →
    ∃ rules, g.productions (t.label v) = some rules ∧
      rules.count (t.oneLevel v) =
        (((ofList ts).counts.toList.filter fun e =>
          e.1.agrees (t.production v) && decide (limit ≤ e.2)).map (·.2)).sum
  /-- Any rule is such a tree, in the entry of the label of the node, and is frequent enough. -/
  of_mem : ∀ e ∈ g.toList, ∀ r ∈ e.2.toList, limit ≤ r.2 ∧
    ∃ t ∈ ts, ∃ v < t.size, t.isLeaf v = false ∧ (ofList ts).isRare limit t v = false ∧
      (t.label v == e.1) = true ∧ (r.1 == t.oneLevel v) = true
  total_eq : g.total =
    (ts.map fun t => t.ids.countP fun v =>
      !t.isLeaf v && !(ofList ts).isRare limit t v).sum

variable [EquivBEq α] [Hashable α] [LawfulHashable α] {ts : List (Tree α)} {limit : Nat}

/-! ### What the treebank counted -/

lemma snd_eq_occurrences {e : Production α × Nat} (h : e ∈ (ofList ts).counts.toList) :
    e.2 = occurrences ts e.1 := by
  have hget := (Std.HashMap.mem_toList_iff_getKey?_eq_some_and_getElem?_eq_some.1 h).2
  rw [← getD_counts_ofList, Std.HashMap.getD_eq_getD_getElem?, hget]
  rfl

/-- Every production that occurs is counted under some key. -/
lemma exists_key {p : Production α} (h : p ∈ ts.flatMap Tree.productions) :
    ∃ e ∈ (ofList ts).counts.toList, (p == e.1) = true := by
  have hpos : 0 < occurrences ts p := List.countP_pos_iff.2 ⟨p, h, BEq.rfl⟩
  have hsome : (ofList ts).counts.toList.find? (fun e => e.1 == p) ≠ none := by
    intro hnone
    rw [Std.HashMap.find?_toList_eq_none_iff_contains_eq_false] at hnone
    rw [← getD_counts_ofList, Std.HashMap.getD_eq_fallback_of_contains_eq_false hnone] at hpos
    exact absurd hpos (lt_irrefl 0)
  obtain ⟨e, he⟩ := Option.ne_none_iff_exists'.1 hsome
  have hkey := List.find?_some he
  exact ⟨e, List.mem_of_find?_eq_some he, BEq.symm hkey⟩

/-- What is said alike of equal productions is counted key by key. -/
theorem sum_counts_filter (ts : List (Tree α)) {good : Production α → Bool}
    (hgood : ∀ p p' : Production α, (p == p') = true → good p = good p') :
    (((ofList ts).counts.toList.filter fun e => good e.1).map (·.2)).sum =
      (ts.flatMap Tree.productions).countP good := by
  set keys : List (Production α) :=
    ((ofList ts).counts.toList.filter fun e => good e.1).map (·.1) with hkeys
  have hdistinct : keys.Pairwise fun k k' => (k == k') = false :=
    List.pairwise_map.2 (Std.HashMap.distinct_keys_toList.filter _)
  have hcounts : ((ofList ts).counts.toList.filter fun e => good e.1).map (·.2) =
      keys.map (occurrences ts) := by
    rw [hkeys, List.map_map]
    exact List.map_congr_left fun e he => snd_eq_occurrences (List.mem_filter.1 he).1
  rw [hcounts]
  refine (sum_countP_beq hdistinct (ts.flatMap Tree.productions)).trans ?_
  refine List.countP_congr fun p hp => ?_
  rw [List.any_eq_true]
  constructor
  · rintro ⟨k, hk, hpk⟩
    obtain ⟨e, he, rfl⟩ := List.mem_map.1 hk
    exact (hgood p e.1 hpk).trans (List.mem_filter.1 he).2
  · intro hp'
    obtain ⟨e, he, hpe⟩ := exists_key hp
    have hkey : good e.1 = true := (hgood p e.1 hpe).symm.trans hp'
    exact ⟨e.1, List.mem_map_of_mem (List.mem_filter.2 ⟨he, hkey⟩), hpe⟩

/-- The counts of the frequent productions that agree with one production add up to the number of
nodes that have one of them. -/
theorem sum_counts_eq_kept (ts : List (Tree α)) (limit : Nat) (q : Production α) :
    (((ofList ts).counts.toList.filter fun e =>
        e.1.agrees q && decide (limit ≤ e.2)).map (·.2)).sum = kept ts limit q := by
  have hgood : ∀ p p' : Production α, (p == p') = true →
      (p.agrees q && decide (limit ≤ occurrences ts p)) =
        (p'.agrees q && decide (limit ≤ occurrences ts p')) := by
    intro p p' h
    rw [Production.agrees_congr_left h, occurrences_congr ts h]
  have hfilter : ((ofList ts).counts.toList.filter fun e =>
      e.1.agrees q && decide (limit ≤ e.2)) =
      (ofList ts).counts.toList.filter fun e =>
        e.1.agrees q && decide (limit ≤ occurrences ts e.1) :=
    List.filter_congr fun e he => by rw [snd_eq_occurrences he]
  have hsum := sum_counts_filter ts hgood
  rw [hfilter]
  exact hsum

/-! ### What is read off -/

/-- The pieces have a one-level tree as often as the treebank has frequent productions that agree
with it. -/
lemma countP_oneLevels_pieces (ts : List (Tree α)) (limit : Nat) (u : Tree α) (w : Nat) :
    (((ofList ts).pieces limit).flatMap Tree.oneLevels).countP (· == u.oneLevel w) =
      kept ts limit (u.production w) := by
  rw [Tree.countP_oneLevels, (flatMap_productions_pieces_perm ts limit).countP_eq,
    List.countP_filter, kept]

omit [Hashable α] [LawfulHashable α] in
/-- The nodes with a frequent production are kept. -/
lemma occurrences_le_kept {q : Production α} (h : limit ≤ occurrences ts q) :
    occurrences ts q ≤ kept ts limit q := by
  refine List.countP_mono_left fun p _ hpq => ?_
  rw [Production.agrees_congr_left hpq, Production.agrees_refl, occurrences_congr ts hpq]
  simpa using h

/-- An inner node of a piece has the production of an inner node that is not rare. -/
lemma exists_source {p : Tree α} (hp : p ∈ (ofList ts).pieces limit) {i : Nat} (hi : i < p.size)
    (hleaf : p.isLeaf i = false) :
    ∃ t ∈ ts, ∃ v < t.size, t.isLeaf v = false ∧ t.production v = p.production i ∧
      limit ≤ occurrences ts (t.production v) := by
  have hmem : p.production i ∈ p.productions := Tree.mem_productions_iff.2 ⟨i, hi, hleaf, rfl⟩
  have hkept := (flatMap_productions_pieces_perm ts limit).mem_iff.1
    (List.mem_flatMap.2 ⟨p, hp, hmem⟩)
  obtain ⟨hts, hlimit⟩ := List.mem_filter.1 hkept
  obtain ⟨t, ht, hq⟩ := List.mem_flatMap.1 hts
  obtain ⟨v, hv, hinner, heq⟩ := Tree.mem_productions_iff.1 hq
  refine ⟨t, ht, v, hv, hinner, heq, ?_⟩
  rw [heq]
  simpa using hlimit

omit [Hashable α] [LawfulHashable α] in
lemma occurrences_pos {t : Tree α} (ht : t ∈ ts) {v : Nat} (hv : v < t.size)
    (hleaf : t.isLeaf v = false) : 0 < occurrences ts (t.production v) := by
  have hmem : t.production v ∈ t.productions := Tree.mem_productions_iff.2 ⟨v, hv, hleaf, rfl⟩
  exact List.countP_pos_iff.2 ⟨_, List.mem_flatMap.2 ⟨t, ht, hmem⟩, BEq.rfl⟩

lemma isRare_eq_false_iff {t : Tree α} {v : Nat} (hleaf : t.isLeaf v = false) :
    (ofList ts).isRare limit t v = false ↔ limit ≤ occurrences ts (t.production v) := by
  rw [isRare_ofList, hleaf, Bool.not_false, Bool.true_and, decide_eq_false_iff_not, Nat.not_lt]

/-- The pieces have as many inner nodes as the trees have that are not rare. -/
lemma length_oneLevels_pieces (ts : List (Tree α)) (limit : Nat) :
    (((ofList ts).pieces limit).flatMap Tree.oneLevels).length =
      (ts.map fun t => t.ids.countP fun v =>
        !t.isLeaf v && !(ofList ts).isRare limit t v).sum := by
  rw [Tree.length_flatMap_oneLevels, (flatMap_productions_pieces_perm ts limit).length_eq,
    ← List.countP_eq_length_filter, List.countP_flatMap]
  refine congrArg List.sum (List.map_congr_left fun t _ => ?_)
  rw [Function.comp_apply, t.productions_perm_ids.countP_eq, List.countP_map, List.countP_filter]
  refine List.countP_congr fun v _ => ?_
  cases hleaf : t.isLeaf v with
  | true => simp
  | false => simp [← isRare_eq_false_iff hleaf]

/-- In whatever order the one-level trees of the pieces are added, the survivors are read off. -/
theorem survivors_ofList {rules : List (Tree α)}
    (hrules : rules.Perm (((ofList ts).pieces limit).flatMap Tree.oneLevels)) :
    Survivors ts limit (Grammar.ofList rules) := by
  have hadded : ∀ (t : Tree α) (v : Nat),
      RuleSet.added (rules.map fun r => (r, 1)) (t.oneLevel v) =
        kept ts limit (t.production v) := by
    intro t v
    rw [RuleSet.added_map_one, hrules.countP_eq, countP_oneLevels_pieces]
  rw [Grammar.ofList_eq_addAll]
  constructor
  case count_eq =>
    intro t ht v hv hleaf hrare
    have hkept := occurrences_le_kept ((isRare_eq_false_iff hleaf).1 hrare)
    have hlabel : ((t.oneLevel v).rootLabel == t.label v) = true := by
      rw [Tree.rootLabel_oneLevel]
      exact BEq.rfl
    obtain ⟨entry, hentry, hcount⟩ := Grammar.exists_entry hlabel
      ((occurrences_pos ht hv hleaf).trans_le (hkept.trans_eq (hadded t v).symm))
    exact ⟨entry, hentry, by rw [hcount, hadded, sum_counts_eq_kept]⟩
  case of_mem =>
    intro e he r hr
    obtain ⟨⟨c, hc, hcr⟩, hlabel, hcount⟩ := Grammar.mem_toList_addAll he hr
    obtain ⟨rule, hrule, rfl⟩ := List.mem_map.1 hc
    obtain ⟨p, hp, hpi⟩ := List.mem_flatMap.1 (hrules.mem_iff.1 hrule)
    obtain ⟨i, hi, hinner, rfl⟩ := Tree.mem_oneLevels_iff.1 hpi
    obtain ⟨t, ht, v, hv, hleaf, hproduction, hlimit⟩ := exists_source hp hi hinner
    have hcr : p.oneLevel i = r.1 := hcr
    refine ⟨?_, t, ht, v, hv, hleaf, (isRare_eq_false_iff hleaf).2 hlimit, ?_, ?_⟩
    · rw [hcount, ← hcr, hadded, ← hproduction]
      exact hlimit.trans (occurrences_le_kept hlimit)
    · rw [← hcr, Tree.rootLabel_oneLevel] at hlabel
      have hsame : t.label v = p.label i := congrArg Production.label hproduction
      rwa [hsame]
    · rw [← hcr, Tree.oneLevel_beq_oneLevel, hproduction]
      exact Production.agrees_refl _
  case total_eq =>
    rw [Grammar.total_addAll, List.map_map, ← length_oneLevels_pieces, ← hrules.length_eq]
    simp [Function.comp_def]

/-- The grammar that is read off the pieces of a treebank has its survivors, whatever the order in
which nodes are read off. -/
theorem readOff_pieces (ts : List (Tree α)) (limit : Nat) :
    Survivors ts limit (Grammar.readOff false ((ofList ts).pieces limit)) ∧
      ∀ rules, List.Perm rules (((ofList ts).pieces limit).flatMap Tree.oneLevels) →
        Survivors ts limit (Grammar.ofList rules) := by
  rw [Grammar.readOff_eq_ofList]
  exact ⟨survivors_ofList (.refl _), fun rules hrules => survivors_ofList hrules⟩

/-- Three trees `1 (2)`, one of which is rare because of its empty second slot. -/
theorem readOff_pieces_rare_slot :
    EquivBEq Nat ∧ LawfulHashable Nat ∧
      Survivors [.ofSubtrees 1 [[.leaf 2]], .ofSubtrees 1 [[.leaf 2], []],
          .ofSubtrees 1 [[.leaf 2]]] 2
        (Grammar.readOff false ((ofList [.ofSubtrees 1 [[.leaf 2]],
          .ofSubtrees 1 [[.leaf 2], []], .ofSubtrees 1 [[.leaf 2]]]).pieces 2)) ∧
      Survivors [.ofSubtrees 1 [[.leaf 2]], .ofSubtrees 1 [[.leaf 2], []],
          .ofSubtrees 1 [[.leaf 2]]] 2
        (Grammar.ofList (((ofList [.ofSubtrees 1 [[.leaf 2]],
          .ofSubtrees 1 [[.leaf 2], []],
          .ofSubtrees 1 [[.leaf 2]]]).pieces 2).flatMap Tree.oneLevels).reverse) :=
  ⟨inferInstance, inferInstance, (readOff_pieces _ 2).1,
    (readOff_pieces _ 2).2 _ (List.reverse_perm _)⟩

end Treebank

end TreeGrammar
