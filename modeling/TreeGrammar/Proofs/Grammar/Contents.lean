/-
# What a grammar holds

A grammar that came about by additions of rules has, all entries taken together, what one rule
set would have: every rule is there because of an addition, with the sum of what was added for
it (`Grammar.mem_toList_addAll`), in the entry of its root label (`Grammar.exists_entry`), and the
total is the sum of all additions (`Grammar.total_addAll`).
-/
import TreeGrammar.Proofs.Grammar.Entries
import TreeGrammar.Proofs.Tree.Alike

namespace TreeGrammar

variable {α : Type} [BEq α]

lemma RuleSet.added_map_one (rules : List (Tree α)) (rule : Tree α) :
    added (rules.map fun r => (r, 1)) rule = rules.countP (· == rule) := by
  rw [added, List.filter_map, List.map_map, List.countP_eq_length_filter]
  simp [Function.comp_def]

/-- Among the additions for one root label are all those of a rule with this label. -/
lemma RuleSet.added_filter_rootLabel [EquivBEq α] {a : α} {rule : Tree α}
    (h : (rule.rootLabel == a) = true) (calls : List (Tree α × Nat)) :
    added (calls.filter fun c => c.1.rootLabel == a) rule = added calls rule := by
  rw [added, added, List.filter_filter]
  congr 2
  refine List.filter_congr fun c _ => ?_
  cases hc : c.1 == rule with
  | true => rw [BEq.trans (Tree.rootLabel_beq hc) h, Bool.and_self]
  | false => rfl

namespace Grammar

variable [Hashable α]

lemma ofList_eq_addAll (rules : List (Tree α)) :
    ofList rules = empty.addAll (rules.map fun r => (r, 1)) := by
  rw [ofList, addAll, List.foldl_map]
  rfl

lemma total_eq_sum (g : Grammar α) : g.total = (g.toList.map fun e => e.2.total).sum := by
  rw [total, List.sum_eq_foldl, List.foldl_map]

lemma total_openEntry (g : Grammar α) (label : α) : (g.openEntry label).total = g.total := by
  rw [openEntry]
  split
  · rfl
  · simp [total_eq_sum, toList, RuleSet.empty, RuleSet.emptyWith]

lemma total_addAt {g : Grammar α} {i : Nat} (h : i < g.entries.size) (rule : Tree α) (n : Nat) :
    (g.addAt i rule n).total = g.total + n := by
  rw [total_eq_sum, total_eq_sum, toList, addAt, Array.toList_modify]
  exact sum_map_modify (fun e => e.2.total_addCount rule n) (by simpa using h)

variable [EquivBEq α] {g : Grammar α} {calls : List (Tree α × Nat)}

/-- Every entry is found under its label. -/
lemma WellIndexed.productions_of_mem (hg : g.WellIndexed) {e : α × RuleSet α}
    (h : e ∈ g.toList) : g.productions e.1 = some e.2 := by
  obtain ⟨i, hi⟩ := List.mem_iff_getElem?.1 h
  rw [toList, Array.getElem?_toList] at hi
  rw [productions, (hg.index_iff e.1 i).2 ⟨e, hi, BEq.rfl⟩, Option.bind_some, hi]
  rfl

variable [LawfulHashable α]

/-- A rule that was added is in the entry of its root label, with the sum of what was added. -/
theorem exists_entry {a : α} {rule : Tree α} (hlabel : (rule.rootLabel == a) = true)
    (hadded : 0 < RuleSet.added calls rule) :
    ∃ rules, (empty.addAll calls).productions a = some rules ∧
      rules.count rule = RuleSet.added calls rule := by
  have hany : calls.any (fun c => c.1.rootLabel == a) = true := by
    rw [← RuleSet.added_filter_rootLabel hlabel] at hadded
    by_contra hnone
    have hnil : calls.filter (fun c => c.1.rootLabel == a) = [] := by
      simpa [List.filter_eq_nil_iff] using hnone
    rw [hnil] at hadded
    exact absurd hadded (by simp [RuleSet.added])
  refine ⟨_, ((productions_addAll calls).2 a).trans (if_pos hany), ?_⟩
  rw [RuleSet.empty, RuleSet.count_addAll Token.respects_digest,
    RuleSet.added_filter_rootLabel hlabel]

/-- A rule of an entry was added, has the label of the entry at its root, and the sum of what was
added as its count. -/
theorem mem_toList_addAll {e : α × RuleSet α} (he : e ∈ (empty.addAll calls).toList)
    {r : Tree α × Nat} (hr : r ∈ e.2.toList) :
    (∃ c ∈ calls, c.1 = r.1) ∧ (r.1.rootLabel == e.1) = true ∧
      r.2 = RuleSet.added calls r.1 := by
  obtain ⟨hg, hproductions⟩ := productions_addAll calls
  have hentry := (hg.productions_of_mem he).symm.trans (hproductions e.1)
  split at hentry
  case isTrue =>
    rw [Option.some.inj hentry] at hr
    obtain ⟨c, hc, -, hcr⟩ := RuleSet.exists_call_of_mem_toList Token.respects_digest hr
    obtain ⟨hc, hlabel⟩ := List.mem_filter.1 hc
    rw [hcr] at hlabel
    refine ⟨⟨c, hc, hcr⟩, hlabel, ?_⟩
    rw [RuleSet.snd_eq_added Token.respects_digest hr, RuleSet.added_filter_rootLabel hlabel]
  case isFalse => cases hentry

/-! ### The total -/

lemma total_addCount (hg : g.WellIndexed) (rule : Tree α) (n : Nat) :
    (g.addCount rule n).total = g.total + n := by
  obtain ⟨hopen, hsome, -⟩ := hg.openEntry_spec rule.rootLabel
  obtain ⟨i, hi⟩ := Option.isSome_iff_exists.1 hsome
  rw [addCount, addUnder_eq_addAt hi, total_addAt (hopen.lt_size hi), total_openEntry]

theorem total_addAll (calls : List (Tree α × Nat)) :
    ((empty : Grammar α).addAll calls).total = (calls.map (·.2)).sum := by
  induction calls using List.reverseRecOn with
  | nil => rfl
  | append_singleton calls c ih =>
    rw [addAll_append_singleton, total_addCount (productions_addAll calls).1, ih]
    simp

end Grammar

end TreeGrammar
