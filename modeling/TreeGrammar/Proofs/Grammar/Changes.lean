/-
# Changes of a grammar

A grammar that was changed in any way still has the places of all labels in its index
(`Grammar.wellIndexed_changeAll`), and in columns it comes to the same (`columns_changeAll`).

An addition under a comparison, of which nothing is asked, goes to the entry that the root label of
the rule has thereafter (`addCountBy_eq_addAt`), so that a look-up under the same comparison finds
it there and nothing else has changed (`AddsInOnePlace`).  An entry is opened only for a label for
which there was none, so that it takes no label from another entry (`find?_opened`), unless the
comparison tells labels apart that are equal; so what was found once is found after any further
additions (`keepsFinding_addAllBy`).
-/
import TreeGrammar.Grammar.Columns
import TreeGrammar.Proofs.Grammar.Merged

namespace TreeGrammar

variable {α : Type} [BEq α]

/-- An addition to a rule set raises the count of one rule. -/
lemma RuleSet.count_addCount [Hashable α] [EquivBEq α] [LawfulHashable α] {s : RuleSet α}
    (h : ∃ calls, s = empty.addAll calls) (rule : Tree α) (n : Nat) (r : Tree α) :
    (s.addCount rule n).count r = s.count r + if rule == r then n else 0 := by
  obtain ⟨calls, rfl⟩ := h
  rw [← addAll_append_singleton empty calls (rule, n), empty,
    count_addAll Token.respects_digest, count_addAll Token.respects_digest,
    added_append_singleton]

/-- The columns are of one length, and the index has the place of each label and no others. -/
structure Columns.InStep [Hashable α] (c : Columns α) : Prop where
  size_eq : c.ruleSets.size = c.labels.size
  distinct : c.labels.toList.Pairwise fun a b => (a == b) = false
  index_iff : ∀ (a : α) (i : Nat),
    c.index[a]? = some i ↔ ∃ b, c.labels[i]? = some b ∧ (b == a) = true

namespace Grammar

variable [Hashable α] {g : Grammar α} {eq : α → α → Bool} {label : α} {i : Nat}

/-! ### The rules of an entry -/

lemma changeAll_append_singleton (g : Grammar α) (changes : List (GrammarChange α))
    (c : GrammarChange α) : g.changeAll (changes ++ [c]) = (g.changeAll changes).change c := by
  rw [changeAll, List.foldl_append]
  rfl

lemma forall_mem_change {P : RuleSet α → Prop} (hempty : P .empty)
    (hadd : ∀ s rule n, P s → P (s.addCount rule n)) (h : ∀ e ∈ g.toList, P e.2)
    (c : GrammarChange α) : ∀ e ∈ (g.change c).toList, P e.2 := by
  cases c with
  | openEntry label => exact forall_mem_openEntry hempty h label
  | addUnder label rule n =>
    exact forall_mem_addUnder hempty (fun _ => id) (hadd · rule n) h label
  | addCount rule n =>
    exact forall_mem_addUnder hempty (fun _ => id) (hadd · rule n) h rule.rootLabel
  | addCountBy eq rule n =>
    exact forall_mem_addCountBy hempty (fun _ => id) (hadd · rule n) h eq

lemma exists_addAll_of_mem (changes : List (GrammarChange α)) :
    ∀ e ∈ ((empty : Grammar α).changeAll changes).toList,
      ∃ calls, e.2 = RuleSet.empty.addAll calls := by
  induction changes using List.reverseRecOn with
  | nil => simp [changeAll, empty, toList]
  | append_singleton changes c ih =>
    rw [changeAll_append_singleton]
    refine forall_mem_change (P := fun s => ∃ calls, s = RuleSet.empty.addAll calls)
      ⟨[], rfl⟩ ?_ ih c
    rintro s rule n ⟨calls, rfl⟩
    exact ⟨calls ++ [(rule, n)], (RuleSet.addAll_append_singleton .empty calls (rule, n)).symm⟩

/-- The rules in the entry at a place, none if there is no entry. -/
def rulesAt (g : Grammar α) (i : Nat) : RuleSet α := (g.entries[i]?.map (·.2)).getD .empty

lemma exists_addAll_rulesAt (hrules : ∀ e ∈ g.toList, ∃ calls, e.2 = RuleSet.empty.addAll calls)
    (i : Nat) : ∃ calls, g.rulesAt i = RuleSet.empty.addAll calls := by
  rw [rulesAt]
  cases hi : g.entries[i]? with
  | none => exact ⟨[], rfl⟩
  | some e => exact hrules e (Array.mem_toList_iff.2 (Array.mem_of_getElem? hi))

/-! ### The place of an addition -/

/-- The grammar in which a look-up of `label` under `eq` finds an entry, a new one if need be. -/
def opened (g : Grammar α) (eq : α → α → Bool) (label : α) : Grammar α :=
  if (g.find? eq label).isNone then g.openEntry label else g

/-- The place of this entry. -/
def place (g : Grammar α) (eq : α → α → Bool) (label : α) : Nat :=
  (g.find? eq label).getD g.entries.size

lemma WellIndexed.lt_size_of_find? (hg : g.WellIndexed) (h : g.find? eq label = some i) :
    i < g.entries.size := by
  rw [find?] at h
  split at h
  case h_1 j hindex =>
    cases h
    exact hg.lt_size hindex
  case h_2 =>
    obtain ⟨hi, -⟩ := Array.findIdx?_eq_some_iff_getElem.1 h
    exact hi

lemma WellIndexed.productionsFor_eq_none_iff (hg : g.WellIndexed) :
    g.productionsFor eq label = none ↔ g.find? eq label = none := by
  rw [productionsFor]
  cases hfind : g.find? eq label with
  | none => simp
  | some i => simp [hg.lt_size_of_find? hfind]

section

variable [EquivBEq α] [LawfulHashable α]

/-- A new label is found last, unless it is the very label that is looked up. -/
lemma find?_openEntry (hnew : g.index[label]? = none) (eq : α → α → Bool) (l : α) :
    (g.openEntry label).find? eq l =
      if label == l then some g.entries.size
      else (g.find? eq l).or (if eq label l then some g.entries.size else none) := by
  rw [openEntry_of_index_eq_none hnew, find?, find?, Std.HashMap.getElem?_insert]
  by_cases hl : (label == l) = true
  · simp [hl]
  · rw [if_neg hl, if_neg hl]
    cases g.index[l]? with
    | some i => rfl
    | none => exact Array.findIdx?_push

/-- The index has the last place for a new label. -/
lemma index_openEntry_self (g : Grammar α) (label : α) :
    (g.openEntry label).index[label]? = some (g.index[label]?.getD g.entries.size) := by
  cases hindex : g.index[label]? with
  | some i =>
    rw [openEntry_of_index_eq_some hindex]
    exact hindex
  | none =>
    rw [openEntry_of_index_eq_none hindex]
    exact Std.HashMap.getElem?_insert_self

/-- Entries in other places stay when one is opened. -/
lemma getElem?_entries_openEntry
    (hi : i < g.entries.size ∨ i ≠ g.index[label]?.getD g.entries.size) :
    (g.openEntry label).entries[i]? = g.entries[i]? := by
  cases hindex : g.index[label]? with
  | some j => rw [openEntry_of_index_eq_some hindex]
  | none =>
    have hlast : i ≠ g.entries.size := by
      rcases hi with hi | hi
      · exact Nat.ne_of_lt hi
      · simpa [hindex] using hi
    rw [openEntry_of_index_eq_none hindex]
    simp [Array.getElem?_push, hlast]

/-- An addition goes to the place at which its root label is found thereafter. -/
lemma addCountBy_eq_addAt (g : Grammar α) (eq : α → α → Bool) (rule : Tree α) (n : Nat) :
    g.addCountBy eq rule n =
      (g.opened eq rule.rootLabel).addAt (g.place eq rule.rootLabel) rule n := by
  rw [addCountBy, opened, place]
  cases hfind : g.find? eq rule.rootLabel with
  | some i => rfl
  | none =>
    have hindex := g.index_openEntry_self rule.rootLabel
    rw [(of_find?_eq_none hfind).1] at hindex
    exact addUnder_eq_addAt hindex rule n

lemma find?_opened_self (g : Grammar α) (eq : α → α → Bool) (label : α) :
    (g.opened eq label).find? eq label = some (g.place eq label) := by
  rw [opened, place]
  cases hfind : g.find? eq label with
  | some i => simpa using hfind
  | none => simp [find?_openEntry (of_find?_eq_none hfind).1]

/-- An entry that is opened for want of one takes no label from another. -/
lemma find?_opened (heq : ∀ a b c, (b == c) = true → eq a b = eq a c) (label : α) {l : α}
    (h : g.find? eq l = some i) : (g.opened eq label).find? eq l = some i := by
  rw [opened]
  cases hfind : g.find? eq label with
  | some j => simpa using h
  | none =>
    have hne : ¬ (label == l) = true := by
      intro hl
      rw [g.find?_congr (fun a => heq a label l hl) hl, h] at hfind
      cases hfind
    simp [find?_openEntry (of_find?_eq_none hfind).1, hne, h]

lemma labels_opened (hg : g.WellIndexed) :
    (g.opened eq label).labels =
      g.labels ++ if (g.productionsFor eq label).isNone then [label] else [] := by
  rw [opened]
  cases hfind : g.find? eq label with
  | none =>
    have hnone := hg.productionsFor_eq_none_iff.2 hfind
    simp [openEntry_of_index_eq_none (of_find?_eq_none hfind).1, hnone, labels, toList]
  | some i =>
    have hsome : g.productionsFor eq label ≠ none := by
      simp [hg.productionsFor_eq_none_iff, hfind]
    simp [hsome]

/-- What there was in other places is there. -/
lemma getElem?_entries_opened (hi : i < g.entries.size ∨ i ≠ g.place eq label) :
    (g.opened eq label).entries[i]? = g.entries[i]? := by
  rw [opened]
  cases hfind : g.find? eq label with
  | some j => rfl
  | none =>
    refine getElem?_entries_openEntry (hi.imp_right fun hplace => ?_)
    rw [(of_find?_eq_none hfind).1]
    simpa [place, hfind] using hplace

/-- Where there was no entry there is an empty one. -/
lemma WellIndexed.getElem?_entries_place (hg : g.WellIndexed) (eq : α → α → Bool) (label : α) :
    ∃ l, (g.opened eq label).entries[g.place eq label]? =
      some (l, g.rulesAt (g.place eq label)) := by
  rw [opened, place, rulesAt]
  cases hfind : g.find? eq label with
  | some i =>
    have hi := hg.lt_size_of_find? hfind
    exact ⟨g.entries[i].1, by simp [hi]⟩
  | none =>
    exact ⟨label, by simp [openEntry_of_index_eq_none (of_find?_eq_none hfind).1]⟩

/-! ### One addition -/

/-- Of two grammars, the second is the first with `n` occurrences of a rule added in one entry, the
one that a look-up of its root label under `eq` finds. -/
structure AddsInOnePlace (g g' : Grammar α) (eq : α → α → Bool) (rule : Tree α) (n : Nat) :
    Prop where
  /-- There is a new label, at the end, if and only if the look-up found nothing. -/
  labels_eq : g'.labels =
    g.labels ++ if (g.productionsFor eq rule.rootLabel).isNone then [rule.rootLabel] else []
  /-- The counts are those of before, but for this rule in the entry that is found now. -/
  counts_eq : ∃ i rules, g'.find? eq rule.rootLabel = some i ∧
    g'.productionsFor eq rule.rootLabel = some rules ∧
    (∀ r, rules.count r = (g.rulesAt i).count r + if rule == r then n else 0) ∧
    ∀ j, j ≠ i → g'.entries[j]? = g.entries[j]?

theorem WellIndexed.addsInOnePlace_addCountBy (hg : g.WellIndexed)
    (hrules : ∀ e ∈ g.toList, ∃ calls, e.2 = RuleSet.empty.addAll calls)
    (eq : α → α → Bool) (rule : Tree α) (n : Nat) :
    g.AddsInOnePlace (g.addCountBy eq rule n) eq rule n := by
  rw [addCountBy_eq_addAt]
  have hfind := find?_opened_self g eq rule.rootLabel
  obtain ⟨l, hentry⟩ := hg.getElem?_entries_place eq rule.rootLabel
  refine ⟨(labels_addAt _ _ rule n).trans (labels_opened hg), g.place eq rule.rootLabel,
    (g.rulesAt (g.place eq rule.rootLabel)).addCount rule n, ?_, ?_, ?_, ?_⟩
  · rw [find?_addAt, hfind]
  · rw [productionsFor_addAt, productionsFor, hfind, Option.bind_some, hentry]
    simp
  · exact RuleSet.count_addCount (exists_addAll_rulesAt hrules _) rule n
  · intro j hj
    rw [getElem?_entries_addAt, getElem?_entries_opened (.inr hj)]
    simp [Ne.symm hj]

/-! ### Further additions -/

/-- What look-ups under `eq` found is found after further additions, and the entry has got those
whose root labels are found there. -/
structure KeepsFinding (g g' : Grammar α) (eq : α → α → Bool) (calls : List (Tree α × Nat)) :
    Prop where
  find?_eq : ∀ l i, g.find? eq l = some i → g'.find? eq l = some i
  entries_eq : ∀ (i : Nat) (l : α) (rules : RuleSet α), g.entries[i]? = some (l, rules) →
    g'.entries[i]? =
      some (l, rules.addAll (calls.filter fun c => g'.find? eq c.1.rootLabel == some i))

lemma find?_addCountBy (heq : ∀ a b c, (b == c) = true → eq a b = eq a c) (rule : Tree α)
    (n : Nat) {l : α} (h : g.find? eq l = some i) :
    (g.addCountBy eq rule n).find? eq l = some i := by
  rw [addCountBy_eq_addAt, find?_addAt]
  exact find?_opened heq _ h

/-- After additions the root labels of their rules are found. -/
lemma exists_find?_addAllBy (heq : ∀ a b c, (b == c) = true → eq a b = eq a c) (g : Grammar α)
    (calls : List (Tree α × Nat)) :
    ∀ c ∈ calls, ∃ i, (g.addAllBy eq calls).find? eq c.1.rootLabel = some i := by
  induction calls using List.reverseRecOn with
  | nil => simp
  | append_singleton calls c ih =>
    rw [addAllBy_append_singleton]
    intro c' hc'
    rcases List.mem_append.1 hc' with hc' | hc'
    · obtain ⟨i, hi⟩ := ih c' hc'
      exact ⟨i, find?_addCountBy heq c.1 c.2 hi⟩
    · rw [List.mem_singleton.1 hc', addCountBy_eq_addAt, find?_addAt]
      exact ⟨_, find?_opened_self _ eq _⟩

theorem keepsFinding_addAllBy (heq : ∀ a b c, (b == c) = true → eq a b = eq a c) (g : Grammar α)
    (calls : List (Tree α × Nat)) : g.KeepsFinding (g.addAllBy eq calls) eq calls := by
  induction calls using List.reverseRecOn with
  | nil => exact ⟨fun l i h => h, fun i l rules h => h⟩
  | append_singleton calls c ih =>
    have hkeep : ∀ l i, (g.addAllBy eq calls).find? eq l = some i →
        (g.addAllBy eq (calls ++ [c])).find? eq l = some i := by
      intro l i h
      rw [addAllBy_append_singleton]
      exact find?_addCountBy heq c.1 c.2 h
    refine ⟨fun l i h => hkeep l i (ih.find?_eq l i h), fun i l rules h => ?_⟩
    -- the additions before this one are found where they were found
    have hbefore : (calls.filter fun c' =>
        (g.addAllBy eq (calls ++ [c])).find? eq c'.1.rootLabel == some i) =
        calls.filter fun c' => (g.addAllBy eq calls).find? eq c'.1.rootLabel == some i := by
      refine List.filter_congr fun c' hc' => ?_
      obtain ⟨j, hj⟩ := exists_find?_addAllBy heq g calls c' hc'
      rw [hj, hkeep _ j hj]
    have hentry := ih.entries_eq i l rules h
    have hlt := (Array.getElem?_eq_some_iff.1 hentry).1
    have hlast : (g.addAllBy eq (calls ++ [c])).find? eq c.1.rootLabel =
        some ((g.addAllBy eq calls).place eq c.1.rootLabel) := by
      rw [addAllBy_append_singleton, addCountBy_eq_addAt, find?_addAt, find?_opened_self]
    rw [List.filter_append, hbefore, List.filter_singleton, hlast, addAllBy_append_singleton,
      addCountBy_eq_addAt, getElem?_entries_addAt, getElem?_entries_opened (.inl hlt), hentry]
    by_cases hi : (g.addAllBy eq calls).place eq c.1.rootLabel = i
    · simp [hi, RuleSet.addAll_append_singleton]
    · simp [hi, beq_false_of_ne hi]

/-! ### Changes -/

/-- Every change keeps the index in step with the entries. -/
lemma WellIndexed.change (hg : g.WellIndexed) (c : GrammarChange α) :
    (g.change c).WellIndexed := by
  cases c with
  | openEntry label => exact (hg.openEntry_spec label).1
  | addUnder label rule n => exact (hg.addUnder_spec label rule n).1
  | addCount rule n => exact (hg.addUnder_spec rule.rootLabel rule n).1
  | addCountBy eq rule n =>
    rw [Grammar.change, addCountBy]
    split
    · exact hg.addAt _ rule n
    · exact (hg.addUnder_spec rule.rootLabel rule n).1

/-- A change leaves alone all entries but one. -/
lemma exists_getElem?_entries_change (g : Grammar α) (c : GrammarChange α) :
    ∃ i : Nat, ∀ j : Nat, j ≠ i → (g.change c).entries[j]? = g.entries[j]? := by
  have hunder : ∀ label rule n (j : Nat), j ≠ g.index[label]?.getD g.entries.size →
      (g.addUnder label rule n).entries[j]? = g.entries[j]? := by
    intro label rule n j hj
    rw [addUnder_eq_addAt (g.index_openEntry_self label), getElem?_entries_addAt,
      getElem?_entries_openEntry (.inr hj)]
    simp [Ne.symm hj]
  cases c with
  | openEntry label => exact ⟨_, fun j hj => getElem?_entries_openEntry (.inr hj)⟩
  | addUnder label rule n => exact ⟨_, hunder label rule n⟩
  | addCount rule n => exact ⟨_, hunder rule.rootLabel rule n⟩
  | addCountBy eq rule n =>
    refine ⟨g.place eq rule.rootLabel, fun j hj => ?_⟩
    rw [Grammar.change, addCountBy_eq_addAt, getElem?_entries_addAt,
      getElem?_entries_opened (.inr hj)]
    simp [Ne.symm hj]

theorem wellIndexed_changeAll (changes : List (GrammarChange α)) :
    ((empty : Grammar α).changeAll changes).WellIndexed := by
  induction changes using List.reverseRecOn with
  | nil => exact wellIndexed_empty
  | append_singleton changes c ih =>
    rw [changeAll_append_singleton]
    exact ih.change c

end

/-! ### Columns -/

lemma find?_columns (g : Grammar α) (eq : α → α → Bool) (label : α) :
    g.columns.find? eq label = g.find? eq label := by
  have hlabels : (g.columns.labels.findIdx? fun key => eq key label) =
      g.entries.findIdx? fun e => eq e.1 label := Array.findIdx?_map
  rw [Columns.find?, hlabels, find?]
  rfl

lemma WellIndexed.productionsFor_columns (hg : g.WellIndexed) (eq : α → α → Bool) (label : α) :
    g.columns.productionsFor eq label = some (g.productionsFor eq label) := by
  rw [Columns.productionsFor, productionsFor, find?_columns]
  cases hfind : g.find? eq label with
  | none => rfl
  | some i => simp [columns, hg.lt_size_of_find? hfind]

lemma columns_addAt (hi : i < g.entries.size) (rule : Tree α) (n : Nat) :
    g.columns.addAt i rule n = some (g.addAt i rule n).columns := by
  have hlabels : (g.addAt i rule n).entries.map (fun e => e.1) = g.entries.map fun e => e.1 := by
    have h := labels_addAt g i rule n
    simp only [labels, toList, ← Array.toList_map] at h
    exact Array.toList_inj.1 h
  have hruleSets : (g.addAt i rule n).entries.map (fun e => e.2) =
      (g.entries.map fun e => e.2).modify i fun s => s.addCount rule n := by
    apply Array.ext_getElem?
    intro j
    rw [Array.getElem?_map, getElem?_entries_addAt, Array.getElem?_modify, Array.getElem?_map]
    by_cases hij : i = j
    · simp [hij, Function.comp_def]
    · simp [hij]
  rw [Columns.addAt, if_pos (by simpa [columns] using hi), columns, columns, hlabels, hruleSets]
  rfl

section

variable [EquivBEq α] [LawfulHashable α]

lemma WellIndexed.place_columns (hg : g.WellIndexed) (label : α) :
    ∃ i, (g.openEntry label).index[label]? = some i ∧ i < (g.openEntry label).entries.size ∧
      g.columns.place label = (i, (g.openEntry label).columns) := by
  rw [Columns.place]
  cases hindex : g.index[label]? with
  | some i =>
    rw [openEntry_of_index_eq_some hindex]
    exact ⟨i, hindex, hg.lt_size hindex, by simp [columns, hindex]⟩
  | none =>
    rw [openEntry_of_index_eq_none hindex]
    exact ⟨g.entries.size, by simp, by simp, by simp [columns, hindex]⟩

lemma WellIndexed.columns_addUnder (hg : g.WellIndexed) (label : α) (rule : Tree α) (n : Nat) :
    g.columns.addUnder label rule n = some (g.addUnder label rule n).columns := by
  obtain ⟨i, hindex, hlt, hplace⟩ := hg.place_columns label
  rw [Columns.addUnder, hplace, addUnder_eq_addAt hindex]
  exact columns_addAt hlt rule n

/-- A change of the columns has an outcome, which is that of the grammar. -/
theorem WellIndexed.columns_change (hg : g.WellIndexed) (c : GrammarChange α) :
    g.columns.change c = some (g.change c).columns := by
  cases c with
  | openEntry label =>
    obtain ⟨i, hindex, hlt, hplace⟩ := hg.place_columns label
    rw [Columns.change, Columns.openEntry, hplace]
    exact if_pos (by simpa [columns] using hlt)
  | addUnder label rule n => exact hg.columns_addUnder label rule n
  | addCount rule n => exact hg.columns_addUnder rule.rootLabel rule n
  | addCountBy eq rule n =>
    rw [Columns.change, Columns.addCountBy, find?_columns, Grammar.change, addCountBy]
    cases hfind : g.find? eq rule.rootLabel with
    | some i => exact columns_addAt (hg.lt_size_of_find? hfind) rule n
    | none => exact hg.columns_addUnder rule.rootLabel rule n

theorem columns_changeAll (changes : List (GrammarChange α)) :
    Columns.empty.changeAll changes = some ((empty : Grammar α).changeAll changes).columns := by
  induction changes using List.reverseRecOn with
  | nil => simp [Columns.changeAll, Columns.empty, changeAll, columns, empty]
  | append_singleton changes c ih =>
    rw [changeAll_append_singleton, ← (wellIndexed_changeAll changes).columns_change c,
      Columns.changeAll, List.foldlM_append, ← Columns.changeAll, ih]
    simp

/-! ### All changes -/

omit [LawfulHashable α] in
lemma WellIndexed.distinct (hg : g.WellIndexed) :
    g.labels.Pairwise fun a b => (a == b) = false := by
  rw [labels, List.pairwise_map, List.pairwise_iff_getElem]
  intro i j hi hj hij
  by_contra h
  have hentry : ∀ {i : Nat} (hi : i < g.toList.length), g.entries[i]? = some g.toList[i] :=
    fun hi => by rw [← Array.getElem?_toList]; exact List.getElem?_eq_getElem hi
  have hindexi := (hg.index_iff g.toList[j].1 i).2 ⟨_, hentry hi, by simpa using h⟩
  have hindexj := (hg.index_iff g.toList[j].1 j).2 ⟨_, hentry hj, BEq.rfl⟩
  exact Nat.ne_of_lt hij (Option.some.inj (hindexi.symm.trans hindexj))

omit [LawfulHashable α] in
lemma WellIndexed.inStep_columns (hg : g.WellIndexed) : g.columns.InStep where
  size_eq := by simp [columns]
  distinct := by simpa [columns, labels, toList] using hg.distinct
  index_iff a i := by
    refine (hg.index_iff a i).trans ?_
    simp [columns]

/-- What holds of a grammar that was changed in any way. -/
structure Consistent (g : Grammar α) : Prop where
  inStep : g.columns.InStep
  /-- No change touches two entries. -/
  exists_entry : ∀ c, ∃ i : Nat, ∀ j : Nat, j ≠ i → (g.change c).entries[j]? = g.entries[j]?
  /-- No look-up leads to a place without rules. -/
  productionsFor_columns : ∀ eq label,
    g.columns.productionsFor eq label = some (g.productionsFor eq label)
  addsInOnePlace : ∀ eq rule n, g.AddsInOnePlace (g.addCountBy eq rule n) eq rule n
  /-- Where equal labels are the same, no comparison loses an entry. -/
  keepsFinding_of_lawfulBEq : LawfulBEq α → ∀ eq calls,
    g.KeepsFinding (g.addAllBy eq calls) eq calls
  /-- Nor does one elsewhere that does not tell equal labels apart. -/
  keepsFinding_of_beq : ∀ eq : α → α → Bool, (∀ a b c, (b == c) = true → eq a b = eq a c) →
    ∀ calls, g.KeepsFinding (g.addAllBy eq calls) eq calls

/-- After any changes all places are in step, further additions go where look-ups find them, and
what look-ups found they find again. -/
theorem changeAll_consistent (changes : List (GrammarChange α)) :
    Columns.empty.changeAll changes = some ((empty : Grammar α).changeAll changes).columns ∧
      ((empty : Grammar α).changeAll changes).Consistent := by
  have hg := wellIndexed_changeAll changes
  refine ⟨columns_changeAll changes, hg.inStep_columns, exists_getElem?_entries_change _,
    hg.productionsFor_columns, ?_, ?_, ?_⟩
  · exact hg.addsInOnePlace_addCountBy (exists_addAll_of_mem changes)
  · intro hlawful eq
    exact keepsFinding_addAllBy (fun a b c h => by rw [eq_of_beq h]) _
  · intro eq heq
    exact keepsFinding_addAllBy heq _

/-- Numbers are looked up by equality and under a comparison that is neither symmetric nor
reflexive. -/
theorem changeAll_consistent_less :
    EquivBEq Nat ∧ LawfulHashable Nat ∧ ∃ g : Grammar Nat,
      Columns.empty.changeAll [.addCount (.leaf 2) 1, .openEntry 3, .addUnder 3 (.leaf 5) 2,
        .addCountBy (fun a b => decide (a < b)) (.leaf 4) 1,
        .addCountBy (fun a b => decide (a < b)) (.leaf 1) 3] = some g.columns ∧
      g.Consistent :=
  ⟨inferInstance, inferInstance, _, changeAll_consistent _⟩

end

end Grammar

end TreeGrammar
