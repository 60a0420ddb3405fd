/-
# Entries of a grammar

The counts in a rule set that came about by additions are positive (`RuleSet.Grown.count_bounds`),
and they add up to the total (`RuleSet.Grown.total_eq_sum`).  No operation of a grammar opens an
entry with any other rule set, so that what additions keep holds of all entries
(`forall_mem_addCountBy`).  An addition to an entry leaves alone which entry a
look-up finds (`productionsFor_addAt`).  For these facts nothing is asked of the comparison of
labels, nor of their hashes.

If equal labels have one hash, the index has the places of all entries (`WellIndexed`), and
what a look-up of a label finds are the additions of rules with this label at their root
(`productions_addAll`).
-/
import TreeGrammar.Grammar.Basic
import TreeGrammar.Proofs.Grammar.RuleSet

namespace TreeGrammar

variable {α : Type} [BEq α]

/-! ### Rule sets that came about by additions -/

namespace RuleSet

/-- An addition keeps all rules in place, and has at most one new rule at the end. -/
lemma rules_addCount (s : RuleSet α) (rule : Tree α) (n : Nat) :
    (s.addCount rule n).rules = s.rules ∨ (s.addCount rule n).rules = s.rules ++ [rule] := by
  obtain ⟨-, h⟩ | ⟨-, -, i, -, h⟩ | ⟨-, -, h⟩ := s.addCount_cases rule n
  · exact .inl (by rw [h])
  · rw [rules, h, toList, ← Array.toList_modify]
    exact .inl (rules_modify s.entries i n)
  · exact .inr (by simp [rules, h])

/-- The rule set came about by additions, beginning with none. -/
def Grown (s : RuleSet α) : Prop :=
  ∃ (digest : List (Token α) → UInt64) (calls : List (Tree α × Nat)),
    s = (emptyWith digest).addAll calls

/-- What holds of an empty rule set, and after every addition if it held before, holds of every
rule set that came about by additions. -/
@[elab_as_elim]
theorem Grown.induction {motive : RuleSet α → Prop} (empty : ∀ digest, motive (emptyWith digest))
    (addCount : ∀ s rule n, motive s → motive (s.addCount rule n)) {s : RuleSet α}
    (h : s.Grown) : motive s := by
  obtain ⟨digest, calls, rfl⟩ := h
  induction calls using List.reverseRecOn with
  | nil => exact empty digest
  | append_singleton calls c ih =>
    rw [addAll_append_singleton]
    exact addCount _ c.1 c.2 ih

lemma one_le_addCount {s : RuleSet α} (h : ∀ e ∈ s.toList, 1 ≤ e.2) (rule : Tree α) (n : Nat) :
    ∀ e ∈ (s.addCount rule n).toList, 1 ≤ e.2 := by
  obtain ⟨-, hs⟩ | ⟨-, -, i, -, hlist⟩ | ⟨hn, -, hlist⟩ := s.addCount_cases rule n
  · rw [hs]
    exact h
  · rw [hlist]
    intro e he
    obtain ⟨j, hj⟩ := List.mem_iff_getElem?.1 he
    rw [List.getElem?_modify] at hj
    obtain ⟨e', he', rfl⟩ := Option.map_eq_some_iff.1 hj
    have hpos := h e' (List.mem_of_getElem? he')
    split
    · exact hpos.trans (Nat.le_add_right _ _)
    · exact hpos
  · rw [hlist]
    intro e he
    rcases List.mem_append.1 he with he | he
    · exact h e he
    · rw [List.mem_singleton.1 he]
      exact Nat.one_le_iff_ne_zero.2 hn

lemma total_eq_sum_addCount {s : RuleSet α} (h : s.total = (s.toList.map (·.2)).sum)
    (rule : Tree α) (n : Nat) :
    (s.addCount rule n).total = ((s.addCount rule n).toList.map (·.2)).sum := by
  obtain ⟨-, hs⟩ | ⟨-, htotal, i, hi, hlist⟩ | ⟨-, htotal, hlist⟩ := s.addCount_cases rule n
  · rw [hs]
    exact h
  · rw [htotal, hlist, sum_map_modify (fun _ => rfl) hi, h]
  · rw [htotal, hlist, h]
    simp

/-- The counts of all rules add up to the total. -/
theorem Grown.total_eq_sum {s : RuleSet α} (h : s.Grown) :
    s.total = (s.toList.map (·.2)).sum := by
  refine h.induction ?_ ?_
  · intro digest
    rfl
  · intro s rule n ih
    exact total_eq_sum_addCount ih rule n

/-- Every rule was added at least once, and not more often than all rules together. -/
theorem Grown.count_bounds {s : RuleSet α} (h : s.Grown) :
    ∀ e ∈ s.toList, 1 ≤ e.2 ∧ e.2 ≤ s.total := by
  have hone : ∀ e ∈ s.toList, 1 ≤ e.2 := by
    refine h.induction ?_ ?_
    · intro digest
      simp [emptyWith, toList]
    · intro s rule n ih
      exact one_le_addCount ih rule n
  intro e he
  rw [h.total_eq_sum]
  exact ⟨hone e he, List.le_sum_of_mem (List.mem_map_of_mem he)⟩

/-- An addition that `p` accepts is made to those before it that `p` accepts. -/
lemma addAll_filter_append_singleton [Hashable α] (p : Tree α × Nat → Bool)
    (calls : List (Tree α × Nat)) (c : Tree α × Nat) :
    (if (calls ++ [c]).any p then
        some ((empty : RuleSet α).addAll ((calls ++ [c]).filter p)) else none) =
      if p c then
        some (((if calls.any p then some (empty.addAll (calls.filter p)) else none).getD
          .empty).addCount c.1 c.2)
      else if calls.any p then some (empty.addAll (calls.filter p)) else none := by
  rw [List.any_append, List.filter_append]
  by_cases hc : p c = true
  · have hbefore : (if calls.any p then some ((empty : RuleSet α).addAll (calls.filter p))
        else none).getD .empty = empty.addAll (calls.filter p) := by
      split
      case isTrue => rfl
      case isFalse hnone =>
        have hnil : calls.filter p = [] := by
          simpa [List.filter_eq_nil_iff] using hnone
        rw [hnil]
        rfl
    rw [hbefore]
    simp [hc, addAll_append_singleton]
  · have hany : [c].any p = false := by simpa using hc
    have hfilter : [c].filter p = [] := by simpa using hc
    rw [if_neg hc, hany, hfilter, Bool.or_false, List.append_nil]

end RuleSet

namespace Grammar

variable [Hashable α]

section

variable {N : Type} [OfNat N 0] [Add N] [DecidableEq N] {P Q : RuleSet α N → Prop}
  {g : Grammar α N} {rule : Tree α} {n : N}

omit [Add N] [DecidableEq N] in
/-- What holds of an empty rule set and of all entries holds of them after an entry is opened. -/
lemma forall_mem_openEntry (hempty : P .empty) (h : ∀ e ∈ g.toList, P e.2) (label : α) :
    ∀ e ∈ (g.openEntry label).toList, P e.2 := by
  rw [openEntry]
  split
  · exact h
  · intro e he
    rw [toList, Array.toList_push, List.mem_append, List.mem_singleton] at he
    rcases he with he | rfl
    · exact h e he
    · exact hempty

/-- What holds of a rule set with and without an addition holds of all entries after one of them got
this addition. -/
lemma forall_mem_addAt (hkeep : ∀ s, P s → Q s) (hadd : ∀ s, P s → Q (s.addCount rule n))
    (h : ∀ e ∈ g.toList, P e.2) (i : Nat) : ∀ e ∈ (g.addAt i rule n).toList, Q e.2 := by
  intro e he
  rw [toList, addAt, Array.toList_modify] at he
  obtain ⟨j, hj⟩ := List.mem_iff_getElem?.1 he
  rw [List.getElem?_modify] at hj
  obtain ⟨e', he', rfl⟩ := Option.map_eq_some_iff.1 hj
  have hold := h e' (List.mem_of_getElem? he')
  split
  · exact hadd e'.2 hold
  · exact hkeep e'.2 hold

lemma forall_mem_addUnder (hempty : P .empty) (hkeep : ∀ s, P s → Q s)
    (hadd : ∀ s, P s → Q (s.addCount rule n)) (h : ∀ e ∈ g.toList, P e.2) (label : α) :
    ∀ e ∈ (g.addUnder label rule n).toList, Q e.2 := by
  have hopen := forall_mem_openEntry hempty h label
  rw [addUnder]
  split
  · exact forall_mem_addAt hkeep hadd hopen _
  · exact fun e he => hkeep e.2 (hopen e he)

lemma forall_mem_addCountBy (hempty : P .empty) (hkeep : ∀ s, P s → Q s)
    (hadd : ∀ s, P s → Q (s.addCount rule n)) (h : ∀ e ∈ g.toList, P e.2) (eq : α → α → Bool) :
    ∀ e ∈ (g.addCountBy eq rule n).toList, Q e.2 := by
  rw [addCountBy]
  split
  · exact forall_mem_addAt hkeep hadd h _
  · exact forall_mem_addUnder hempty hkeep hadd h rule.rootLabel

omit [OfNat N 0] [Add N] [DecidableEq N] in
/-- What a look-up finds is an entry. -/
lemma exists_mem_of_productionsFor {eq : α → α → Bool} {label : α} {rules : RuleSet α N}
    (h : g.productionsFor eq label = some rules) : ∃ e ∈ g.toList, e.2 = rules := by
  obtain ⟨i, -, hi⟩ := Option.bind_eq_some_iff.1 h
  obtain ⟨e, he, rfl⟩ := Option.map_eq_some_iff.1 hi
  exact ⟨e, Array.mem_toList_iff.2 (Array.mem_of_getElem? he), rfl⟩

end

/-! ### One entry changes -/

lemma getElem?_entries_addAt (g : Grammar α) (i : Nat) (rule : Tree α) (n j : Nat) :
    (g.addAt i rule n).entries[j]? =
      g.entries[j]?.map fun e => if i = j then (e.1, e.2.addCount rule n) else e := by
  rw [addAt, Array.getElem?_modify]
  split
  · rfl
  · simp

lemma labels_addAt (g : Grammar α) (i : Nat) (rule : Tree α) (n : Nat) :
    (g.addAt i rule n).labels = g.labels := by
  apply List.ext_getElem?
  intro j
  rw [labels, labels, toList, toList, List.getElem?_map, List.getElem?_map,
    Array.getElem?_toList, Array.getElem?_toList, getElem?_entries_addAt, Option.map_map]
  congr 1
  funext e
  by_cases hij : i = j
  · simp [hij]
  · simp [hij]

/-- An addition to an entry leaves the labels in place. -/
lemma find?_addAt (g : Grammar α) (i : Nat) (rule : Tree α) (n : Nat) (eq : α → α → Bool)
    (label : α) : (g.addAt i rule n).find? eq label = g.find? eq label := by
  have hfind : ∀ g : Grammar α, (g.entries.findIdx? fun e => eq e.1 label) =
      g.labels.findIdx? (eq · label) := fun g => by
    rw [labels, List.findIdx?_map, toList, ← List.findIdx?_toArray]
    rfl
  rw [find?, find?, hfind, hfind, labels_addAt]
  rfl

/-- A look-up finds the entry that it found before, with the addition if it was made there. -/
theorem productionsFor_addAt (g : Grammar α) (i : Nat) (rule : Tree α) (n : Nat)
    (eq : α → α → Bool) (label : α) :
    (g.addAt i rule n).productionsFor eq label =
      (g.productionsFor eq label).map fun rules =>
        if g.find? eq label = some i then rules.addCount rule n else rules := by
  rw [productionsFor, productionsFor, find?_addAt]
  cases hfind : g.find? eq label with
  | none => rfl
  | some j =>
    simp only [Option.bind_some, getElem?_entries_addAt, Option.map_map, Option.some.injEq]
    congr 1
    funext e
    by_cases hij : i = j
    · simp [hij]
    · simp [hij, Ne.symm hij]

/-! ### Look-up by equality -/

/-- The index has the place of the one entry whose label is equal to the one looked up. -/
structure WellIndexed (g : Grammar α) : Prop where
  index_iff : ∀ (a : α) (i : Nat),
    g.index[a]? = some i ↔ ∃ e, g.entries[i]? = some e ∧ (e.1 == a) = true

section

variable {N : Type} [OfNat N 0] [Add N] [DecidableEq N]

/-- Makes some additions one after the other, each of a rule and a count. -/
def addAll (g : Grammar α N) (calls : List (Tree α × N)) : Grammar α N :=
  calls.foldl (fun g c => g.addCount c.1 c.2) g

lemma addAll_append_singleton (g : Grammar α N) (calls : List (Tree α × N)) (c : Tree α × N) :
    g.addAll (calls ++ [c]) = (g.addAll calls).addCount c.1 c.2 := by
  rw [addAll, List.foldl_append]
  rfl

end

variable {g : Grammar α}

lemma WellIndexed.lt_size (hg : g.WellIndexed) {a : α} {i : Nat} (h : g.index[a]? = some i) :
    i < g.entries.size := by
  obtain ⟨e, he, -⟩ := (hg.index_iff a i).1 h
  exact (Array.getElem?_eq_some_iff.1 he).1

/-- A look-up by equality need not go through the entries. -/
lemma WellIndexed.productionsFor_beq (hg : g.WellIndexed) (a : α) :
    g.productionsFor (· == ·) a = g.productions a := by
  have hfind : g.find? (· == ·) a = g.index[a]? := by
    rw [find?]
    cases hindex : g.index[a]? with
    | some i => rfl
    | none =>
      rw [Array.findIdx?_eq_none_iff]
      intro e he
      obtain ⟨i, hi⟩ := Array.mem_iff_getElem?.1 he
      by_contra hne
      rw [(hg.index_iff a i).2 ⟨e, hi, by simpa using hne⟩] at hindex
      cases hindex
  rw [productionsFor, hfind, productions]

lemma productions_addAt (g : Grammar α) (i : Nat) (rule : Tree α) (n : Nat) (a : α) :
    (g.addAt i rule n).productions a = (g.productions a).map fun rules =>
      if g.index[a]? = some i then rules.addCount rule n else rules := by
  show (g.index[a]?.bind fun j => (g.addAt i rule n).entries[j]?.map (·.2)) = _
  rw [productions]
  cases g.index[a]? with
  | none => rfl
  | some j =>
    simp only [Option.bind_some, getElem?_entries_addAt, Option.map_map, Option.some.injEq]
    congr 1
    funext e
    by_cases hij : i = j
    · simp [hij]
    · simp [hij, Ne.symm hij]

lemma WellIndexed.addAt (hg : g.WellIndexed) (i : Nat) (rule : Tree α) (n : Nat) :
    (g.addAt i rule n).WellIndexed := by
  refine ⟨fun a j => (hg.index_iff a j).trans ?_⟩
  rw [getElem?_entries_addAt]
  cases g.entries[j]? with
  | none => simp
  | some e =>
    by_cases hij : i = j
    · simp [hij]
    · simp [hij]

/-- An addition goes to the place that the index has for the label. -/
lemma addUnder_eq_addAt {label : α} {i : Nat} (h : (g.openEntry label).index[label]? = some i)
    (rule : Tree α) (n : Nat) :
    g.addUnder label rule n = (g.openEntry label).addAt i rule n := by
  simp only [addUnder, h]

section

variable [EquivBEq α] [LawfulHashable α]

/-- Equal labels have one place if the comparison does not tell them apart. -/
lemma find?_congr (g : Grammar α) {eq : α → α → Bool} {b c : α} (heq : ∀ a, eq a b = eq a c)
    (h : (b == c) = true) : g.find? eq b = g.find? eq c := by
  rw [find?, find?, Std.HashMap.getElem?_congr h]
  simp only [heq]

/-- Equal labels have one entry if the comparison does not tell them apart. -/
lemma productionsFor_congr (g : Grammar α) {eq : α → α → Bool} {b c : α}
    (heq : ∀ a, eq a b = eq a c) (h : (b == c) = true) :
    g.productionsFor eq b = g.productionsFor eq c := by
  rw [productionsFor, productionsFor, g.find?_congr heq h]

lemma wellIndexed_empty : (empty : Grammar α).WellIndexed := ⟨fun a i => by simp [empty]⟩

/-- If the label is new its entry is the last one. -/
lemma WellIndexed.push (hg : g.WellIndexed) {label : α} (hnew : g.index[label]? = none) :
    WellIndexed ⟨g.entries.push (label, .empty), g.index.insert label g.entries.size⟩ := by
  refine ⟨fun a i => ?_⟩
  show (g.index.insert label g.entries.size)[a]? = some i ↔
    ∃ e, (g.entries.push (label, RuleSet.empty))[i]? = some e ∧ (e.1 == a) = true
  rw [Std.HashMap.getElem?_insert, Array.getElem?_push]
  by_cases hla : (label == a) = true
  · have hnone : g.index[a]? = none := by rw [← Std.HashMap.getElem?_congr hla, hnew]
    rw [if_pos hla]
    split
    case isTrue hi => simp [hi, hla]
    case isFalse hi =>
      rw [← hg.index_iff, hnone]
      simp [Ne.symm hi]
  · rw [if_neg hla]
    split
    case isTrue hi =>
      refine iff_of_false (fun h => absurd (hg.lt_size h) (by omega)) ?_
      rintro ⟨e, he, hea⟩
      cases he
      exact hla hea
    case isFalse hi => exact hg.index_iff a i

lemma openEntry_of_index_eq_some {label : α} {i : Nat} (h : g.index[label]? = some i) :
    g.openEntry label = g := by
  rw [openEntry, if_pos]
  rw [← Std.HashMap.isSome_getElem?_eq_contains, h]
  rfl

lemma openEntry_of_index_eq_none {label : α} (h : g.index[label]? = none) :
    g.openEntry label =
      ⟨g.entries.push (label, .empty), g.index.insert label g.entries.size⟩ := by
  rw [openEntry, if_neg]
  rw [← Std.HashMap.isSome_getElem?_eq_contains, h]
  exact Bool.false_ne_true

/-- An entry is opened for the label, unless it has one. -/
lemma WellIndexed.openEntry_spec (hg : g.WellIndexed) (label : α) :
    (g.openEntry label).WellIndexed ∧ ((g.openEntry label).index[label]?).isSome = true ∧
      ∀ a, (g.openEntry label).productions a =
        if label == a then some ((g.productions a).getD .empty) else g.productions a := by
  cases hlabel : g.index[label]? with
  | some i =>
    rw [openEntry_of_index_eq_some hlabel]
    refine ⟨hg, by rw [hlabel]; rfl, fun a => ?_⟩
    split
    case isTrue hla =>
      rw [Std.HashMap.getElem?_congr hla] at hlabel
      obtain ⟨e, he, -⟩ := (hg.index_iff a i).1 hlabel
      simp [productions, hlabel, he]
    case isFalse => rfl
  | none =>
    rw [openEntry_of_index_eq_none hlabel]
    refine ⟨hg.push hlabel, by simp, fun a => ?_⟩
    show ((g.index.insert label g.entries.size)[a]?.bind fun i =>
      (g.entries.push (label, RuleSet.empty))[i]?.map (·.2)) = _
    rw [Std.HashMap.getElem?_insert]
    split
    case isTrue hla =>
      have hnone : g.index[a]? = none := by rw [← Std.HashMap.getElem?_congr hla, hlabel]
      simp [productions, hnone]
    case isFalse =>
      rw [productions]
      cases hindex : g.index[a]? with
      | none => rfl
      | some i =>
        rw [Option.bind_some, Option.bind_some, Array.getElem?_push,
          if_neg (Nat.ne_of_lt (hg.lt_size hindex))]

/-- An addition goes to the entry of the label. -/
lemma WellIndexed.addUnder_spec (hg : g.WellIndexed) (label : α) (rule : Tree α) (n : Nat) :
    (g.addUnder label rule n).WellIndexed ∧
      ∀ a, (g.addUnder label rule n).productions a =
        if label == a then some (((g.productions a).getD .empty).addCount rule n)
        else g.productions a := by
  obtain ⟨hopen, hsome, hproductions⟩ := hg.openEntry_spec label
  obtain ⟨i, hi⟩ := Option.isSome_iff_exists.1 hsome
  rw [addUnder_eq_addAt hi]
  refine ⟨hopen.addAt i rule n, fun a => ?_⟩
  rw [productions_addAt, hproductions]
  by_cases hla : (label == a) = true
  · rw [Std.HashMap.getElem?_congr hla] at hi
    simp [hla, hi]
  · -- the entry in this place has another label
    have hne : (g.openEntry label).index[a]? ≠ some i := by
      intro hai
      obtain ⟨e, he, hea⟩ := (hopen.index_iff a i).1 hai
      obtain ⟨e', he', hel⟩ := (hopen.index_iff label i).1 hi
      obtain rfl : e = e' := Option.some.inj (he.symm.trans he')
      exact hla (BEq.trans (BEq.symm hel) hea)
    simp [hla, hne]

/-- The entry of a label has the additions of rules with this label at the root. -/
theorem productions_addAll (calls : List (Tree α × Nat)) :
    ((empty : Grammar α).addAll calls).WellIndexed ∧
      ∀ a, ((empty : Grammar α).addAll calls).productions a =
        if calls.any (fun c => c.1.rootLabel == a) then
          some (RuleSet.empty.addAll (calls.filter fun c => c.1.rootLabel == a))
        else none := by
  induction calls using List.reverseRecOn with
  | nil => exact ⟨wellIndexed_empty, fun a => by simp [addAll, productions, empty]⟩
  | append_singleton calls c ih =>
    obtain ⟨hg, hproductions⟩ := ih
    obtain ⟨hadd, hadded⟩ := hg.addUnder_spec c.1.rootLabel c.1 c.2
    rw [addAll_append_singleton]
    refine ⟨hadd, fun a => ?_⟩
    rw [addCount, hadded, hproductions, RuleSet.addAll_filter_append_singleton]

end

end Grammar

end TreeGrammar
