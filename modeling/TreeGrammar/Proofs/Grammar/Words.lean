/-
# Counts in words

A program keeps counts in words of 64 bits, and a sum that runs over starts again at 0.  What an
addition does to a rule set depends on its count in one respect only, which is that a count of 0 is
ignored, and a word is 0 exactly if the number is that it stands for.  So the same additions make
the same rule sets and grammars in words as they do in numbers, with every count taken modulo 2^64
(`RuleSet.addAll_eq_wrap`, `Grammar.addAll_eq_wrap`).

A rule set to which less than 2^64 was added in all (`RuleSet.GrownBy`) has not lost anything: no
count is greater than the total, so its words are the very numbers (`RuleSet.GrownBy.grown_read`).
The same holds of a grammar, entry by entry (`Grammar.read_addAll`).
-/
import Mathlib
import TreeGrammar.Proofs.Grammar.Contents

namespace TreeGrammar

/-- A change of one member may be made before or after all of them are mapped. -/
lemma map_modify {β γ : Type} {g : β → γ} {f : β → β} {k : γ → γ}
    (h : ∀ b, g (f b) = k (g b)) (xs : Array β) (i : Nat) :
    (xs.modify i f).map g = (xs.map g).modify i k := by
  apply Array.ext_getElem?
  intro j
  rw [Array.getElem?_map, Array.getElem?_modify, Array.getElem?_modify, Array.getElem?_map]
  split_ifs
  · rw [Option.map_map, Option.map_map]
    congr 1
    funext b
    exact h b
  · rfl

namespace RuleSet

variable {α N M : Type} {f : N → M}

/-! ### Other counts for the same rules -/

lemma toList_mapCounts (s : RuleSet α N) :
    (s.mapCounts f).toList = s.toList.map fun e => (e.1, f e.2) := by
  rw [toList, mapCounts, Array.toList_map, toList]

lemma rules_mapCounts (s : RuleSet α N) : (s.mapCounts f).rules = s.rules := by
  rw [rules, toList_mapCounts, List.map_map, rules]
  rfl

variable [BEq α]

/-- Where a rule stands is no matter of the counts. -/
lemma find?_mapCounts (s : RuleSet α N) (rule : Tree α) :
    (s.mapCounts f).find? rule = s.find? rule := by
  rw [find?_eq, find?_eq, rules_mapCounts]
  rfl

lemma count_mapCounts [OfNat N 0] [OfNat M 0] (hf : f 0 = 0) (s : RuleSet α N) (rule : Tree α) :
    (s.mapCounts f).count rule = f (s.count rule) := by
  rw [count, count, find?_mapCounts]
  cases s.find? rule with
  | none => exact hf.symm
  | some i =>
    simp only [mapCounts, Array.getElem?_map, Option.map_map]
    cases s.entries[i]? with
    | none => exact hf.symm
    | some e => rfl

/-! ### Additions in words -/

omit [BEq α] in
/-- The rule set with its counts taken modulo 2^64. -/
def wrap (s : RuleSet α) : RuleSet α UInt64 := s.mapCounts UInt64.ofNat

omit [BEq α] in
/-- Additions with their counts as numbers. -/
def inNumbers (calls : List (Tree α × UInt64)) : List (Tree α × Nat) :=
  calls.map fun c => (c.1, c.2.toNat)

omit [BEq α] in
lemma wrap_emptyWith (digest : List (Token α) → UInt64) :
    (emptyWith digest : RuleSet α).wrap = emptyWith digest := by
  simp [wrap, mapCounts, emptyWith]

lemma toNat_eq_zero_iff {n : UInt64} : n.toNat = 0 ↔ n = 0 := by
  rw [← UInt64.toNat_inj, UInt64.toNat_zero]

lemma ofNat_add_toNat (k : Nat) (n : UInt64) :
    UInt64.ofNat (k + n.toNat) = UInt64.ofNat k + n := by
  rw [UInt64.ofNat_add, UInt64.ofNat_toNat]

/-- It makes no difference whether a count is added before or after wrapping. -/
theorem addCount_wrap (s : RuleSet α) (rule : Tree α) (n : UInt64) :
    s.wrap.addCount rule n = (s.addCount rule n.toNat).wrap := by
  by_cases hn : n = 0
  · rw [addCount, addCount, if_pos hn, if_pos (toNat_eq_zero_iff.2 hn)]
  · rw [addCount, addCount, if_neg hn, if_neg (mt toNat_eq_zero_iff.1 hn), wrap, find?_mapCounts]
    cases s.find? rule with
    | some i =>
      have hentries := map_modify (g := fun e : Tree α × Nat => (e.1, UInt64.ofNat e.2))
        (f := fun e => (e.1, e.2 + n.toNat)) (k := fun e => (e.1, e.2 + n))
        (fun e => congrArg (e.1, ·) (ofNat_add_toNat e.2 n)) s.entries i
      simp only [wrap, mapCounts, ofNat_add_toNat, hentries]
    | none =>
      simp only [wrap, mapCounts, ofNat_add_toNat, Array.map_push, UInt64.ofNat_toNat,
        Array.size_map]

/-- Additions in words are those in numbers, taken modulo 2^64. -/
theorem addAll_eq_wrap (digest : List (Token α) → UInt64) (calls : List (Tree α × UInt64)) :
    (emptyWith digest).addAll calls = ((emptyWith digest).addAll (inNumbers calls)).wrap := by
  induction calls using List.reverseRecOn with
  | nil => exact (wrap_emptyWith digest).symm
  | append_singleton calls c ih =>
    rw [inNumbers, List.map_append, List.map_singleton, ← inNumbers, addAll_append_singleton,
      addAll_append_singleton, ih, addCount_wrap]

omit [BEq α] in
/-- How much is added in all. -/
def amount (calls : List (Tree α × UInt64)) : Nat := ((inNumbers calls).map (·.2)).sum

omit [BEq α] in
lemma amount_filter_le (p : Tree α × UInt64 → Bool) (calls : List (Tree α × UInt64)) :
    amount (calls.filter p) ≤ amount calls :=
  (((List.filter_sublist.map _).map _).sum_le_sum fun _ _ => Nat.zero_le _)

/-- What is read of the total is the amount modulo 2^64. -/
lemma toNat_total_addAll (digest : List (Token α) → UInt64) (calls : List (Tree α × UInt64)) :
    ((emptyWith digest).addAll calls).total.toNat = amount calls % UInt64.size := by
  rw [addAll_eq_wrap, wrap, mapCounts, total_addAll_eq_add, emptyWith, Nat.zero_add,
    UInt64.toNat_ofNat']
  rfl

section

variable [EquivBEq α] {digest : List (Token α) → UInt64}

/-- What is read of the counts are the sums modulo 2^64. -/
lemma toList_read_addAll (hdigest : Token.Respects digest) (calls : List (Tree α × UInt64)) :
    ((emptyWith digest).addAll calls).read.toList = (firsts (inNumbers calls)).map fun r =>
      (r, added (inNumbers calls) r % UInt64.size) := by
  rw [addAll_eq_wrap, read, wrap, toList_mapCounts, toList_mapCounts, toList_addAll hdigest,
    List.map_map, List.map_map]
  refine List.map_congr_left fun r _ => ?_
  exact congrArg (r, ·) UInt64.toNat_ofNat'

lemma toNat_count_addAll (hdigest : Token.Respects digest) (calls : List (Tree α × UInt64))
    (rule : Tree α) :
    (((emptyWith digest).addAll calls).count rule).toNat =
      added (inNumbers calls) rule % UInt64.size := by
  have hzero : UInt64.ofNat 0 = 0 := rfl
  rw [addAll_eq_wrap, wrap, count_mapCounts hzero, count_addAll hdigest, UInt64.toNat_ofNat']

/-- What is alike in numbers is alike in words. -/
lemma SameContents.wrap {s s' : RuleSet α} (h : s.SameContents s') :
    s.wrap.SameContents s'.wrap where
  count_eq rule := by
    have hzero : UInt64.ofNat 0 = 0 := rfl
    rw [RuleSet.wrap, RuleSet.wrap, count_mapCounts hzero, count_mapCounts hzero, h.count_eq]
  size_eq := by simpa [RuleSet.wrap, mapCounts, size] using h.size_eq
  total_eq := congrArg UInt64.ofNat h.total_eq
  kindCounts_perm := by
    have hkinds : ∀ s : RuleSet α, s.wrap.kindCounts =
        s.kindCounts.map fun e => (e.1, UInt64.ofNat e.2) := by
      intro s
      rw [kindCounts, RuleSet.wrap, toList_mapCounts, kindCounts, List.map_map, List.map_map]
      rfl
    rw [hkinds, hkinds]
    exact h.kindCounts_perm.map _

end

/-! ### Rule sets that did not run over -/

/-- The rule set came about by additions of `n` occurrences in all, beginning with none. -/
def GrownBy (s : RuleSet α UInt64) (n : Nat) : Prop :=
  ∃ (digest : List (Token α) → UInt64) (calls : List (Tree α × UInt64)),
    amount calls = n ∧ s = (emptyWith digest).addAll calls

lemma grownBy_empty [Hashable α] : (empty : RuleSet α UInt64).GrownBy 0 :=
  ⟨Token.digest, [], rfl, rfl⟩

lemma GrownBy.addCount {s : RuleSet α UInt64} {k : Nat} (h : s.GrownBy k) (rule : Tree α)
    (n : UInt64) : (s.addCount rule n).GrownBy (k + n.toNat) := by
  obtain ⟨digest, calls, rfl, rfl⟩ := h
  refine ⟨digest, calls ++ [(rule, n)], ?_, (addAll_append_singleton _ calls (rule, n)).symm⟩
  simp [amount, inNumbers]

omit [BEq α] in
/-- Counts that fit into words are read as they were. -/
lemma read_wrap {s : RuleSet α} (hcounts : ∀ e ∈ s.toList, e.2 < UInt64.size)
    (htotal : s.total < UInt64.size) : s.wrap.read = s := by
  obtain ⟨digest, entries, buckets, total⟩ := s
  have hentries : (entries.map fun e => (e.1, UInt64.ofNat e.2)).map
      (fun e => (e.1, e.2.toNat)) = entries := by
    rw [Array.map_map]
    refine (Array.map_congr_left fun e he => ?_).trans (Array.map_id' entries)
    have hword := hcounts e (Array.mem_toList_iff.2 he)
    exact congrArg (e.1, ·) (UInt64.toNat_ofNat_of_lt' hword)
  rw [wrap, read, mapCounts, mapCounts, mk.injEq]
  exact ⟨rfl, hentries, rfl, UInt64.toNat_ofNat_of_lt' htotal⟩

/-- If less than 2^64 was added in all, the words are the numbers. -/
theorem read_addAll (digest : List (Token α) → UInt64) {calls : List (Tree α × UInt64)}
    (h : amount calls < UInt64.size) :
    ((emptyWith digest).addAll calls).read = (emptyWith digest).addAll (inNumbers calls) := by
  have hgrown : ((emptyWith digest).addAll (inNumbers calls)).Grown := ⟨digest, _, rfl⟩
  have htotal : ((emptyWith digest).addAll (inNumbers calls)).total < UInt64.size := by
    rwa [total_addAll_eq_add, emptyWith, Nat.zero_add]
  rw [addAll_eq_wrap]
  exact read_wrap (fun e he => (hgrown.count_bounds e he).2.trans_lt htotal) htotal

theorem GrownBy.grown_read {s : RuleSet α UInt64} {n : Nat} (h : s.GrownBy n)
    (hn : n < UInt64.size) : s.read.Grown := by
  obtain ⟨digest, calls, rfl, rfl⟩ := h
  exact ⟨digest, inNumbers calls, read_addAll digest hn⟩

end RuleSet

/-- Where nothing ran over, the rule sets of a source are read as what was added. -/
lemma RuleSource.grown_read {α : Type} [BEq α] {source : RuleSource α UInt64} {eq : α → α → Bool}
    (h : ∀ a rules, source eq a = some rules → ∃ n < UInt64.size, rules.GrownBy n) :
    ∀ a rules, source.read eq a = some rules → rules.Grown := by
  intro a rules hrules
  obtain ⟨words, hwords, rfl⟩ := Option.map_eq_some_iff.1 hrules
  obtain ⟨n, hn, hgrown⟩ := h a words hwords
  exact hgrown.grown_read hn

namespace Grammar

variable {α N M : Type} [BEq α] [Hashable α] {f : N → M}

/-! ### Grammars with other counts -/

lemma find?_mapCounts (g : Grammar α N) (eq : α → α → Bool) (label : α) :
    (g.mapCounts f).find? eq label = g.find? eq label := by
  have hplace : ((g.mapCounts f).entries.findIdx? fun e => eq e.1 label) =
      g.entries.findIdx? fun e => eq e.1 label := by
    rw [mapCounts, Array.findIdx?_map]
    rfl
  rw [find?, find?, hplace]
  rfl

lemma labels_mapCounts (g : Grammar α N) : (g.mapCounts f).labels = g.labels := by
  rw [labels, toList, mapCounts, Array.toList_map, List.map_map, labels, toList]
  rfl

lemma productions_mapCounts (g : Grammar α N) (label : α) :
    (g.mapCounts f).productions label = (g.productions label).map (·.mapCounts f) := by
  simp only [productions, mapCounts, Array.getElem?_map, Option.map_bind, Option.map_map,
    Function.comp_def]

lemma productionsFor_mapCounts (g : Grammar α N) (eq : α → α → Bool) (label : α) :
    (g.mapCounts f).productionsFor eq label =
      (g.productionsFor eq label).map (·.mapCounts f) := by
  rw [productionsFor, productionsFor, find?_mapCounts]
  simp only [mapCounts, Array.getElem?_map, Option.map_bind, Option.map_map, Function.comp_def]

/-! ### Additions in words -/

/-- The grammar with its counts taken modulo 2^64. -/
def wrap (g : Grammar α) : Grammar α UInt64 := g.mapCounts UInt64.ofNat

lemma openEntry_wrap (g : Grammar α) (label : α) :
    g.wrap.openEntry label = (g.openEntry label).wrap := by
  have hempty : (RuleSet.empty : RuleSet α).mapCounts UInt64.ofNat = .empty :=
    RuleSet.wrap_emptyWith Token.digest
  rw [openEntry, openEntry]
  split
  case isTrue hlabel =>
    have hlabel' : g.index.contains label = true := hlabel
    rw [if_pos hlabel']
  case isFalse hlabel =>
    have hlabel' : ¬ g.index.contains label = true := hlabel
    rw [if_neg hlabel']
    simp [wrap, mapCounts, hempty]

lemma addAt_wrap (g : Grammar α) (i : Nat) (rule : Tree α) (n : UInt64) :
    g.wrap.addAt i rule n = (g.addAt i rule n.toNat).wrap := by
  have hentries := map_modify (g := fun e : α × RuleSet α => (e.1, e.2.wrap))
    (f := fun e => (e.1, e.2.addCount rule n.toNat)) (k := fun e => (e.1, e.2.addCount rule n))
    (fun e => congrArg (e.1, ·) (e.2.addCount_wrap rule n).symm) g.entries i
  rw [addAt, addAt, wrap, wrap, mapCounts, mapCounts, mk.injEq]
  exact ⟨hentries.symm, rfl⟩

lemma addUnder_wrap (g : Grammar α) (label : α) (rule : Tree α) (n : UInt64) :
    g.wrap.addUnder label rule n = (g.addUnder label rule n.toNat).wrap := by
  rw [addUnder, addUnder, openEntry_wrap]
  have hindex : (g.openEntry label).wrap.index[label]? = (g.openEntry label).index[label]? := rfl
  cases hlabel : (g.openEntry label).index[label]? with
  | some i => simp only [hindex, hlabel, addAt_wrap]
  | none => simp only [hindex, hlabel]

lemma addCount_wrap (g : Grammar α) (rule : Tree α) (n : UInt64) :
    g.wrap.addCount rule n = (g.addCount rule n.toNat).wrap :=
  g.addUnder_wrap rule.rootLabel rule n

lemma addCountBy_wrap (g : Grammar α) (eq : α → α → Bool) (rule : Tree α) (n : UInt64) :
    g.wrap.addCountBy eq rule n = (g.addCountBy eq rule n.toNat).wrap := by
  rw [addCountBy, addCountBy, wrap, find?_mapCounts]
  cases g.find? eq rule.rootLabel with
  | some i => exact g.addAt_wrap i rule n
  | none => exact g.addCount_wrap rule n

/-- Additions in words are those in numbers, taken modulo 2^64. -/
theorem addAll_eq_wrap (calls : List (Tree α × UInt64)) :
    (empty : Grammar α UInt64).addAll calls =
      ((empty : Grammar α).addAll (RuleSet.inNumbers calls)).wrap := by
  induction calls using List.reverseRecOn with
  | nil => exact (congrArg (Grammar.mk · ∅) Array.map_empty).symm
  | append_singleton calls c ih =>
    rw [RuleSet.inNumbers, List.map_append, List.map_singleton, ← RuleSet.inNumbers,
      addAll_append_singleton, addAll_append_singleton, ih, addCount_wrap]

omit [BEq α] [Hashable α] in
lemma filter_inNumbers (p : Tree α → Bool) (calls : List (Tree α × UInt64)) :
    (RuleSet.inNumbers calls).filter (fun c => p c.1) =
      RuleSet.inNumbers (calls.filter fun c => p c.1) := by
  rw [RuleSet.inNumbers, List.filter_map, RuleSet.inNumbers]
  rfl

omit [BEq α] [Hashable α] in
lemma any_inNumbers (p : Tree α → Bool) (calls : List (Tree α × UInt64)) :
    ((RuleSet.inNumbers calls).any fun c => p c.1) = calls.any fun c => p c.1 :=
  List.any_map

/-- An entry with some of the additions has them in words as it has them in numbers. -/
lemma map_wrap_addAll_filter (p : Tree α → Bool) (calls : List (Tree α × UInt64)) :
    (if (RuleSet.inNumbers calls).any (fun c => p c.1) then
        some (RuleSet.empty.addAll ((RuleSet.inNumbers calls).filter fun c => p c.1))
      else none).map RuleSet.wrap =
      if calls.any (fun c => p c.1) then some (RuleSet.empty.addAll (calls.filter fun c => p c.1))
      else none := by
  rw [any_inNumbers, filter_inNumbers]
  split
  · exact congrArg some (RuleSet.addAll_eq_wrap Token.digest _).symm
  · rfl

/-- The entry of a label has the additions of rules with this label at the root. -/
theorem productions_addAll_words [EquivBEq α] [LawfulHashable α] (calls : List (Tree α × UInt64))
    (a : α) :
    ((empty : Grammar α UInt64).addAll calls).productions a =
      if calls.any (fun c => c.1.rootLabel == a) then
        some (RuleSet.empty.addAll (calls.filter fun c => c.1.rootLabel == a))
      else none := by
  rw [addAll_eq_wrap, wrap, productions_mapCounts, (productions_addAll _).2]
  exact map_wrap_addAll_filter (fun r => r.rootLabel == a) calls

/-- Where all rules have one root label, its entry has all additions. -/
lemma productions_addAll_of_label [EquivBEq α] [LawfulHashable α]
    {calls : List (Tree α × UInt64)} {a : α} (hcalls : calls ≠ [])
    (hlabels : ∀ c ∈ calls, (c.1.rootLabel == a) = true) :
    ((empty : Grammar α UInt64).addAll calls).productions a =
      some (RuleSet.empty.addAll calls) := by
  obtain ⟨c, hc⟩ := List.exists_mem_of_ne_nil calls hcalls
  have hany : calls.any (fun c => c.1.rootLabel == a) = true :=
    List.any_eq_true.2 ⟨c, hc, hlabels c hc⟩
  rw [productions_addAll_words, if_pos hany, List.filter_eq_self.2 hlabels]

/-- Where labels are compared for equality, a look-up finds the entry of the label itself. -/
lemma productionsFor_beq_addAll_words [EquivBEq α] [LawfulHashable α]
    (calls : List (Tree α × UInt64)) (a : α) :
    ((empty : Grammar α UInt64).addAll calls).productionsFor (· == ·) a =
      ((empty : Grammar α UInt64).addAll calls).productions a := by
  rw [addAll_eq_wrap, wrap, productionsFor_mapCounts, productions_mapCounts,
    (productions_addAll (RuleSet.inNumbers calls)).1.productionsFor_beq]

/-- Words may be read before or after a look-up. -/
lemma read_productionsFor (g : Grammar α UInt64) :
    RuleSource.read g.productionsFor = g.read.productionsFor :=
  funext fun eq => funext fun label => (g.productionsFor_mapCounts eq label).symm

/-! ### Grammars that did not run over -/

/-- To no entry more than `n` occurrences were added. -/
def GrownWithin (g : Grammar α UInt64) (n : Nat) : Prop :=
  ∀ e ∈ g.toList, ∃ k ≤ n, e.2.GrownBy k

lemma grownWithin_empty : (empty : Grammar α UInt64).GrownWithin 0 := by
  simp [GrownWithin, toList, empty]

lemma GrownWithin.openEntry {g : Grammar α UInt64} {n : Nat} (h : g.GrownWithin n) (label : α) :
    (g.openEntry label).GrownWithin n :=
  forall_mem_openEntry (P := fun s => ∃ k ≤ n, s.GrownBy k)
    ⟨0, n.zero_le, RuleSet.grownBy_empty⟩ h label

lemma GrownWithin.addCount {g : Grammar α UInt64} {n : Nat} (h : g.GrownWithin n)
    (rule : Tree α) (m : UInt64) : (g.addCount rule m).GrownWithin (n + m.toNat) := by
  refine forall_mem_addUnder (P := fun s => ∃ k ≤ n, s.GrownBy k)
    (Q := fun s => ∃ k ≤ n + m.toNat, s.GrownBy k) ⟨0, n.zero_le, RuleSet.grownBy_empty⟩ ?_ ?_ h
    rule.rootLabel
  · rintro s ⟨k, hk, hs⟩
    exact ⟨k, hk.trans (Nat.le_add_right n _), hs⟩
  · rintro s ⟨k, hk, hs⟩
    exact ⟨k + m.toNat, Nat.add_le_add_right hk _, hs.addCount rule m⟩

lemma GrownWithin.productionsFor {g : Grammar α UInt64} {n : Nat} (h : g.GrownWithin n)
    (hn : n < UInt64.size) {eq : α → α → Bool} {label : α} {rules : RuleSet α UInt64}
    (hrules : g.productionsFor eq label = some rules) : ∃ k < UInt64.size, rules.GrownBy k := by
  obtain ⟨e, he, rfl⟩ := exists_mem_of_productionsFor hrules
  obtain ⟨k, hk, hgrown⟩ := h e he
  exact ⟨k, hk.trans_lt hn, hgrown⟩

/-- Counts that fit into words are read as they were. -/
lemma read_wrap {g : Grammar α} (h : ∀ e ∈ g.toList, e.2.wrap.read = e.2) : g.wrap.read = g := by
  obtain ⟨entries, index⟩ := g
  have hentries : (entries.map fun e => (e.1, e.2.wrap)).map (fun e => (e.1, e.2.read)) =
      entries := by
    rw [Array.map_map]
    refine (Array.map_congr_left fun e he => ?_).trans (Array.map_id' entries)
    exact congrArg (e.1, ·) (h e (Array.mem_toList_iff.2 he))
  rw [wrap, read, mapCounts, mapCounts, mk.injEq]
  exact ⟨hentries, rfl⟩

/-- If less than 2^64 was added for each root label, the words of a grammar are the numbers. -/
theorem read_addAll [EquivBEq α] [LawfulHashable α] {calls : List (Tree α × UInt64)}
    (h : ∀ a, RuleSet.amount (calls.filter fun c => c.1.rootLabel == a) < UInt64.size) :
    ((empty : Grammar α UInt64).addAll calls).read =
      (empty : Grammar α).addAll (RuleSet.inNumbers calls) := by
  rw [addAll_eq_wrap]
  refine read_wrap fun e he => ?_
  obtain ⟨hg, hproductions⟩ := productions_addAll (RuleSet.inNumbers calls)
  have hentry := (hg.productions_of_mem he).symm.trans (hproductions e.1)
  split at hentry
  case isTrue =>
    rw [Option.some.inj hentry, filter_inNumbers fun r => r.rootLabel == e.1, RuleSet.empty,
      ← RuleSet.addAll_eq_wrap]
    exact RuleSet.read_addAll Token.digest (h e.1)
  case isFalse => cases hentry

end Grammar

end TreeGrammar
