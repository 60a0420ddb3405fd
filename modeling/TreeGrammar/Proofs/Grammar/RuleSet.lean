/-
# Rule sets are multisets

Rules that are equal trees are one rule, with the sum of their counts.  A look-up compares a
rule with those of one bucket only.  That loses nothing as long as equal trees have one digest
and the buckets are kept in step with the list (`WellIndexed`), so that the answer does not
depend on the digest.  After any additions the list has the rules that were first of their
kind, in the order in which they came, each with the sum of what was added for it
(`toList_addAll`); all that can be asked of a rule set follows (`addAll_isTally`).
-/
import TreeGrammar.Grammar.RuleSet
import TreeGrammar.Proofs.Tree.Feed

namespace TreeGrammar

/-- Where no two members satisfy a predicate, a member that does is the only one. -/
lemma filter_eq_singleton {β : Type} {p : β → Bool} {l : List β} {a : β}
    (h : l.Pairwise fun a b => ¬ (p a = true ∧ p b = true)) (hmem : a ∈ l) (ha : p a = true) :
    l.filter p = [a] := by
  induction l with
  | nil => cases hmem
  | cons b l ih =>
    obtain ⟨hb, hl⟩ := List.pairwise_cons.1 h
    rcases List.mem_cons.1 hmem with rfl | hmem
    · rw [List.filter_cons_of_pos ha]
      exact congrArg _ (List.filter_eq_nil_iff.2 fun c hc hpc => hb c hc ⟨ha, hpc⟩)
    · rw [List.filter_cons_of_neg fun hpb => hb a hmem ⟨hpb, ha⟩]
      exact ih hl hmem

/-- A change that adds to one member adds as much to the sum. -/
lemma sum_map_modify {β : Type} {g : β → Nat} {f : β → β} {n : Nat}
    (hf : ∀ b, g (f b) = g b + n) {l : List β} {i : Nat} (hi : i < l.length) :
    ((l.modify i f).map g).sum = (l.map g).sum + n := by
  induction l generalizing i with
  | nil => simp at hi
  | cons b l ih =>
    cases i with
    | zero =>
      simp only [List.modify_zero_cons, List.map_cons, List.sum_cons, hf]
      omega
    | succ i =>
      have hrest := ih (by simpa using hi)
      simp only [List.modify_succ_cons, List.map_cons, List.sum_cons, hrest, Nat.add_assoc]

/-! ### The first members of their kind -/

section

variable {β : Type} [BEq β]

/-- Induction along `List.eraseDups`, which drops all that is equal to the first member. -/
@[elab_as_elim]
theorem induction_eraseDups {motive : List β → Prop} (nil : motive [])
    (cons : ∀ a l, motive (l.filter fun b => !b == a) → motive (a :: l)) (l : List β) :
    motive l := by
  induction hn : l.length using Nat.strong_induction_on generalizing l with
  | _ n ih =>
    cases l with
    | nil => exact nil
    | cons a l =>
      have hle : (l.filter fun b => !b == a).length ≤ l.length := List.length_filter_le _ _
      rw [List.length_cons] at hn
      exact cons a l (ih _ (by omega) _ rfl)

lemma eraseDups_sublist (l : List β) : l.eraseDups.Sublist l := by
  induction l using induction_eraseDups with
  | nil => simp
  | cons a l ih =>
    rw [List.eraseDups_cons]
    exact (ih.trans List.filter_sublist).cons_cons a

/-- Every member has one of its kind among the first ones. -/
lemma exists_mem_eraseDups [ReflBEq β] {l : List β} {a : β} (h : a ∈ l) :
    ∃ b ∈ l.eraseDups, (a == b) = true := by
  induction l using induction_eraseDups with
  | nil => simp at h
  | cons b l ih =>
    rw [List.eraseDups_cons]
    by_cases hab : (a == b) = true
    · exact ⟨b, List.mem_cons_self, hab⟩
    · have hl : a ∈ l := (List.mem_cons.1 h).resolve_left fun heq => hab (heq ▸ BEq.rfl)
      obtain ⟨c, hc, hac⟩ := ih (List.mem_filter.2 ⟨hl, by simpa using hab⟩)
      exact ⟨c, List.mem_cons_of_mem _ hc, hac⟩

/-- There is one of a kind among the first ones if there is one at all. -/
lemma any_eraseDups [EquivBEq β] (l : List β) (a : β) :
    l.eraseDups.any (· == a) = l.any (· == a) := by
  rw [Bool.eq_iff_iff, List.any_eq_true, List.any_eq_true]
  constructor
  · rintro ⟨b, hb, hba⟩
    exact ⟨b, (eraseDups_sublist l).mem hb, hba⟩
  · rintro ⟨b, hb, hba⟩
    obtain ⟨c, hc, hbc⟩ := exists_mem_eraseDups hb
    exact ⟨c, hc, BEq.trans (BEq.symm hbc) hba⟩

/-- A further member counts if none of its kind is there. -/
lemma eraseDups_append_singleton [EquivBEq β] (l : List β) (a : β) :
    (l ++ [a]).eraseDups =
      if l.any (· == a) then l.eraseDups else l.eraseDups ++ [a] := by
  induction l using induction_eraseDups with
  | nil => simp [List.eraseDups_cons]
  | cons b l ih =>
    rw [List.cons_append, List.eraseDups_cons, List.eraseDups_cons, List.filter_append,
      List.any_cons]
    by_cases hab : (a == b) = true
    · simp [hab, BEq.symm hab]
    · -- what is equal to `a` is not dropped with `b`
      have hany : (l.filter fun c => !c == b).any (· == a) = l.any (· == a) := by
        rw [List.any_filter]
        refine List.any_congr rfl fun c => ?_
        cases hca : c == a with
        | false => simp
        | true => simp [BEq.congr_left hca, hab]
      have hba : (b == a) = false := by simpa [BEq.comm] using hab
      simp only [hab, List.filter_cons, List.filter_nil, hba, Bool.false_or, ← hany]
      simp only [Bool.not_false, if_true, ih]
      split
      · rfl
      · rfl

end

/-- The digests are the same for sequences of tokens that are equal label by label. -/
def Token.Respects {α : Type} [BEq α] (digest : List (Token α) → UInt64) : Prop :=
  ∀ ts us, (ts == us) = true → digest ts = digest us

/-- Where equal labels are the same, any function is a digest. -/
lemma Token.respects_of_lawfulBEq {α : Type} [BEq α] [LawfulBEq α]
    (digest : List (Token α) → UInt64) : Token.Respects digest :=
  fun _ _ h => congrArg digest (eq_of_beq h)

lemma Token.respects_digest {α : Type} [BEq α] [Hashable α] [LawfulHashable α] :
    Token.Respects (Token.digest (α := α)) :=
  fun _ _ h => hash_eq h

namespace RuleSet

variable {α N : Type} [BEq α]

/-- Makes some additions one after the other, each of a rule and a count; to `add` is to add
once. -/
def addAll [OfNat N 0] [Add N] [DecidableEq N] (s : RuleSet α N) (calls : List (Tree α × N)) :
    RuleSet α N :=
  calls.foldl (fun s c => s.addCount c.1 c.2) s

omit [BEq α] in
/-- The rules without their counts. -/
def rules (s : RuleSet α N) : List (Tree α) := s.toList.map (·.1)

/-! ### What an addition can do

Here nothing is asked of the comparison of labels, nor of the digest. -/

/-- A look-up goes through the places in the bucket. -/
lemma find?_eq (s : RuleSet α N) (rule : Tree α) :
    s.find? rule = (s.buckets.getD (s.digest rule.feed) []).find? fun i =>
      s.rules[i]?.any (· == rule) := by
  rw [find?]
  congr 1
  funext i
  rw [rules, toList, List.getElem?_map, Array.getElem?_toList]
  cases s.entries[i]? with
  | none => rfl
  | some e => rfl

lemma lt_length_of_find?_eq_some {s : RuleSet α} {rule : Tree α} {i : Nat}
    (h : s.find? rule = some i) : i < s.toList.length := by
  rw [find?_eq] at h
  have hfound := List.find?_some h
  obtain ⟨r, hr, -⟩ := (Option.any_eq_true _ _).1 hfound
  simpa [rules] using (List.getElem?_eq_some_iff.1 hr).1

/-- An addition of nothing changes nothing; any other raises the count in one place, or puts the
rule at the end. -/
lemma addCount_cases (s : RuleSet α) (rule : Tree α) (n : Nat) :
    (n = 0 ∧ s.addCount rule n = s) ∨
    (n ≠ 0 ∧ (s.addCount rule n).total = s.total + n ∧
      ∃ i < s.toList.length,
        (s.addCount rule n).toList = s.toList.modify i fun e => (e.1, e.2 + n)) ∨
    (n ≠ 0 ∧ (s.addCount rule n).total = s.total + n ∧
      (s.addCount rule n).toList = s.toList ++ [(rule, n)]) := by
  by_cases hn : n = 0
  · exact .inl ⟨hn, if_pos hn⟩
  · rw [addCount, if_neg hn]
    cases hfind : s.find? rule with
    | some i =>
      exact .inr (.inl ⟨hn, rfl, i, lt_length_of_find?_eq_some hfind, Array.toList_modify⟩)
    | none => exact .inr (.inr ⟨hn, rfl, by simp [toList]⟩)

lemma total_addCount (s : RuleSet α) (rule : Tree α) (n : Nat) :
    (s.addCount rule n).total = s.total + n := by
  obtain ⟨rfl, h⟩ | ⟨-, htotal, -⟩ | ⟨-, htotal, -⟩ := s.addCount_cases rule n
  · rw [h, Nat.add_zero]
  · exact htotal
  · exact htotal

/-! ### Look-up -/

/-- The rules are of different kinds, and the buckets have the places of all of them. -/
structure WellIndexed (s : RuleSet α) : Prop where
  respects : Token.Respects s.digest
  mem_bucket_iff : ∀ (h : UInt64) (i : Nat),
    i ∈ s.buckets.getD h [] ↔ ∃ r, s.rules[i]? = some r ∧ s.digest r.feed = h
  distinct : s.rules.Pairwise fun r r' => (r == r') = false

lemma digest_eq_of_beq {digest : List (Token α) → UInt64} (hdigest : Token.Respects digest)
    {r r' : Tree α} (h : (r == r') = true) : digest r.feed = digest r'.feed :=
  hdigest _ _ ((Tree.feedFrom_beq_iff r r' Tree.root Tree.root).2 h)

lemma wellIndexed_emptyWith {digest : List (Token α) → UInt64}
    (hdigest : Token.Respects digest) : (emptyWith digest).WellIndexed where
  respects := hdigest
  mem_bucket_iff h i := by simp [emptyWith, rules, toList]
  distinct := by simp [emptyWith, rules, toList]

section

variable [EquivBEq α] {s : RuleSet α}

/-- Only one rule of the list is equal to a given one. -/
lemma WellIndexed.place_unique (hs : s.WellIndexed) {rule r r' : Tree α} {i j : Nat}
    (hi : s.rules[i]? = some r) (hr : (r == rule) = true) (hj : s.rules[j]? = some r')
    (hr' : (r' == rule) = true) : i = j := by
  have hlt : ∀ {i j : Nat} {r r' : Tree α}, s.rules[i]? = some r → (r == rule) = true →
      s.rules[j]? = some r' → (r' == rule) = true → ¬ i < j := by
    intro i j r r' hi hr hj hr' hij
    obtain ⟨hi', rfl⟩ := List.getElem?_eq_some_iff.1 hi
    obtain ⟨hj', rfl⟩ := List.getElem?_eq_some_iff.1 hj
    have hne := List.pairwise_iff_getElem.1 hs.distinct i j hi' hj' hij
    rw [BEq.trans hr (BEq.symm hr')] at hne
    cases hne
  exact Nat.le_antisymm (Nat.le_of_not_lt (hlt hj hr' hi hr)) (Nat.le_of_not_lt (hlt hi hr hj hr'))

/-- A look-up finds the place of the rule that is equal to the one looked up. -/
theorem WellIndexed.find?_eq_some_iff (hs : s.WellIndexed) {rule : Tree α} {i : Nat} :
    s.find? rule = some i ↔ ∃ r, s.rules[i]? = some r ∧ (r == rule) = true := by
  have hknown : ∀ j : Nat, s.rules[j]?.any (· == rule) = true ↔
      ∃ r, s.rules[j]? = some r ∧ (r == rule) = true := by
    intro j
    cases s.rules[j]? with
    | none => simp
    | some r => simp
  constructor
  · intro h
    rw [find?_eq] at h
    have hfound := List.find?_some h
    exact (hknown i).1 hfound
  · rintro ⟨r, hr, hrule⟩
    have hmem : i ∈ s.buckets.getD (s.digest rule.feed) [] :=
      (hs.mem_bucket_iff _ i).2 ⟨r, hr, digest_eq_of_beq hs.respects hrule⟩
    have hsome : (s.find? rule).isSome = true := by
      rw [find?_eq, List.find?_isSome]
      exact ⟨i, hmem, (hknown i).2 ⟨r, hr, hrule⟩⟩
    obtain ⟨j, hj⟩ := Option.isSome_iff_exists.1 hsome
    rw [find?_eq] at hj ⊢
    have hfound := List.find?_some hj
    obtain ⟨r', hr', hrule'⟩ := (hknown j).1 hfound
    rw [hj, hs.place_unique hr' hrule' hr hrule]

lemma WellIndexed.find?_eq_none_iff (hs : s.WellIndexed) {rule : Tree α} :
    s.find? rule = none ↔ ∀ r ∈ s.rules, (r == rule) = false := by
  constructor
  · intro h r hr
    by_contra hrule
    obtain ⟨i, hi⟩ := List.mem_iff_getElem?.1 hr
    rw [(hs.find?_eq_some_iff).2 ⟨r, hi, by simpa using hrule⟩] at h
    cases h
  · intro h
    by_contra hne
    obtain ⟨i, hi⟩ := Option.ne_none_iff_exists'.1 hne
    obtain ⟨r, hr, hrule⟩ := hs.find?_eq_some_iff.1 hi
    rw [h r (List.mem_of_getElem? hr)] at hrule
    cases hrule

/-- The count of a rule is that of all rules of the list that are equal to it, of which there is
one or none. -/
theorem WellIndexed.sum_filter_beq (hs : s.WellIndexed) (rule : Tree α) :
    ((s.toList.filter fun e => e.1 == rule).map (·.2)).sum = s.count rule := by
  rw [count]
  split
  case h_1 i hfind =>
    obtain ⟨r, hr, hrule⟩ := hs.find?_eq_some_iff.1 hfind
    rw [rules, List.getElem?_map] at hr
    obtain ⟨e, he, rfl⟩ := Option.map_eq_some_iff.1 hr
    have hdistinct : s.toList.Pairwise fun a b => ¬ ((a.1 == rule) = true ∧ (b.1 == rule) = true) :=
      (List.pairwise_map.1 hs.distinct).imp fun hne ⟨ha, hb⟩ =>
        absurd (BEq.trans ha (BEq.symm hb)) (by simp [hne])
    rw [filter_eq_singleton hdistinct (List.mem_of_getElem? he) hrule, ← Array.getElem?_toList,
      ← toList, he]
    rfl
  case h_2 hfind =>
    have hnone : (s.toList.filter fun e => e.1 == rule) = [] :=
      List.filter_eq_nil_iff.2 fun e he => by
        simp [hs.find?_eq_none_iff.1 hfind e.1 (List.mem_map_of_mem he)]
    rw [hnone]
    rfl

/-! ### One addition -/

/-- An addition of nothing changes nothing; any other raises the count of the rule, which is
new at the end of the list if it was not there. -/
theorem WellIndexed.addCount_cases (hs : s.WellIndexed) (rule : Tree α) (n : Nat) :
    (n = 0 ∧ s.addCount rule n = s) ∨
    (n ≠ 0 ∧ ∃ i r, s.rules[i]? = some r ∧ (r == rule) = true ∧
      s.addCount rule n =
        { s with
          entries := s.entries.modify i fun e => (e.1, e.2 + n)
          total := s.total + n }) ∨
    (n ≠ 0 ∧ (∀ r ∈ s.rules, (r == rule) = false) ∧
      s.addCount rule n =
        { s with
          entries := s.entries.push (rule, n)
          buckets := s.buckets.insert (s.digest rule.feed)
            (s.buckets.getD (s.digest rule.feed) [] ++ [s.entries.size])
          total := s.total + n }) := by
  by_cases hn : n = 0
  · exact .inl ⟨hn, if_pos hn⟩
  · cases hfind : s.find? rule with
    | some i =>
      obtain ⟨r, hr, hrule⟩ := hs.find?_eq_some_iff.1 hfind
      exact .inr (.inl ⟨hn, i, r, hr, hrule, by rw [addCount, if_neg hn, hfind]⟩)
    | none =>
      exact .inr (.inr ⟨hn, hs.find?_eq_none_iff.1 hfind, by rw [addCount, if_neg hn, hfind]⟩)

omit [BEq α] [EquivBEq α] in
lemma rules_modify (entries : Array (Tree α × Nat)) (i n : Nat) :
    (entries.modify i fun e => (e.1, e.2 + n)).toList.map (·.1) =
      entries.toList.map (·.1) := by
  rw [Array.toList_modify]
  apply List.ext_getElem?
  intro j
  simp only [List.getElem?_map, List.getElem?_modify, Option.map_eq_map, Option.map_map]
  congr 1
  funext e
  by_cases hij : i = j
  · simp [hij]
  · simp [hij]

omit [BEq α] [EquivBEq α] in
lemma getElem?_concat_eq_some_iff {β : Type} {xs : List β} {x y : β} {i : Nat} :
    (xs ++ [x])[i]? = some y ↔ xs[i]? = some y ∨ (i = xs.length ∧ x = y) := by
  rw [List.getElem?_append]
  split
  case isTrue hi =>
    simp [Nat.ne_of_lt hi]
  case isFalse hi =>
    rw [List.getElem?_eq_none (by omega : xs.length ≤ i), List.getElem?_singleton]
    by_cases hlast : i = xs.length
    · simp [hlast]
    · simp [hlast, show i - xs.length ≠ 0 by omega]

/-- The buckets stay in step with the list. -/
theorem WellIndexed.addCount (hs : s.WellIndexed) (rule : Tree α) (n : Nat) :
    (s.addCount rule n).WellIndexed := by
  obtain ⟨-, h⟩ | ⟨-, i, r, -, -, h⟩ | ⟨-, hnew, h⟩ := hs.addCount_cases rule n
  · rw [h]
    exact hs
  · have hrules : (s.addCount rule n).rules = s.rules := by
      rw [h]
      exact rules_modify s.entries i n
    constructor
    · rw [h]
      exact hs.respects
    · rw [hrules, h]
      exact hs.mem_bucket_iff
    · rw [hrules]
      exact hs.distinct
  · have hrules : (s.addCount rule n).rules = s.rules ++ [rule] := by
      rw [h]
      simp [rules, toList]
    have hsize : s.rules.length = s.entries.size := by simp [rules, toList]
    constructor
    · rw [h]
      exact hs.respects
    · intro d i
      rw [hrules, h, Std.HashMap.getD_insert, ← hsize]
      simp only [getElem?_concat_eq_some_iff, or_and_right, exists_or, and_assoc,
        exists_eq_left', exists_and_left]
      by_cases hd : s.digest rule.feed = d
      · subst hd
        rw [if_pos BEq.rfl, List.mem_append, hs.mem_bucket_iff, List.mem_singleton]
        simp
      · rw [if_neg (by simpa using hd), hs.mem_bucket_iff]
        simp [hd]
    · rw [hrules, List.pairwise_append]
      refine ⟨hs.distinct, List.pairwise_singleton _ _, fun r hr r' hr' => ?_⟩
      rw [List.mem_singleton.1 hr']
      exact hnew r hr

/-! ### The list after one addition -/

/-- An addition is a matter of the list: the rule that is equal to the added one gets its
count raised, or the added one is put at the end. -/
theorem WellIndexed.toList_addCount (hs : s.WellIndexed) (rule : Tree α) (n : Nat) :
    (s.addCount rule n).toList =
      if n = 0 then s.toList
      else if s.rules.any (· == rule) then
        s.toList.map fun e => (e.1, e.2 + if e.1 == rule then n else 0)
      else s.toList ++ [(rule, n)] := by
  obtain ⟨rfl, h⟩ | ⟨hn, i, r, hr, hrule, h⟩ | ⟨hn, hnew, h⟩ := hs.addCount_cases rule n
  · rw [h, if_pos rfl]
  · have hany : s.rules.any (· == rule) = true :=
      List.any_eq_true.2 ⟨r, List.mem_of_getElem? hr, hrule⟩
    rw [h, if_neg hn, if_pos hany, toList, Array.toList_modify]
    apply List.ext_getElem?
    intro j
    rw [List.getElem?_modify, List.getElem?_map, toList]
    cases hj : s.entries.toList[j]? with
    | none => rfl
    | some e =>
      have hej : s.rules[j]? = some e.1 := by rw [rules, List.getElem?_map, toList, hj]; rfl
      by_cases hij : i = j
      · subst hij
        obtain rfl : r = e.1 := by rw [hr] at hej; exact Option.some.inj hej
        simp [hrule]
      · have hne : (e.1 == rule) = false := by
          by_contra he
          exact hij (hs.place_unique hr hrule hej (by simpa using he))
        simp [hij, hne]
  · have hany : s.rules.any (· == rule) = false := List.any_eq_false.2 fun r hr => by
      simp [hnew r hr]
    rw [h, if_neg hn, if_neg (by simp [hany])]
    simp [toList]

end

/-! ### The list after any additions -/

/-- What was added for trees that are equal to a rule. -/
def added (calls : List (Tree α × Nat)) (rule : Tree α) : Nat :=
  ((calls.filter fun c => c.1 == rule).map (·.2)).sum

/-- The first tree of each kind that was added at least once, in the order of the additions. -/
def firsts (calls : List (Tree α × Nat)) : List (Tree α) :=
  ((calls.filter fun c => c.2 ≠ 0).map (·.1)).eraseDups

lemma added_append_singleton (calls : List (Tree α × Nat)) (c : Tree α × Nat)
    (rule : Tree α) :
    added (calls ++ [c]) rule = added calls rule + if c.1 == rule then c.2 else 0 := by
  rw [added, List.filter_append, List.map_append, List.sum_append, ← added]
  by_cases hc : (c.1 == rule) = true
  · simp [hc]
  · simp [hc]

lemma firsts_append_singleton [EquivBEq α] (calls : List (Tree α × Nat)) (c : Tree α × Nat) :
    firsts (calls ++ [c]) =
      if c.2 = 0 then firsts calls
      else if (firsts calls).any (· == c.1) then firsts calls
      else firsts calls ++ [c.1] := by
  by_cases hc : c.2 = 0
  · simp [firsts, hc]
  · have hsingle : [c].filter (fun c => c.2 ≠ 0) = [c] := by simp [hc]
    rw [firsts, List.filter_append, hsingle, List.map_append, List.map_singleton,
      eraseDups_append_singleton, ← any_eraseDups, ← firsts, if_neg hc]

lemma added_congr [EquivBEq α] (calls : List (Tree α × Nat)) {r r' : Tree α}
    (h : (r == r') = true) : added calls r = added calls r' := by
  simp only [added, BEq.congr_right h]

/-- Something was added for a rule exactly when one of its kind is among the first ones. -/
lemma added_pos_iff [EquivBEq α] {calls : List (Tree α × Nat)} {rule : Tree α} :
    0 < added calls rule ↔ ∃ r ∈ firsts calls, (r == rule) = true := by
  have hany : (∃ r ∈ firsts calls, (r == rule) = true) ↔
      ∃ c ∈ calls, c.2 ≠ 0 ∧ (c.1 == rule) = true := by
    rw [← List.any_eq_true, firsts, any_eraseDups, List.any_eq_true]
    constructor
    · rintro ⟨r, hr, hrule⟩
      obtain ⟨c, hc, rfl⟩ := List.mem_map.1 hr
      obtain ⟨hc, hne⟩ := List.mem_filter.1 hc
      exact ⟨c, hc, by simpa using hne, hrule⟩
    · rintro ⟨c, hc, hne, hrule⟩
      exact ⟨c.1, List.mem_map_of_mem (List.mem_filter.2 ⟨hc, by simpa using hne⟩), hrule⟩
  rw [hany, added, List.sum_pos_iff_exists_pos_nat]
  simp only [List.mem_map, List.mem_filter, Nat.pos_iff_ne_zero]
  constructor
  · rintro ⟨_, ⟨c, ⟨hc, hrule⟩, rfl⟩, hpos⟩
    exact ⟨c, hc, hpos, hrule⟩
  · rintro ⟨c, hc, hpos, hrule⟩
    exact ⟨_, ⟨c, ⟨hc, hrule⟩, rfl⟩, hpos⟩

section

variable [EquivBEq α] {digest : List (Token α) → UInt64}

omit [EquivBEq α] in
lemma addAll_append_singleton [OfNat N 0] [Add N] [DecidableEq N] (s : RuleSet α N)
    (calls : List (Tree α × N)) (c : Tree α × N) :
    s.addAll (calls ++ [c]) = (s.addAll calls).addCount c.1 c.2 := by
  rw [addAll, List.foldl_append]
  rfl

omit [EquivBEq α] in
/-- The total rises by all that is added, whatever the digest. -/
lemma total_addAll_eq_add (s : RuleSet α) (calls : List (Tree α × Nat)) :
    (s.addAll calls).total = s.total + (calls.map (·.2)).sum := by
  induction calls using List.reverseRecOn with
  | nil => rfl
  | append_singleton calls c ih =>
    rw [addAll_append_singleton, total_addCount, ih, List.map_append, List.sum_append,
      Nat.add_assoc]
    simp

theorem wellIndexed_addAll {s : RuleSet α} (hs : s.WellIndexed)
    (calls : List (Tree α × Nat)) : (s.addAll calls).WellIndexed := by
  induction calls using List.reverseRecOn with
  | nil => exact hs
  | append_singleton calls c ih =>
    rw [addAll_append_singleton]
    exact ih.addCount c.1 c.2

/-- The list has the first tree of each kind, with the sum of what was added for it. -/
theorem toList_addAll (hdigest : Token.Respects digest) (calls : List (Tree α × Nat)) :
    ((emptyWith digest).addAll calls).toList =
      (firsts calls).map fun r => (r, added calls r) := by
  induction calls using List.reverseRecOn with
  | nil => rfl
  | append_singleton calls c ih =>
    have hs := wellIndexed_addAll (wellIndexed_emptyWith hdigest) calls
    have hrules : ((emptyWith digest).addAll calls).rules = firsts calls := by
      rw [rules, ih, List.map_map]
      exact List.map_id _
    rw [addAll_append_singleton, hs.toList_addCount, ih, hrules, firsts_append_singleton]
    simp only [added_append_singleton]
    split
    case isTrue hzero => simp [hzero]
    case isFalse =>
      split
      case isTrue =>
        simp only [List.map_map, Function.comp_def, BEq.comm]
      case isFalse hnew =>
        have hne : ∀ r ∈ firsts calls, (r == c.1) = false := by
          simpa using hnew
        -- nothing was added so far for the new rule
        have hzero : added calls c.1 = 0 := by
          by_contra hpos
          obtain ⟨r, hr, hrc⟩ := added_pos_iff.1 (Nat.pos_of_ne_zero hpos)
          rw [hne r hr] at hrc
          cases hrc
        rw [List.map_append, List.map_singleton, hzero, if_pos BEq.rfl, Nat.zero_add]
        refine congrArg (· ++ _) (List.map_congr_left fun r hr => ?_)
        rw [BEq.comm, hne r hr]
        rfl

lemma rules_addAll (hdigest : Token.Respects digest) (calls : List (Tree α × Nat)) :
    ((emptyWith digest).addAll calls).rules = firsts calls := by
  rw [rules, toList_addAll hdigest, List.map_map]
  exact List.map_id _

/-- Every rule is there because of an addition. -/
lemma exists_call_of_mem_toList (hdigest : Token.Respects digest) {calls : List (Tree α × Nat)}
    {e : Tree α × Nat} (h : e ∈ ((emptyWith digest).addAll calls).toList) :
    ∃ c ∈ calls, c.2 ≠ 0 ∧ c.1 = e.1 := by
  have hrule : e.1 ∈ firsts calls := by
    rw [← rules_addAll hdigest]
    exact List.mem_map_of_mem h
  obtain ⟨c, hc, hce⟩ := List.mem_map.1 ((eraseDups_sublist _).mem hrule)
  obtain ⟨hc, hne⟩ := List.mem_filter.1 hc
  exact ⟨c, hc, by simpa using hne, hce⟩

/-! ### Counts -/

theorem count_addAll (hdigest : Token.Respects digest) (calls : List (Tree α × Nat))
    (rule : Tree α) : ((emptyWith digest).addAll calls).count rule = added calls rule := by
  have hs := wellIndexed_addAll (wellIndexed_emptyWith hdigest) calls
  have hlist := toList_addAll hdigest calls
  have hrules := rules_addAll hdigest calls
  rw [count]
  split
  case h_1 i hfind =>
    obtain ⟨r, hr, hrule⟩ := hs.find?_eq_some_iff.1 hfind
    rw [← Array.getElem?_toList, ← toList, hlist, List.getElem?_map, ← hrules, hr]
    exact added_congr calls hrule
  case h_2 hfind =>
    rw [hs.find?_eq_none_iff, hrules] at hfind
    by_contra hne
    obtain ⟨r, hr, hrule⟩ := added_pos_iff.1 (Nat.pos_of_ne_zero (Ne.symm hne))
    rw [hfind r hr] at hrule
    cases hrule

lemma snd_eq_added (hdigest : Token.Respects digest) {calls : List (Tree α × Nat)}
    {e : Tree α × Nat} (h : e ∈ ((emptyWith digest).addAll calls).toList) :
    e.2 = added calls e.1 := by
  rw [toList_addAll hdigest] at h
  obtain ⟨r, -, rfl⟩ := List.mem_map.1 h
  rfl

/-- An addition adds to the sum of the counts what it adds to the total. -/
lemma WellIndexed.sum_addCount {s : RuleSet α} (hs : s.WellIndexed) (rule : Tree α) (n : Nat) :
    ((s.addCount rule n).toList.map (·.2)).sum = (s.toList.map (·.2)).sum + n := by
  obtain ⟨rfl, h⟩ | ⟨-, i, r, hr, -, h⟩ | ⟨-, -, h⟩ := hs.addCount_cases rule n
  · rw [h, Nat.add_zero]
  · have hi : i < s.toList.length := by
      have hlt := (List.getElem?_eq_some_iff.1 hr).1
      rwa [rules, List.length_map] at hlt
    rw [h, toList, Array.toList_modify]
    exact sum_map_modify (fun _ => rfl) hi
  · rw [h]
    simp [toList]

theorem total_addAll (hdigest : Token.Respects digest) (calls : List (Tree α × Nat)) :
    ((emptyWith digest).addAll calls).total = (calls.map (·.2)).sum ∧
      (((emptyWith digest).addAll calls).toList.map (·.2)).sum = (calls.map (·.2)).sum := by
  refine ⟨(total_addAll_eq_add _ calls).trans (Nat.zero_add _), ?_⟩
  induction calls using List.reverseRecOn with
  | nil => rfl
  | append_singleton calls c ih =>
    have hs := wellIndexed_addAll (wellIndexed_emptyWith hdigest) calls
    rw [addAll_append_singleton, hs.sum_addCount, ih]
    simp

lemma containsBy_addAll_iff (hdigest : Token.Respects digest) (calls : List (Tree α × Nat))
    (rule : Tree α) :
    ((emptyWith digest).addAll calls).containsBy (· == ·) rule = true ↔
      0 < added calls rule := by
  rw [added_pos_iff, ← rules_addAll hdigest, containsBy, ← Array.any_toList, List.any_eq_true,
    rules]
  constructor
  · rintro ⟨e, he, hrule⟩
    exact ⟨e.1, List.mem_map_of_mem he, hrule⟩
  · rintro ⟨r, hr, hrule⟩
    obtain ⟨e, he, rfl⟩ := List.mem_map.1 hr
    exact ⟨e, he, hrule⟩

/-! ### The order of the additions -/

/-- Trees up to equality. -/
def kinds (α : Type) [BEq α] [EquivBEq α] : Setoid (Tree α) where
  r t u := (t == u) = true
  iseqv := ⟨fun _ => BEq.rfl, BEq.symm, BEq.trans⟩

/-- The list with every rule in place of all that are equal to it. -/
def kindCounts (s : RuleSet α N) : List (Quotient (kinds α) × N) :=
  s.toList.map fun e => (Quotient.mk (kinds α) e.1, e.2)

omit [EquivBEq α] in
lemma added_perm {calls calls' : List (Tree α × Nat)} (h : calls.Perm calls')
    (rule : Tree α) : added calls rule = added calls' rule :=
  ((h.filter _).map _).sum_eq

lemma nodup_kindCounts {s : RuleSet α} (hs : s.WellIndexed) : s.kindCounts.Nodup := by
  have hkinds : (s.rules.map (Quotient.mk (kinds α))).Nodup := by
    refine List.pairwise_map.2 (hs.distinct.imp fun {r r'} hne heq => ?_)
    have hbeq : (r == r') = true := Quotient.exact heq
    rw [hne] at hbeq
    cases hbeq
  refine List.Nodup.of_map (·.1) ?_
  rw [kindCounts, List.map_map]
  rwa [rules, List.map_map] at hkinds

lemma mem_kindCounts_iff (hdigest : Token.Respects digest) {calls : List (Tree α × Nat)}
    {rule : Tree α} {n : Nat} :
    (Quotient.mk (kinds α) rule, n) ∈ ((emptyWith digest).addAll calls).kindCounts ↔
      0 < n ∧ n = added calls rule := by
  rw [kindCounts, toList_addAll hdigest, List.map_map, List.mem_map]
  constructor
  · rintro ⟨r, hr, heq⟩
    obtain ⟨hkind, rfl⟩ := Prod.mk.inj heq
    have hrule : (r == rule) = true := Quotient.exact hkind
    exact ⟨added_pos_iff.2 ⟨r, hr, BEq.rfl⟩, added_congr calls hrule⟩
  · rintro ⟨hpos, rfl⟩
    obtain ⟨r, hr, hrule⟩ := added_pos_iff.1 hpos
    exact ⟨r, hr, Prod.ext (Quotient.sound hrule) (added_congr calls hrule)⟩

/-! ### All that can be asked of a rule set -/

/-- The rule set holds what was added, as a multiset of trees up to equality. -/
structure IsTally (s : RuleSet α) (calls : List (Tree α × Nat)) : Prop where
  /-- The rules are the first trees of their kinds that were added at least once. -/
  toList_eq : s.toList = (firsts calls).map fun r => (r, added calls r)
  distinct : s.toList.Pairwise fun e e' => (e.1 == e'.1) = false
  one_le : ∀ e ∈ s.toList, 1 ≤ e.2
  count_eq : ∀ rule, s.count rule = added calls rule
  total_eq : s.total = (calls.map (·.2)).sum
  total_eq_sum : s.total = (s.toList.map (·.2)).sum
  containsBy_iff : ∀ rule, s.containsBy (· == ·) rule = true ↔ 0 < s.count rule

/-- Two rule sets differ at most in the order of the rules, and in the trees that stand for
those equal to them. -/
structure SameContents [OfNat N 0] (s s' : RuleSet α N) : Prop where
  count_eq : ∀ rule, s.count rule = s'.count rule
  size_eq : s.size = s'.size
  total_eq : s.total = s'.total
  kindCounts_perm : s.kindCounts.Perm s'.kindCounts

/-- Whatever the digest, additions make a multiset of trees up to equality; the order of the
additions shows only in the order of the list. -/
theorem addAll_isTally {digest' : List (Token α) → UInt64} (hdigest : Token.Respects digest)
    (hdigest' : Token.Respects digest') (calls : List (Tree α × Nat)) :
    IsTally ((emptyWith digest).addAll calls) calls ∧
      ∀ calls', calls.Perm calls' →
        SameContents ((emptyWith digest).addAll calls) ((emptyWith digest').addAll calls') := by
  have hs := wellIndexed_addAll (wellIndexed_emptyWith hdigest) calls
  have htotal := total_addAll hdigest calls
  constructor
  · constructor
    case toList_eq => exact toList_addAll hdigest calls
    case distinct => exact List.pairwise_map.1 hs.distinct
    case one_le =>
      rw [toList_addAll hdigest]
      intro e he
      obtain ⟨r, hr, rfl⟩ := List.mem_map.1 he
      exact added_pos_iff.2 ⟨r, hr, BEq.rfl⟩
    case count_eq => exact count_addAll hdigest calls
    case total_eq => exact htotal.1
    case total_eq_sum => exact htotal.1.trans htotal.2.symm
    case containsBy_iff =>
      intro rule
      rw [count_addAll hdigest, containsBy_addAll_iff hdigest]
  · intro calls' hperm
    have hs' := wellIndexed_addAll (wellIndexed_emptyWith hdigest') calls'
    have hkinds : (((emptyWith digest).addAll calls).kindCounts).Perm
        ((emptyWith digest').addAll calls').kindCounts := by
      refine (List.perm_ext_iff_of_nodup (nodup_kindCounts hs) (nodup_kindCounts hs')).2 ?_
      rintro ⟨kind, n⟩
      induction kind using Quotient.inductionOn with
      | _ rule =>
        rw [mem_kindCounts_iff hdigest, mem_kindCounts_iff hdigest', added_perm hperm]
    constructor
    case count_eq =>
      intro rule
      rw [count_addAll hdigest, count_addAll hdigest', added_perm hperm]
    case size_eq => simpa [kindCounts, toList, size] using hkinds.length_eq
    case total_eq =>
      rw [htotal.1, (total_addAll hdigest' calls').1]
      exact (hperm.map _).sum_eq
    case kindCounts_perm => exact hkinds

end

/-- A leaf is one rule with and without an empty slot, also where one bucket has all rules. -/
theorem addAll_isTally_one_bucket :
    Token.Respects (fun _ : List (Token Nat) => 0) ∧
      Token.Respects (Token.digest (α := Nat)) ∧
      IsTally ((emptyWith fun _ => 0).addAll [(Tree.leaf 1, 2), (.leaf 2, 0), (.single 1 1, 3)])
        [(.leaf 1, 2), (.leaf 2, 0), (.single 1 1, 3)] ∧
      ∀ calls', List.Perm [(.leaf 1, 2), (.leaf 2, 0), (.single 1 1, 3)] calls' →
        SameContents
          ((emptyWith fun _ => 0).addAll [(Tree.leaf 1, 2), (.leaf 2, 0), (.single 1 1, 3)])
          ((emptyWith Token.digest).addAll calls') :=
  ⟨Token.respects_of_lawfulBEq _, Token.respects_digest,
    addAll_isTally (Token.respects_of_lawfulBEq _) Token.respects_digest _⟩

end RuleSet

end TreeGrammar
