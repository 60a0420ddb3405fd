/-
# The sum over all derivations

A derivation of a node says how the node is opened and, for every node at which it goes on, how
that one is derived.  A leaf is closed.  Where the grammar has no entry for the label, the
derivation goes on at the children.  Otherwise it goes on at the nodes that face the leaves of
a rule, which lies over the tree, or at the children, with the production of the node in place
of a missing rule.

With exact weights the score of a node is the sum of the weights of all its derivations
(`scores_eq_sum_derivations`).  The sum over all ways to open a node is part of the recurrence
of the scores, and the sum over all ways to go on is a product of sums (`sum_sections`).
-/
import TreeGrammar.Proofs.Score.Recurrence

namespace TreeGrammar

/-- Weights as numbers. -/
def Weighting.exact : Weighting ℚ≥0 where
  one := 1
  mul := (· * ·)
  share n total := n / total
  sum := List.sum

/-- How a node is opened. -/
inductive Choice where
  /-- Not at all, because it is a leaf. -/
  | stop
  /-- Into its children, because the grammar has no entry. -/
  | spread
  /-- By the rule in place `i` of the entry. -/
  | rule (i : Nat)
  /-- By its own production. -/
  | production

/-- A choice with its weight, and the derivations of the nodes at which it goes on. -/
inductive Derivation (W : Type) where
  | node (choice : Choice) (x : W) (parts : List (Derivation W))

namespace Derivation

variable {W : Type} [Monoid W]

mutual

/-- The product of the weights of all choices. -/
def weight : Derivation W → W
  | .node _ x parts => x * weightAll parts

/-- The product of the weights of several derivations. -/
def weightAll : List (Derivation W) → W
  | [] => 1
  | d :: ds => d.weight * weightAll ds

end

lemma weightAll_eq (ds : List (Derivation W)) : weightAll ds = (ds.map weight).prod := by
  induction ds with
  | nil => rw [weightAll]; rfl
  | cons d ds ih => rw [weightAll, ih, List.map_cons, List.prod_cons]

lemma weight_node (choice : Choice) (x : W) (parts : List (Derivation W)) :
    (node choice x parts).weight = x * (parts.map weight).prod := by
  rw [weight, weightAll_eq]

end Derivation

/-! ### Lists -/

lemma nodup_sections {β : Type} {xss : List (List β)} (h : ∀ xs ∈ xss, xs.Nodup) :
    xss.sections.Nodup := by
  induction xss with
  | nil => simp [List.sections]
  | cons xs xss ih =>
    obtain ⟨hxs, hxss⟩ := List.forall_mem_cons.1 h
    rw [List.sections, List.nodup_flatMap]
    constructor
    · -- sections with one rest differ in their heads
      intro ys _
      exact hxs.map fun a b hab => (List.cons.inj hab).1
    · refine (ih hxss).imp fun {ys zs} hne => ?_
      rw [Function.onFun, List.disjoint_left]
      intro l hl hl'
      obtain ⟨a, -, rfl⟩ := List.mem_map.1 hl
      obtain ⟨b, -, hb⟩ := List.mem_map.1 hl'
      exact hne (List.cons.inj hb).2.symm

/-- A sum of products over all ways to take one member of every list is a product of sums. -/
lemma sum_sections {β K : Type} [CommSemiring K] (w : β → K) (xss : List (List β)) :
    (xss.sections.map fun xs => (xs.map w).prod).sum =
      (xss.map fun xs => (xs.map w).sum).prod := by
  induction xss with
  | nil => simp [List.sections]
  | cons xs xss ih =>
    rw [List.map_cons, List.prod_cons, ← ih, List.sections, List.map_flatMap, List.flatMap_def,
      List.sum_flatten, List.map_map, ← List.sum_map_mul_left]
    refine congrArg List.sum (List.map_congr_left fun ys _ => ?_)
    simp only [Function.comp_apply, List.map_map, List.sum_map_mul_right, List.map_cons,
      List.prod_cons, Function.comp_def]

namespace Scorer

variable {α W : Type}

/-! ### Derivations of a node -/

/-- The ways to open a node: what is chosen, its weight, and the nodes at which a derivation
goes on. -/
inductive Opens (s : Scorer α W) (t : Tree α) (v : Nat) : Choice → W → List Nat → Prop
  | stop (hleaf : t.isLeaf v = true) : Opens s t v .stop s.weighting.one []
  | spread (hleaf : t.isLeaf v = false)
      (hnone : s.source s.matcher.eq (t.label v) = none) :
      Opens s t v .spread s.weighting.one (t.children v)
  | rule {rules : RuleSet α} {i n : Nat} {rule : Tree α} {ws : List Nat}
      (hleaf : t.isLeaf v = false)
      (hsome : s.source s.matcher.eq (t.label v) = some rules)
      (hrule : rules.toList[i]? = some (rule, n))
      (hroot : rule.isLeaf Tree.root = false) (hlies : s.matcher.Lies rule t Tree.root v)
      (hws : List.Forall₂ (Matcher.Faces rule t v) (rule.plan.filter rule.isLeaf) ws) :
      Opens s t v (.rule i) (s.ruleWeight rules rule n) ws
  | production {rules : RuleSet α} (hleaf : t.isLeaf v = false)
      (hsome : s.source s.matcher.eq (t.label v) = some rules) (hfallback : s.fallback = true)
      (hnew : ∀ e ∈ rules.toList,
        Tree.structEq s.matcher.eq e.1 Tree.root (t.oneLevel v) Tree.root = false) :
      Opens s t v .production (s.productionWeight t v) (t.children v)

/-- The derivations of a node. -/
inductive Derives (s : Scorer α W) (t : Tree α) : Nat → Derivation W → Prop
  | node {v : Nat} {choice : Choice} {x : W} {ws : List Nat} {parts : List (Derivation W)}
      (hopens : s.Opens t v choice x ws) (hparts : List.Forall₂ (Derives s t) ws parts) :
      Derives s t v (.node choice x parts)

/-! ### Openings in a list -/

/-- A way to open a node. -/
structure Opening (W : Type) where
  choice : Choice
  weight : W
  /-- The nodes at which a derivation goes on. -/
  next : List Nat

/-- The openings by rules, in the order of the rules. -/
def ruleOpenings (s : Scorer α W) (t : Tree α) (v : Nat) (rules : RuleSet α) :
    List (Opening W) :=
  (rules.toList.zipIdx.filter fun e => s.matcher.applies e.1.1 t v).map fun e =>
    ⟨.rule e.2, s.ruleWeight rules e.1.1 e.1.2,
      Matcher.leafSides e.1.1 (Matcher.facing e.1.1 t (Tree.root, v))⟩

/-- The opening by the production of the node. -/
def fallbackOpenings (s : Scorer α W) (t : Tree α) (v : Nat) (rules : RuleSet α) :
    List (Opening W) :=
  if s.fallback && !rules.containsBy s.matcher.eq (t.oneLevel v) then
    [⟨.production, s.productionWeight t v, t.children v⟩]
  else []

/-- All openings of a node. -/
def openings (s : Scorer α W) (t : Tree α) (v : Nat) : List (Opening W) :=
  if t.isLeaf v then [⟨.stop, s.weighting.one, []⟩]
  else
    match s.source s.matcher.eq (t.label v) with
    | none => [⟨.spread, s.weighting.one, t.children v⟩]
    | some rules => s.ruleOpenings t v rules ++ s.fallbackOpenings t v rules

lemma mem_ruleOpenings_iff {s : Scorer α W} {t : Tree α} {v : Nat} {rules : RuleSet α}
    {o : Opening W} :
    o ∈ s.ruleOpenings t v rules ↔
      ∃ i rule n, rules.toList[i]? = some (rule, n) ∧ rule.isLeaf Tree.root = false ∧
        s.matcher.Lies rule t Tree.root v ∧
        o = ⟨.rule i, s.ruleWeight rules rule n,
          Matcher.leafSides rule (Matcher.facing rule t (Tree.root, v))⟩ := by
  simp only [ruleOpenings, List.mem_map, List.mem_filter, Prod.exists,
    List.mk_mem_zipIdx_iff_getElem?, Matcher.applies_iff_lies]
  constructor
  · rintro ⟨rule, n, i, ⟨hi, hroot, hlies⟩, rfl⟩
    exact ⟨i, rule, n, hi, hroot, hlies, rfl⟩
  · rintro ⟨i, rule, n, hi, hroot, hlies, rfl⟩
    exact ⟨rule, n, i, ⟨hi, hroot, hlies⟩, rfl⟩

lemma mem_fallbackOpenings_iff {s : Scorer α W} {t : Tree α} {v : Nat} {rules : RuleSet α}
    {o : Opening W} :
    o ∈ s.fallbackOpenings t v rules ↔
      s.fallback = true ∧
        (∀ e ∈ rules.toList,
          Tree.structEq s.matcher.eq e.1 Tree.root (t.oneLevel v) Tree.root = false) ∧
        o = ⟨.production, s.productionWeight t v, t.children v⟩ := by
  have hnew : rules.containsBy s.matcher.eq (t.oneLevel v) = false ↔
      ∀ e ∈ rules.toList,
        Tree.structEq s.matcher.eq e.1 Tree.root (t.oneLevel v) Tree.root = false := by
    rw [RuleSet.containsBy, ← Array.any_toList, List.any_eq_false]
    simp [RuleSet.toList]
  rw [← hnew, fallbackOpenings]
  cases s.fallback with
  | false => simp
  | true =>
    cases rules.containsBy s.matcher.eq (t.oneLevel v) with
    | true => simp
    | false => simp

/-- The list has the ways to open the node. -/
theorem mem_openings_iff {s : Scorer α W} {t : Tree α} {v : Nat} {choice : Choice} {x : W}
    {ws : List Nat} :
    ⟨choice, x, ws⟩ ∈ s.openings t v ↔ s.Opens t v choice x ws := by
  rw [openings]
  constructor
  · intro h
    split at h
    case isTrue hleaf =>
      cases List.mem_singleton.1 h
      exact .stop hleaf
    case isFalse hleaf =>
      have hleaf : t.isLeaf v = false := by simpa using hleaf
      split at h
      case h_1 hnone =>
        cases List.mem_singleton.1 h
        exact .spread hleaf hnone
      case h_2 rules hsome =>
        rcases List.mem_append.1 h with h | h
        · obtain ⟨i, rule, n, hi, hroot, hlies, ho⟩ := mem_ruleOpenings_iff.1 h
          cases ho
          exact .rule hleaf hsome hi hroot hlies ((Matcher.forall₂_leaves_iff hlies).2 rfl)
        · obtain ⟨hfallback, hnew, ho⟩ := mem_fallbackOpenings_iff.1 h
          cases ho
          exact .production hleaf hsome hfallback hnew
  · intro h
    cases h with
    | stop hleaf => simp [hleaf]
    | spread hleaf hnone => simp [hleaf, hnone]
    | rule hleaf hsome hi hroot hlies hws =>
      simp only [hleaf, hsome]
      refine List.mem_append_left _ (mem_ruleOpenings_iff.2 ⟨_, _, _, hi, hroot, hlies, ?_⟩)
      rw [(Matcher.forall₂_leaves_iff hlies).1 hws]
    | production hleaf hsome hfallback hnew =>
      simp only [hleaf, hsome]
      exact List.mem_append_right _ (mem_fallbackOpenings_iff.2 ⟨hfallback, hnew, rfl⟩)

section

variable {t : Tree α} {v : Nat}

lemma nodup_choices {W : Type} {s : Scorer α W} : ((s.openings t v).map (·.choice)).Nodup := by
  have hrules : ∀ rules : RuleSet α,
      ((s.ruleOpenings t v rules).map (·.choice)).Nodup := by
    intro rules
    -- rules may be listed twice, but not in one place
    have hplaces : (rules.toList.zipIdx.map fun e => Choice.rule e.2).Nodup := by
      rw [← Function.comp_def Choice.rule, ← List.map_map, List.zipIdx_map_snd]
      exact List.Nodup.map (fun i j hij => Choice.rule.inj hij) List.nodup_range'
    rw [ruleOpenings, List.map_map]
    exact hplaces.sublist (List.Sublist.map _ List.filter_sublist)
  rw [openings]
  split
  · simp
  · split
    · simp
    · rename_i rules _
      rw [List.map_append, List.nodup_append']
      refine ⟨hrules rules, ?_, ?_⟩
      · rw [fallbackOpenings]
        split <;> simp
      · intro choice hrule hfallback
        obtain ⟨o, ho, rfl⟩ := List.mem_map.1 hrule
        obtain ⟨i, rule, n, -, -, -, rfl⟩ := mem_ruleOpenings_iff.1 ho
        obtain ⟨o', ho', heq⟩ := List.mem_map.1 hfallback
        obtain ⟨-, -, rfl⟩ := mem_fallbackOpenings_iff.1 ho'
        cases heq

/-- A derivation goes on below the node. -/
lemma Opens.below {W : Type} {s : Scorer α W} {choice : Choice} {x : W} {ws : List Nat}
    (h : s.Opens t v choice x ws) : ∀ w ∈ ws, t.Below v w ∧ w ≠ v := by
  have hchildren : ∀ w ∈ t.children v, t.Below v w ∧ w ≠ v := fun w hw =>
    ⟨.child hw, Tree.ne_of_mem_children hw⟩
  cases h with
  | stop hleaf => simp
  | spread hleaf hnone => exact hchildren
  | rule hleaf hsome hi hroot hlies hws =>
    intro w hw
    rw [(Matcher.forall₂_leaves_iff hlies).1 hws] at hw
    exact Matcher.below_of_mem_leafSides (Matcher.applies_iff_lies.2 ⟨hroot, hlies⟩) hw
  | production hleaf hsome hfallback hnew => exact hchildren

/-! ### Weights -/

/-- What an opening contributes to the score. -/
def Opening.term (f : Nat → ℚ≥0) (o : Opening ℚ≥0) : ℚ≥0 := o.weight * (o.next.map f).prod

section

variable {s : Scorer α ℚ≥0} (hexact : s.weighting = .exact) (f : Nat → ℚ≥0)

include hexact

lemma times_eq_mul_prod (x : ℚ≥0) (vs : List Nat) : s.times f x vs = x * (vs.map f).prod := by
  rw [times, hexact]
  induction vs generalizing x with
  | nil => simp
  | cons w vs ih =>
    rw [List.foldl_cons, ih, List.map_cons, List.prod_cons, ← mul_assoc]
    rfl

lemma times_leafSet {rule : Tree α} (h : s.matcher.applies rule t v = true) (x : ℚ≥0) :
    s.times f x (Matcher.leafSet rule t v).toList =
      x * ((Matcher.leafSides rule (Matcher.facing rule t (Tree.root, v))).map f).prod := by
  rw [times_eq_mul_prod hexact, ((Matcher.leafSet_perm_of_applies h).map f).prod_eq]

lemma ruleTerms_eq_map (rules : RuleSet α) :
    s.ruleTerms t f v rules = (s.ruleOpenings t v rules).map (Opening.term f) := by
  have hplaces : rules.toList.filter (fun e => s.matcher.applies e.1 t v) =
      (rules.toList.zipIdx.filter fun e => s.matcher.applies e.1.1 t v).map (·.1) := by
    conv_lhs => rw [← List.zipIdx_map_fst 0 rules.toList, List.filter_map]
    rfl
  rw [ruleTerms, hplaces, ruleOpenings, List.map_map, List.map_map]
  refine List.map_congr_left fun e he => ?_
  have happlies : s.matcher.applies e.1.1 t v = true := by simpa using (List.mem_filter.1 he).2
  simp only [Function.comp_apply, times_leafSet hexact f happlies, Opening.term]

lemma fallbackTerm?_eq_map (rules : RuleSet α) :
    (s.fallbackTerm? t f v rules).toList =
      (s.fallbackOpenings t v rules).map (Opening.term f) := by
  rw [fallbackTerm?, fallbackOpenings, times_eq_mul_prod hexact, hexact]
  split
  · simp [Opening.term, Weighting.exact]
  · rfl

/-- The recurrence is a sum over all openings. -/
theorem combine_eq_sum : s.combine t f v = ((s.openings t v).map (Opening.term f)).sum := by
  rw [combine, openings]
  split
  · simp [Opening.term, hexact, Weighting.exact]
  · cases s.source s.matcher.eq (t.label v) with
    | none => simp [times_eq_mul_prod hexact, Opening.term]
    | some rules =>
      simp only [ruleTerms_eq_map hexact, fallbackTerm?_eq_map hexact, ← List.map_append, hexact]
      rfl

end

/-! ### The sum over all derivations -/

/-- The derivations that begin with an opening, when `F` lists those of the nodes at which they
go on. -/
def Opening.derivations {W : Type} (F : Nat → List (Derivation W)) (o : Opening W) :
    List (Derivation W) :=
  (o.next.map F).sections.map (.node o.choice o.weight)

lemma Opening.sum_derivations (F : Nat → List (Derivation ℚ≥0)) (o : Opening ℚ≥0) :
    ((o.derivations F).map Derivation.weight).sum =
      o.term fun w => ((F w).map Derivation.weight).sum := by
  rw [derivations, List.map_map, term]
  simp only [Function.comp_def, Derivation.weight_node, List.sum_map_mul_left, sum_sections,
    List.map_map]

lemma Opening.mem_derivations_iff {W : Type} {F : Nat → List (Derivation W)} {o : Opening W}
    {d : Derivation W} :
    d ∈ o.derivations F ↔
      ∃ parts, List.Forall₂ (fun w e => e ∈ F w) o.next parts ∧
        d = .node o.choice o.weight parts := by
  simp only [derivations, List.mem_map, List.mem_sections, List.forall₂_map_right_iff]
  constructor
  · rintro ⟨parts, hparts, rfl⟩
    exact ⟨parts, hparts.flip, rfl⟩
  · rintro ⟨parts, hparts, rfl⟩
    exact ⟨parts, hparts.flip, rfl⟩

lemma nodup_flatMap_derivations {W : Type} {os : List (Opening W)}
    {F : Nat → List (Derivation W)} (hos : (os.map (·.choice)).Nodup)
    (hF : ∀ o ∈ os, ∀ w ∈ o.next, (F w).Nodup) :
    (os.flatMap (Opening.derivations F)).Nodup := by
  rw [List.nodup_flatMap]
  constructor
  · intro o ho
    refine List.Nodup.map (fun a b hab => (Derivation.node.inj hab).2.2) (nodup_sections ?_)
    intro ds hds
    obtain ⟨w, hw, rfl⟩ := List.mem_map.1 hds
    exact hF o ho w hw
  · refine (List.pairwise_map.1 hos).imp fun {o o'} hne d hd hd' => ?_
    obtain ⟨parts, -, rfl⟩ := Opening.mem_derivations_iff.1 hd
    obtain ⟨parts', -, heq⟩ := Opening.mem_derivations_iff.1 hd'
    exact hne (Derivation.node.inj heq).1

end

/-- A node has finitely many derivations, and its score is the sum of their weights. -/
theorem exists_derivations {s : Scorer α ℚ≥0} (hexact : s.weighting = .exact) (t : Tree α)
    (v : Nat) :
    ∃ ds : List (Derivation ℚ≥0), ds.Nodup ∧ (∀ d, d ∈ ds ↔ s.Derives t v d) ∧
      (ds.map Derivation.weight).sum = s.score t v := by
  induction v using t.induction_below with
  | node v ih =>
    -- `F` lists the derivations of all that is below `v`
    choose! F hnodup hmem hsum using ih
    refine ⟨(s.openings t v).flatMap (Opening.derivations F), ?_, fun d => ?_, ?_⟩
    · refine nodup_flatMap_derivations nodup_choices fun o ho w hw => ?_
      obtain ⟨hvw, hne⟩ := (mem_openings_iff.1 ho).below w hw
      exact hnodup w hvw hne
    · have hparts : ∀ o ∈ s.openings t v, ∀ parts,
          List.Forall₂ (fun w e => e ∈ F w) o.next parts ↔
            List.Forall₂ (s.Derives t) o.next parts := fun o ho =>
        forall₂_congr_of_mem fun w hw =>
          hmem w ((mem_openings_iff.1 ho).below w hw).1 ((mem_openings_iff.1 ho).below w hw).2
      rw [List.mem_flatMap]
      constructor
      · rintro ⟨o, ho, hd⟩
        obtain ⟨parts, hforall, rfl⟩ := Opening.mem_derivations_iff.1 hd
        exact .node (mem_openings_iff.1 ho) ((hparts o ho parts).1 hforall)
      · intro h
        cases h with
        | @node _ choice x ws parts hopens hforall =>
          have ho := mem_openings_iff.2 hopens
          exact ⟨_, ho, Opening.mem_derivations_iff.2 ⟨parts, (hparts _ ho parts).2 hforall, rfl⟩⟩
    · rw [List.map_flatMap, List.flatMap_def, List.sum_flatten, List.map_map, score_eq,
        combine_eq_sum hexact]
      refine congrArg List.sum (List.map_congr_left fun o ho => ?_)
      rw [Function.comp_apply, Opening.sum_derivations, Opening.term, Opening.term]
      congr 2
      refine List.map_congr_left fun w hw => ?_
      obtain ⟨hvw, hne⟩ := (mem_openings_iff.1 ho).below w hw
      exact hsum w hvw hne

/-- The scorer with exact weights. -/
def exact (source : RuleSource α) (matcher : Matcher α) (fallback : Bool)
    (posterior : Option (Tree α → ℚ≥0)) : Scorer α ℚ≥0 :=
  ⟨source, matcher, fallback, posterior, .exact⟩

end Scorer

end TreeGrammar
