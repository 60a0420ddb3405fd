/-
# Samples and the labels before them

A scan remembers the labels met last in a queue with room for `window` of them, and takes samples
at a node before its label goes in.  So the queue always has the last labels of all that were met
(`foldl_visit`), and the samples are those that `sampleList` reads off the preorder with
hindsight (`scan_eq`).  Nodes of equal trees are met in the same order with the same labels, and
the queue is a new one for every tree, so that equal trees have equal samples and a list of trees
has those of its trees, one after the other (`samplesOfAll_eq`).

All this is as long as there is room for `window` labels, which depends on what a label takes.  The
room is set aside before a tree is scanned, so that a greater window fails even if there are few
labels to remember (`samples_eq`).
-/
import TreeGrammar.Corpus.Pattern
import TreeGrammar.Proofs.Match.Interchange
import TreeGrammar.Proofs.Tree.Parallel

namespace TreeGrammar

/-! ### The queue -/

/-- A queue that has the last items of a list has those of the list with the new item. -/
lemma Recent.items_push {β : Type} {room : Nat} {q : Recent β room} {xs : List β}
    (h : q.items = xs.drop (xs.length - room)) (x : β) :
    (q.push x).items = (xs ++ [x]).drop (xs.length + 1 - room) := by
  have hlength : q.items.length = xs.length - (xs.length - room) := by
    rw [h, List.length_drop]
  rw [push]
  split
  case isTrue hroom => simp [h, hroom]
  case isFalse hroom =>
    show (if q.items.length = room then q.items.tail else q.items) ++ [x] = _
    by_cases hfull : room ≤ xs.length
    · have hnext : xs.length + 1 - room = xs.length - room + 1 := by omega
      rw [if_pos (by omega), h, List.tail_drop, hnext,
        List.drop_append_of_le_length (by omega)]
    · have hall : xs.length - room = 0 := by omega
      have hnext : xs.length + 1 - room = 0 := by omega
      rw [if_neg (by omega), h, hall, hnext, List.drop_zero, List.drop_zero]

namespace PatternBook

variable {α : Type} (b : PatternBook α) (window : Nat) (eq : α → α → Bool) (t : Tree α)

/-! ### One scan -/

/-- The numbers of the patterns that can be applied at a node with all children. -/
def matching (v : Nat) : List Nat :=
  (List.range' 1 b.size).filter fun id =>
    (b.get? id).any fun pattern => Matcher.applies ⟨eq, .exact⟩ pattern t v

lemma idsAt_eq (v : Nat) : b.idsAt eq t v = b.matching eq t v := by
  have hget : ∀ e ∈ b.patterns.toList.zipIdx 1, b.get? e.2 = some e.1 := by
    rintro ⟨pattern, id⟩ he
    obtain ⟨hle, hpattern⟩ := List.mk_mem_zipIdx_iff_le_and_getElem?_sub.1 he
    have hne : ¬ id = noPattern := Nat.ne_of_gt hle
    show (if id = noPattern then none else b.patterns[id - 1]?) = some pattern
    rw [if_neg hne, ← Array.getElem?_toList, hpattern]
  have hids : List.range' 1 b.size = (b.patterns.toList.zipIdx 1).map (·.2) :=
    (List.zipIdx_map_snd 1 _).symm
  rw [idsAt, toList, matching, hids, List.filter_map, List.filter_map, List.map_map]
  refine congrArg₂ List.map rfl (List.filter_congr fun e he => ?_)
  simp only [Function.comp_apply, hget e he, Option.any_some, Prod.snd_swap]

/-- The samples at the nodes of a list, each with the labels of the nodes in the last `window`
places before its own. -/
def samplesAlong (vs : List Nat) : List (Sample α) :=
  vs.zipIdx.flatMap fun e => (b.matching eq t e.1).map fun id =>
    ⟨id, ((vs.take e.2).drop (e.2 - window)).map t.label⟩

lemma samplesAlong_append_singleton (vs : List Nat) (v : Nat) :
    b.samplesAlong window eq t (vs ++ [v]) = b.samplesAlong window eq t vs ++
      (b.matching eq t v).map fun id => ⟨id, (vs.drop (vs.length - window)).map t.label⟩ := by
  rw [samplesAlong, List.zipIdx_append, List.flatMap_append, samplesAlong]
  congr 1
  · refine List.flatMap_congr fun e he => ?_
    have hlt : e.2 ≤ vs.length := by
      have := List.snd_lt_of_mem_zipIdx he
      omega
    rw [List.take_append_of_le_length hlt]
  · simp

/-- After some nodes the scan has taken the samples at these, and remembers the last of their
labels. -/
theorem foldl_visit (vs : List Nat) :
    (vs.foldl (b.visit eq t) ⟨#[], .empty⟩ : Scan α window).found.toList =
        b.samplesAlong window eq t vs ∧
      (vs.foldl (b.visit eq t) ⟨#[], .empty⟩ : Scan α window).met.items =
        (vs.map t.label).drop (vs.length - window) := by
  induction vs using List.reverseRecOn with
  | nil => exact ⟨rfl, (List.drop_nil).symm⟩
  | append_singleton vs v ih =>
    obtain ⟨hfound, hmet⟩ := ih
    rw [List.foldl_append, List.foldl_cons, List.foldl_nil]
    constructor
    · rw [samplesAlong_append_singleton, ← hfound, List.map_drop, ← hmet, ← idsAt_eq]
      exact Array.toList_appendList
    · rw [List.map_append, List.length_append, List.map_singleton]
      rw [← List.length_map t.label] at hmet ⊢
      exact Recent.items_push hmet (t.label v)

/-- The samples of a tree: place by place in preorder, and pattern by pattern. -/
def sampleList : List (Sample α) := b.samplesAlong window eq t t.plan

lemma scan_eq : b.scan window eq t = b.sampleList window eq t :=
  (b.foldl_visit window eq t t.plan).1

lemma samples_eq (bytes : Nat) : b.samples bytes window eq t =
    if bytes * window < blockBound then .ok (b.sampleList window eq t) else .error ⟨window⟩ := by
  rw [samples, setAside_bind, scan_eq]
  rfl

/-! ### Several trees -/

/-- The trees are scanned one by one, and if there are any the first one fails if one does. -/
lemma samplesOfAll_eq (bytes : Nat) (ts : List (Tree α)) : b.samplesOfAll bytes window eq ts =
    if bytes * window < blockBound ∨ ts = [] then .ok (ts.flatMap (b.sampleList window eq))
    else .error ⟨window⟩ := by
  by_cases hroom : bytes * window < blockBound
  · have hall : ts.mapM (b.samples bytes window eq) = .ok (ts.map (b.sampleList window eq)) := by
      induction ts with
      | nil => rfl
      | cons t ts ih =>
        rw [List.mapM_cons, samples_eq, if_pos hroom, ih]
        rfl
    rw [samplesOfAll, hall, if_pos (.inl hroom), List.flatMap_def]
    rfl
  · cases ts with
    | nil => rw [if_pos (.inr rfl)]; rfl
    | cons t ts =>
      rw [samplesOfAll, List.mapM_cons, samples_eq, if_neg hroom, if_neg (by simp [hroom])]
      rfl

/-! ### Equal trees -/

/-- The samples have one pattern, and labels before them that are related one by one. -/
def SampleRel (R : α → α → Prop) (s s' : Sample α) : Prop :=
  s.pattern = s'.pattern ∧ List.Forall₂ R s.previous s'.previous

lemma forall₂_zipIdx {β γ : Type} {R : β → γ → Prop} {xs : List β} {ys : List γ}
    (h : List.Forall₂ R xs ys) (n : Nat) :
    List.Forall₂ (fun e e' => R e.1 e'.1 ∧ e.2 = e'.2) (xs.zipIdx n) (ys.zipIdx n) := by
  induction h generalizing n with
  | nil => exact .nil
  | cons hxy _ ih => exact .cons ⟨hxy, rfl⟩ (ih (n + 1))

variable {eq t} {u : Tree α} {R : α → α → Prop}

/-- Trees whose labels the comparison does not tell apart have the same samples, but for the
labels. -/
theorem forall₂_sampleList (heq : ∀ a c d, R c d → eq a c = eq a d)
    (h : Tree.Alike R t u Tree.root Tree.root) :
    List.Forall₂ (SampleRel R) (b.sampleList window eq t) (b.sampleList window eq u) := by
  have hplan : List.Forall₂ (Tree.Alike R t u) t.plan u.plan :=
    Tree.Alike.parallel.forall₂_preorder h
  have hmatching : ∀ v w, Tree.Alike R t u v w → b.matching eq t v = b.matching eq u w := by
    intro v w hvw
    refine List.filter_congr fun id _ => ?_
    congr 1
    funext pattern
    refine Matcher.applies_congr ?_ (Tree.Alike.refl Eq.refl pattern Tree.root) hvw
    rintro a _ c d rfl hcd
    exact heq a c d hcd
  have hlabels : List.Forall₂ R (t.plan.map t.label) (u.plan.map u.label) :=
    List.rel_map (fun _ _ hvw => hvw.label) hplan
  refine List.rel_flatMap (forall₂_zipIdx hplan 0) ?_
  rintro ⟨v, i⟩ ⟨w, j⟩ ⟨hvw, hij⟩
  obtain rfl : i = j := hij
  simp only [hmatching v w hvw]
  refine List.rel_map (fun id id' hid => ⟨hid, ?_⟩) (List.forall₂_refl _)
  rw [List.map_drop, List.map_drop, List.map_take, List.map_take]
  exact List.forall₂_drop _ (List.forall₂_take _ hlabels)

lemma eq_of_forall₂_sampleRel {ss ss' : List (Sample α)} (h : List.Forall₂ (SampleRel Eq) ss ss') :
    ss = ss' := by
  refine List.forall₂_eq_eq_eq ▸ h.imp ?_
  rintro ⟨id, previous⟩ ⟨id', previous'⟩ ⟨hid, hprevious⟩
  obtain rfl : id = id' := hid
  obtain rfl : previous = previous' := List.forall₂_eq_eq_eq ▸ hprevious
  rfl

/-! ### What samples are -/

variable (eq)

/-- Place by place in preorder there are the samples of the patterns that can be applied, each with
the labels in the last `window` places before.  Equal trees have equal samples, and a list of trees
has those of its trees in order.  But there are none if there is no room for the window. -/
theorem samples_slide [BEq α] (bytes : Nat) :
    (∀ t, b.samples bytes window eq t =
      if bytes * window < blockBound then .ok (b.sampleList window eq t)
      else .error ⟨window⟩) ∧
    (∀ ts, b.samplesOfAll bytes window eq ts =
      if bytes * window < blockBound ∨ ts = [] then .ok (ts.flatMap (b.sampleList window eq))
      else .error ⟨window⟩) ∧
    (LawfulBEq α → ∀ t u : Tree α, (t == u) = true →
      b.samples bytes window eq t = b.samples bytes window eq u) ∧
    ((∀ a c d, (c == d) = true → eq a c = eq a d) → ∀ t u : Tree α, (t == u) = true →
      List.Forall₂ (SampleRel fun c d => (c == d) = true)
        (b.sampleList window eq t) (b.sampleList window eq u)) := by
  refine ⟨fun t => b.samples_eq window eq t bytes, b.samplesOfAll_eq window eq bytes, ?_, ?_⟩
  · intro _ t u htu
    have halike : Tree.Alike Eq t u Tree.root Tree.root :=
      (Tree.beq_iff_alike.1 htu).imp fun _ _ => eq_of_beq
    have hlist : b.sampleList window eq t = b.sampleList window eq u :=
      eq_of_forall₂_sampleRel (b.forall₂_sampleList window (fun _ _ _ h => h ▸ rfl) halike)
    rw [samples_eq, samples_eq, hlist]
  · intro heq t u htu
    exact b.forall₂_sampleList window heq (Tree.beq_iff_alike.1 htu)

/-- The pattern `1 (2, 3)`. -/
def fork : Tree Nat := .ofSubtrees 1 [[.leaf 2, .leaf 3]]

/-- A tree has the same samples with and without an empty slot. -/
theorem samples_slide_empty_slot :
    LawfulBEq Nat ∧ (Tree.ofSubtrees 4 [[fork]] == .ofSubtrees 4 [[fork], []]) = true ∧
      (PatternBook.mk #[fork]).samples 32 2 (· == ·) (.ofSubtrees 4 [[fork]]) =
        (PatternBook.mk #[fork]).samples 32 2 (· == ·) (.ofSubtrees 4 [[fork], []]) := by
  have hbeq : (Tree.ofSubtrees 4 [[fork]] == .ofSubtrees 4 [[fork], []]) = true := by
    decide +kernel
  obtain ⟨-, -, hequal, -⟩ := samples_slide (PatternBook.mk #[fork]) 2 (· == ·) 32
  exact ⟨inferInstance, hbeq, hequal inferInstance _ _ hbeq⟩

example : (PatternBook.mk #[fork]).sampleList 2 (· == ·)
    (.ofSubtrees 1 [[fork, .leaf 5, .ofSubtrees 4 [[fork]]]]) = [⟨1, [1, 4]⟩, ⟨1, [2, 5]⟩] := by
  decide +kernel

/-- Nothing has to be remembered for a pattern at the root, but the scan fails all the same: with
labels of 32 bytes at the greatest window there is, and with those of 64 bytes from 2^57 on. -/
theorem samples_fail_at_root :
    (PatternBook.mk #[fork]).sampleList 18446744073709551615 (· == ·) fork = [⟨1, []⟩] ∧
      (PatternBook.mk #[fork]).samples 32 18446744073709551615 (· == ·) fork =
        .error ⟨18446744073709551615⟩ ∧
      (PatternBook.mk #[fork]).sampleList 144115188075855872 (· == ·) fork = [⟨1, []⟩] ∧
      (PatternBook.mk #[fork]).samples 64 144115188075855872 (· == ·) fork =
        .error ⟨144115188075855872⟩ := by
  decide +kernel

end PatternBook

end TreeGrammar
