/-
# Paths

A step leads from a node to the child in one place of one slot.  A child has one parent, and one
place under it; so a step can be taken back in one way only, and from the root one path leads to
every node (`Tree.existsUnique_path`).
-/
import TreeGrammar.Proofs.Tree.Below

namespace TreeGrammar

section

variable {β : Type} {xss : List (List β)} {x : β}

lemma mem_flatten_iff_exists_place :
    x ∈ xss.flatten ↔ ∃ s i : Nat, (xss.getD s [])[i]? = some x := by
  constructor
  · intro h
    obtain ⟨xs, hxs, hx⟩ := List.mem_flatten.1 h
    obtain ⟨s, hs⟩ := List.mem_iff_getElem?.1 hxs
    obtain ⟨i, hi⟩ := List.mem_iff_getElem?.1 hx
    exact ⟨s, i, by rw [List.getD_eq_getElem?_getD, hs]; exact hi⟩
  · rintro ⟨s, i, hi⟩
    rw [List.getD_eq_getElem?_getD] at hi
    cases hs : xss[s]? with
    | none =>
      rw [hs] at hi
      simp at hi
    | some xs =>
      rw [hs] at hi
      exact List.mem_flatten.2 ⟨xs, List.mem_of_getElem? hs, List.mem_of_getElem? hi⟩

/-- Where no member occurs twice, every member has one place. -/
lemma place_unique (h : xss.flatten.Nodup) {s s' i i' : Nat}
    (hx : (xss.getD s [])[i]? = some x) (hx' : (xss.getD s' [])[i']? = some x) :
    s = s' ∧ i = i' := by
  induction xss generalizing s s' with
  | nil => simp at hx
  | cons xs xss ih =>
    rw [List.flatten_cons, List.nodup_append'] at h
    obtain ⟨hxs, hxss, hdisjoint⟩ := h
    have hlater : ∀ {s i : Nat}, (xss.getD s [])[i]? = some x → x ∉ xs := fun hx hmem =>
      hdisjoint hmem (mem_flatten_iff_exists_place.2 ⟨_, _, hx⟩)
    cases s with
    | zero =>
      cases s' with
      | zero =>
        obtain ⟨hi, hget⟩ := List.getElem?_eq_some_iff.1 hx
        obtain ⟨hi', hget'⟩ := List.getElem?_eq_some_iff.1 hx'
        exact ⟨rfl, (List.Nodup.getElem_inj_iff hxs).1 (hget.trans hget'.symm)⟩
      | succ s' => exact absurd (List.mem_of_getElem? hx) (hlater hx')
    | succ s =>
      cases s' with
      | zero => exact absurd (List.mem_of_getElem? hx') (hlater hx)
      | succ s' =>
        obtain ⟨rfl, rfl⟩ := ih hxss hx hx'
        exact ⟨rfl, rfl⟩

end

namespace Tree

variable {α : Type} {t : Tree α} {v w c : Nat}

lemma mem_children_iff_child? : c ∈ t.children v ↔ ∃ s i, t.child? v s i = some c :=
  mem_flatten_iff_exists_place

/-- The node to which a path leads from `v`, every step being a slot and a place in it. -/
def follow (t : Tree α) (v : Nat) (path : List (Nat × Nat)) : Option Nat :=
  path.foldlM (fun v e => t.child? v e.1 e.2) v

lemma follow_append_singleton_eq_some {path : List (Nat × Nat)} {e : Nat × Nat} :
    t.follow v (path ++ [e]) = some c ↔
      ∃ w, t.follow v path = some w ∧ t.child? w e.1 e.2 = some c := by
  rw [follow, List.foldlM_append, Option.bind_eq_bind, Option.bind_eq_some_iff]
  simp [follow]

/-- One path leads from the root to a node. -/
theorem existsUnique_path (h : v < t.size) : ∃! path, t.follow root path = some v := by
  induction v using Nat.strong_induction_on with
  | _ v ih =>
    by_cases hroot : v = root
    · refine ⟨[], by rw [hroot]; rfl, fun path hpath => ?_⟩
      -- the root is no child, so no step leads there
      cases path using List.reverseRecOn with
      | nil => rfl
      | append_singleton path e =>
        obtain ⟨w, -, hw⟩ := follow_append_singleton_eq_some.1 hpath
        have hlt := t.lt_of_mem_children (mem_children_iff_child?.2 ⟨_, _, hw⟩)
        rw [hroot] at hlt
        exact absurd hlt (Nat.not_lt_zero w)
    · obtain ⟨p, hp⟩ := exists_parent h hroot
      obtain ⟨s, i, hstep⟩ := mem_children_iff_child?.1 hp
      obtain ⟨above, habove, hunique⟩ :=
        ih p (t.lt_of_mem_children hp) (t.lt_size_of_mem_children hp)
      refine ⟨above ++ [(s, i)], follow_append_singleton_eq_some.2 ⟨p, habove, hstep⟩,
        fun path hpath => ?_⟩
      cases path using List.reverseRecOn with
      | nil => exact absurd (Option.some.inj hpath).symm hroot
      | append_singleton path e =>
        obtain ⟨w, hw, hlast⟩ := follow_append_singleton_eq_some.1 hpath
        obtain rfl := parent_unique hp (mem_children_iff_child?.2 ⟨_, _, hlast⟩)
        obtain ⟨hs, hi⟩ := place_unique (t.nodup_children p) hlast hstep
        rw [hunique path hw, ← hs, ← hi]

end Tree

end TreeGrammar
