/-
# Plain documents

A document is plain if each of its tables has every name once, in lower case and not to be taken
apart.  Laying plain documents over one another gives plain documents (`IsPlain.layOn`), in which
each name has what the upper one says, laid over what the lower one says (`field?_layFields`).  A
plain document that is laid over nothing is left as it is (`IsPlain.layOn_none`).
-/
import Mathlib
import TreeGrammar.Settings.Value

namespace TreeGrammar.Settings

/-- Whether a key is not taken apart when it is read as a path. -/
def IsSingle (key : String) : Prop := (readPath? key).getD [.field key] = [.field key]

instance (key : String) : Decidable (IsSingle key) := inferInstanceAs (Decidable (_ = _))

namespace Value

variable {v x old : Value} {n k : String} {fs : List (String × Value)}

/-- Whether a value is a table. -/
def IsTable (v : Value) : Prop := ∃ fs, v = table fs

@[simp] lemma isTable_table : (table fs).IsTable := ⟨fs, rfl⟩

instance : (v : Value) → Decidable v.IsTable
  | table fs => isTrue ⟨fs, rfl⟩
  | nil | bool _ | int _ | float _ | str _ | array _ => isFalse fun h => by cases h; contradiction

/-- The names of the fields of a table. -/
def names (v : Value) : List String := v.fields.map (·.1)

@[simp] lemma names_table : (table fs).names = fs.map (·.1) := rfl

/-! ### Setting a field -/

@[simp] lemma isTable_put : (v.put n x).IsTable := by
  rw [put]
  split <;> exact isTable_table

lemma any_fields_iff : (v.fields.any fun f => f.1 == n) = true ↔ n ∈ v.names := by
  simp [names, List.any_eq_true]

lemma put_of_notMem (h : n ∉ v.names) : v.put n x = table (v.fields ++ [(n, x)]) := by
  rw [put, if_neg (any_fields_iff.not.2 h)]

lemma field?_cons {f : String × Value} :
    (table (f :: fs)).field? n = if f.1 = n then some f.2 else (table fs).field? n := by
  by_cases hn : f.1 = n <;> simp [field?, fields, hn]

lemma field?_eq_none_iff : v.field? n = none ↔ n ∉ v.names := by
  simp only [field?, names, Option.map_eq_none_iff, List.find?_eq_none, beq_iff_eq, List.mem_map,
    not_exists, not_and]

lemma exists_mem_of_field? (h : v.field? n = some x) : ∃ f ∈ v.fields, f.2 = x := by
  obtain ⟨f, hf, rfl⟩ := Option.map_eq_some_iff.1 h
  exact ⟨f, List.mem_of_find?_eq_some hf, rfl⟩

lemma names_put : (v.put n x).names = if n ∈ v.names then v.names else v.names ++ [n] := by
  rw [put]
  simp only [any_fields_iff]
  split_ifs with hmem
  · rw [names_table, List.map_map, names]
    refine List.map_congr_left fun f _ => ?_
    rw [Function.comp_apply]
    split_ifs with hf
    · exact (beq_iff_eq.1 hf).symm
    · rfl
  · rw [names_table, List.map_append, names]
    rfl

lemma mem_names_put : k ∈ (v.put n x).names ↔ k ∈ v.names ∨ k = n := by
  rw [names_put]
  split_ifs with hmem
  · exact ⟨.inl, fun hk => hk.elim id fun hk => hk ▸ hmem⟩
  · rw [List.mem_append, List.mem_singleton]

/-- A field that has been set is found, and all others are found as before. -/
lemma field?_put : (v.put k x).field? n = if k = n then some x else v.field? n := by
  rw [put]
  simp only [any_fields_iff]
  split
  case isTrue hmem =>
    -- replacing a field does not change at which name it stands
    have hname : ((fun f : String × Value => f.1 == n) ∘ fun f => if f.1 == k then (k, x) else f) =
        fun f => f.1 == n := by
      funext f
      rw [Function.comp_apply]
      split_ifs with hf
      · rw [← beq_iff_eq.1 hf]
      · rfl
    rw [field?, fields, List.find?_map, hname, Option.map_map, field?]
    cases hfind : v.fields.find? fun f => f.1 == n with
    | none =>
      have hne : ¬k = n := by
        rintro rfl
        exact field?_eq_none_iff.1 (by rw [field?, hfind, Option.map_none]) hmem
      rw [if_neg hne, Option.map_none, Option.map_none]
    | some f =>
      have hf : f.1 = n := by simpa using List.find?_some hfind
      subst hf
      by_cases hk : k = f.1
      · simp [hk]
      · simp [hk, Ne.symm hk]
  case isFalse hmem =>
    rw [field?, fields, List.find?_append, Option.map_or, ← field?]
    by_cases heq : k = n
    · rw [← heq, field?_eq_none_iff.2 hmem]
      simp
    · simp [heq]

/-! ### Plain documents -/

/-- A document whose tables have every name once, in lower case and not to be taken apart. -/
inductive IsPlain : Value → Prop
  | intro {v : Value} (nodup : v.names.Nodup) (lower : ∀ n ∈ v.names, lowercase n = n)
      (single : ∀ n ∈ v.names, IsSingle n) (members : ∀ f ∈ v.fields, IsPlain f.2) : IsPlain v

lemma IsPlain.nodup (h : v.IsPlain) : v.names.Nodup := by cases h; assumption

lemma IsPlain.lower (h : v.IsPlain) : ∀ n ∈ v.names, lowercase n = n := by cases h; assumption

lemma IsPlain.single (h : v.IsPlain) : ∀ n ∈ v.names, IsSingle n := by cases h; assumption

lemma IsPlain.members (h : v.IsPlain) : ∀ f ∈ v.fields, f.2.IsPlain := by cases h; assumption

lemma isPlain_of_fields_eq_nil (h : v.fields = []) : v.IsPlain :=
  .intro (by simp [names, h]) (by simp [names, h]) (by simp [names, h]) (by simp [h])

lemma IsPlain.empty : (table []).IsPlain := isPlain_of_fields_eq_nil rfl

/-- What is no table is plain. -/
lemma IsPlain.leaf (h : ¬v.IsTable) : v.IsPlain := by
  cases v with
  | table fs => exact absurd isTable_table h
  | _ => exact isPlain_of_fields_eq_nil rfl

/-- The table with one field. -/
lemma IsPlain.alone (hlower : lowercase n = n) (hsingle : IsSingle n) (hx : x.IsPlain) :
    (table [(n, x)]).IsPlain :=
  .intro (by simp) (by simpa using hlower) (by simpa using hsingle) (by simpa [fields] using hx)

lemma IsPlain.of_field? (h : v.IsPlain) (hx : v.field? n = some x) : x.IsPlain := by
  obtain ⟨f, hf, rfl⟩ := exists_mem_of_field? hx
  exact h.members f hf

lemma IsPlain.put (h : v.IsPlain) (hlower : lowercase n = n) (hsingle : IsSingle n)
    (hx : x.IsPlain) : (v.put n x).IsPlain := by
  refine .intro ?_ (fun k hk => ?_) (fun k hk => ?_) fun f hf => ?_
  · rw [names_put]
    split_ifs with hmem
    · exact h.nodup
    · exact List.concat_eq_append ▸ h.nodup.concat hmem
  · obtain hk | rfl := mem_names_put.1 hk
    · exact h.lower k hk
    · exact hlower
  · obtain hk | rfl := mem_names_put.1 hk
    · exact h.single k hk
    · exact hsingle
  · rw [Value.put] at hf
    split_ifs at hf
    · obtain ⟨g, hg, rfl⟩ := List.mem_map.1 hf
      split_ifs
      · exact hx
      · exact h.members g hg
    · obtain hf | hf := List.mem_append.1 hf
      · exact h.members f hf
      · rw [List.mem_singleton.1 hf]
        exact hx

/-! ### Laying plain documents -/

lemma layFields_nil : layFields [] old = old := by rw [layFields]

lemma layFields_cons {f : String × Value} : layFields (f :: fs) old =
    layFields fs (old.put (lowercase f.1) (layOn f.2 (old.field? (lowercase f.1)))) := by
  rw [layFields]

lemma layOn_of_not_isTable (h : ¬v.IsTable) (old : Option Value) : layOn v old = v := by
  cases v with
  | table fs => exact absurd isTable_table h
  | _ => rw [layOn]; simp

lemma layOn_of_isTable (h : v.IsTable) (old : Value) :
    layOn v (some old) = layFields v.fields old := by
  obtain ⟨fs, rfl⟩ := h
  rw [layOn]
  rfl

lemma isTable_layFields (hold : old.IsTable) : (layFields fs old).IsTable := by
  induction fs generalizing old with
  | nil => rwa [layFields_nil]
  | cons f fs ih =>
    rw [layFields_cons]
    exact ih isTable_put

/-- What is found at a name after laying: what the upper table has there, laid over what was there
before, or this alone. -/
lemma field?_layFields (hnodup : (table fs).names.Nodup)
    (hlower : ∀ n ∈ (table fs).names, lowercase n = n) : (layFields fs old).field? n =
      (((table fs).field? n).map fun x => layOn x (old.field? n)).or (old.field? n) := by
  induction fs generalizing old with
  | nil => rw [layFields_nil]; rfl
  | cons f fs ih =>
    rw [names_table, List.map_cons, List.nodup_cons] at hnodup
    rw [names_table, List.map_cons, List.forall_mem_cons] at hlower
    rw [layFields_cons, hlower.1, ih hnodup.2 hlower.2, field?_put, field?_cons]
    split_ifs with hn
    · -- the name stands in the upper table once
      subst hn
      have hnone : (table fs).field? f.1 = none := field?_eq_none_iff.2 hnodup.1
      rw [hnone]
      rfl
    · rfl

lemma IsPlain.field?_layOn (h : v.IsPlain) (htable : v.IsTable) : (layOn v (some old)).field? n =
    ((v.field? n).map fun x => layOn x (old.field? n)).or (old.field? n) := by
  rw [layOn_of_isTable htable]
  exact field?_layFields h.nodup h.lower

/-- Fields of other names come behind those that are there, if each is left as it is. -/
lemma layFields_of_disjoint {gs : List (String × Value)} (hnodup : (table (gs ++ fs)).names.Nodup)
    (hlower : ∀ n ∈ (table fs).names, lowercase n = n)
    (hmembers : ∀ f ∈ fs, layOn f.2 none = f.2) :
    layFields fs (table gs) = table (gs ++ fs) := by
  induction fs generalizing gs with
  | nil => rw [layFields_nil, List.append_nil]
  | cons f fs ih =>
    rw [names_table, List.map_cons, List.forall_mem_cons] at hlower
    rw [List.forall_mem_cons] at hmembers
    have hnew : f.1 ∉ (table gs).names := by
      rw [names_table, List.map_append, List.map_cons, List.nodup_append] at hnodup
      exact fun hf => hnodup.2.2 f.1 hf f.1 List.mem_cons_self rfl
    rw [layFields_cons, hlower.1, field?_eq_none_iff.2 hnew, put_of_notMem hnew, hmembers.1]
    have hrest := ih (List.append_cons gs f fs ▸ hnodup) hlower.2 hmembers.2
    rwa [← List.append_cons] at hrest

/-- A plain document over nothing is left as it is. -/
lemma IsPlain.layOn_none (h : v.IsPlain) : layOn v none = v := by
  induction h with
  | @intro v hnodup hlower _ _ ih =>
    cases v with
    | table fs =>
      rw [layOn]
      change layFields fs (table []) = table ([] ++ fs)
      exact layFields_of_disjoint hnodup hlower ih
    | _ => rw [layOn]; simp

/-- Fields are laid over a plain document one after the other, each over what is there. -/
lemma isPlain_layFields (hlower : ∀ n ∈ (table fs).names, lowercase n = n)
    (hsingle : ∀ n ∈ (table fs).names, IsSingle n)
    (hmembers : ∀ f ∈ fs, ∀ old : Option Value, (∀ o ∈ old, o.IsPlain) → (layOn f.2 old).IsPlain)
    (hold : old.IsPlain) : (layFields fs old).IsPlain := by
  induction fs generalizing old with
  | nil => rwa [layFields_nil]
  | cons f fs ih =>
    rw [names_table, List.map_cons, List.forall_mem_cons] at hlower hsingle
    rw [List.forall_mem_cons] at hmembers
    rw [layFields_cons, hlower.1]
    refine ih hlower.2 hsingle.2 hmembers.2 (hold.put hlower.1 hsingle.1 (hmembers.1 _ ?_))
    exact fun y hy => hold.of_field? hy

/-- A plain document over a plain one gives a plain one. -/
lemma IsPlain.layOn (h : v.IsPlain) {old : Option Value} (hold : ∀ o ∈ old, o.IsPlain) :
    (Value.layOn v old).IsPlain := by
  induction h generalizing old with
  | @intro v hnodup hlower hsingle hmembers ih =>
    cases v with
    | table fs =>
      rw [Value.layOn]
      refine isPlain_layFields hlower hsingle (fun f hf old => ih f hf) ?_
      cases old with
      | none => exact .empty
      | some o => exact hold o rfl
    | _ =>
      rw [layOn_of_not_isTable (by rintro ⟨fs, hfs⟩; cases hfs)]
      exact .intro hnodup hlower hsingle hmembers

end Value

end TreeGrammar.Settings
