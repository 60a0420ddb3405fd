/-
# What a table of scores remembers

Scores are written to a blank table by calls of `ScoreTable.write` that may fail.  A call either
fails and leaves the table as it is, or it writes to a cell that was blank (`Holds.write_cases`).
So a table holds what the accepted calls have written, and these are for different nodes
(`holds_written`); all that a table can be asked is answered from the accepted calls.

The number of cells is arbitrary.  Where it exceeds the number of words of 32 bits, and nodes are
given as such words, the cells beyond stay blank, so that the list of all scores can be given in
words as well (`map_toNat_listing_of_lt`).
-/
import Mathlib
import TreeGrammar.Score.Table

namespace TreeGrammar.ScoreTable

variable {W : Type}

/-! ### Cells -/

section

variable {t : ScoreTable W} {v : Nat} {x : W}

lemma get?_eq_some_iff : t.get? v = some x ↔ t.cells[v]? = some (some x) :=
  Option.join_eq_some_iff

lemma get?_blank (n v : Nat) : (blank n : ScoreTable W).get? v = none := by
  rw [get?, blank, Array.getElem?_replicate]
  split <;> rfl

lemma mem_toList_iff : (v, x) ∈ t.toList ↔ t.get? v = some x := by
  rw [get?_eq_some_iff, ← Array.getElem?_toList, ← List.mk_mem_zipIdx_iff_getElem?, toList,
    List.mem_filterMap]
  constructor
  · rintro ⟨⟨cell, w⟩, hmem, hcell⟩
    obtain ⟨y, rfl, hy⟩ := Option.map_eq_some_iff.1 hcell
    obtain ⟨rfl, rfl⟩ := Prod.mk.inj hy
    exact hmem
  · exact fun hmem => ⟨_, hmem, rfl⟩

lemma pairwise_toList (t : ScoreTable W) : t.toList.Pairwise fun a b => a.1 < b.1 := by
  have hplaces : t.cells.toList.zipIdx.Pairwise fun a b => a.2 < b.2 := by
    rw [← List.pairwise_map, List.zipIdx_map_snd]
    exact List.pairwise_lt_range'
  rw [toList, List.pairwise_filterMap]
  refine hplaces.imp fun hlt e he e' he' => ?_
  obtain ⟨_, -, rfl⟩ := Option.map_eq_some_iff.1 he
  obtain ⟨_, -, rfl⟩ := Option.map_eq_some_iff.1 he'
  exact hlt

lemma length_toList (t : ScoreTable W) : t.toList.length = t.size := by
  have hcells : t.cells.toList.zipIdx.map Prod.fst = t.cells.toList := List.zipIdx_map_fst 0 _
  rw [size, ← Array.countP_toList, ← hcells, List.countP_map, toList,
    List.length_filterMap_eq_countP]
  exact List.countP_congr fun e _ => by rw [Option.isSome_map]; rfl

lemma isComplete_iff (t : ScoreTable W) : t.isComplete = true ↔ t.size = t.cells.size := by
  rw [isComplete, size, Array.countP_eq_size, Array.all_eq_true_iff_forall_mem]

/-- Words of 32 bits can stand for the nodes if they can stand for those with a score. -/
lemma map_toNat_listing_of_lt (h : ∀ v x, t.get? v = some x → v < UInt32.size) :
    t.listing.map (fun e => (e.1.toNat, e.2)) = t.toList := by
  rw [listing, toList, List.map_filterMap]
  refine List.filterMap_congr fun ⟨cell, v⟩ hmem => ?_
  cases cell with
  | none => rfl
  | some x =>
    have hv : v < UInt32.size := by
      refine h v x ?_
      rwa [get?_eq_some_iff, ← Array.getElem?_toList, ← List.mk_mem_zipIdx_iff_getElem?]
    show some (((UInt32.ofNat v).toNat, x)) = some (v, x)
    rw [UInt32.toNat_ofNat_of_lt' hv]

/-! ### One call -/

lemma insert_of_size_le (h : t.cells.size ≤ v) :
    t.insert v x = .error (.foreign v t.cells.size) := by
  rw [insert, dif_neg (Nat.not_lt_of_le h)]

lemma insert_of_get?_eq_some {y : W} (h : t.get? v = some y) :
    t.insert v x = .error (.duplicate v) := by
  obtain ⟨hv, hcell⟩ := Array.getElem?_eq_some_iff.1 (get?_eq_some_iff.1 h)
  rw [insert, dif_pos hv, hcell, if_pos Option.isSome_some]

/-- A blank cell is written, and no other. -/
lemma insert_of_get?_eq_none (hv : v < t.cells.size) (h : t.get? v = none) :
    ∃ t' : ScoreTable W, t.insert v x = .ok t' ∧ t'.cells.size = t.cells.size ∧
      ∀ w, t'.get? w = if w = v then some x else t.get? w := by
  have hcell : t.cells[v] = none := by
    rwa [get?, Array.getElem?_eq_getElem hv] at h
  refine ⟨⟨t.cells.set v (some x)⟩, ?_, Array.size_set hv, fun w => ?_⟩
  · rw [insert, dif_pos hv, if_neg (by rw [hcell]; exact Bool.false_ne_true)]
  · rw [get?, Array.getElem?_set]
    by_cases hw : w = v
    · rw [if_pos hw.symm, if_pos hw]
      rfl
    · rw [if_neg (Ne.symm hw), if_neg hw]
      rfl

lemma outcome_get_bind (f : ScoreTable W → Filling W Unit) (t : ScoreTable W) :
    (get >>= f).outcome t = (f t).outcome t := rfl

/-- How a call ends that writes to `t`, from what `insert` answers. -/
def settled (t : ScoreTable W) :
    Except TableError (ScoreTable W) → Except TableError Unit × ScoreTable W
  | .ok t' => (.ok (), t')
  | .error e => (.error e, t)

/-- Writing in place does what `insert` does, and keeps the table where `insert` has no answer. -/
lemma outcome_write (t : ScoreTable W) (v : Nat) (x : W) :
    (write v x).outcome t = t.settled (t.insert v x) := by
  rw [write, outcome_get_bind, insert]
  by_cases hv : v < t.cells.size
  · have hplace : t.cells[v]? = some t.cells[v] := Array.getElem?_eq_getElem hv
    rw [dif_pos hv, hplace]
    cases hcell : t.cells[v] with
    | none =>
      have hset : t.cells.setIfInBounds v (some x) = t.cells.set v (some x) := dif_pos hv
      rw [Option.isSome_none, if_neg Bool.false_ne_true, ← hset]
      rfl
    | some y => rfl
  · rw [dif_neg hv, Array.getElem?_eq_none (Nat.le_of_not_lt hv)]
    rfl

end

/-! ### What a table holds -/

lemma lookup_eq_some_iff_of_nodup {kept : List (Nat × W)} {v : Nat} {x : W}
    (h : (kept.map (·.1)).Nodup) : kept.lookup v = some x ↔ (v, x) ∈ kept := by
  induction kept with
  | nil => simp
  | cons e kept ih =>
    obtain ⟨w, y⟩ := e
    obtain ⟨hw, hnodup⟩ := List.nodup_cons.1 h
    rw [List.lookup_cons, List.mem_cons, Prod.mk.injEq]
    rcases eq_or_ne v w with rfl | hv
    · -- the entry in front is the only one for `v`
      have hrest : (v, x) ∉ kept := fun hmem => hw (List.mem_map.2 ⟨_, hmem, rfl⟩)
      rw [beq_self_eq_true, Option.some.injEq, iff_false_intro hrest, or_false, eq_comm]
      exact (and_iff_right rfl).symm
    · rw [beq_false_of_ne hv, ih hnodup]
      exact (or_iff_right fun h => hv h.1).symm

/-- `t` has `n` cells and holds the scores that are kept in a list, one at most for each node. -/
structure Holds (n : Nat) (kept : List (Nat × W)) (t : ScoreTable W) : Prop where
  size_cells : t.cells.size = n
  nodup : (kept.map (·.1)).Nodup
  get?_eq : ∀ v, t.get? v = kept.lookup v

namespace Holds

variable {n : Nat} {kept : List (Nat × W)} {t : ScoreTable W}

lemma blank (n : Nat) : Holds n [] (.blank n : ScoreTable W) where
  size_cells := Array.size_replicate
  nodup := List.nodup_nil
  get?_eq v := get?_blank n v

lemma get?_eq_some_iff (h : Holds n kept t) {v : Nat} {x : W} :
    t.get? v = some x ↔ (v, x) ∈ kept := by
  rw [h.get?_eq, lookup_eq_some_iff_of_nodup h.nodup]

lemma get?_eq_none_iff (h : Holds n kept t) {v : Nat} :
    t.get? v = none ↔ v ∉ kept.map (·.1) := by
  rw [Option.eq_none_iff_forall_ne_some, List.mem_map]
  simp only [ne_eq, h.get?_eq_some_iff]
  exact ⟨fun hv ⟨e, he, hev⟩ => hv e.2 (hev ▸ he), fun hv x hx => hv ⟨_, hx, rfl⟩⟩

/-- One more score is held for a node that has none yet. -/
lemma concat {t' : ScoreTable W} {v : Nat} {x : W} (h : Holds n kept t)
    (hnew : v ∉ kept.map (·.1)) (hsize : t'.cells.size = t.cells.size)
    (hget : ∀ w, t'.get? w = if w = v then some x else t.get? w) :
    Holds n (kept ++ [(v, x)]) t' where
  size_cells := hsize.trans h.size_cells
  nodup := by
    rw [List.map_append]
    exact List.concat_eq_append ▸ h.nodup.concat hnew
  get?_eq w := by
    rw [hget, List.lookup_append, List.lookup_cons, ← h.get?_eq]
    rcases eq_or_ne w v with rfl | hw
    · rw [if_pos rfl, h.get?_eq_none_iff.2 hnew, beq_self_eq_true]
      rfl
    · rw [if_neg hw, beq_false_of_ne hw, List.lookup_nil, Option.or_none]

/-- A call fails and changes nothing, or it fills a blank cell. -/
theorem write_cases (h : Holds n kept t) (v : Nat) (x : W) :
    n ≤ v ∧ (write v x).outcome t = (.error (.foreign v n), t) ∨
    v < n ∧ v ∈ kept.map (·.1) ∧ (write v x).outcome t = (.error (.duplicate v), t) ∨
    v < n ∧ v ∉ kept.map (·.1) ∧
      ∃ t', (write v x).outcome t = (.ok (), t') ∧ Holds n (kept ++ [(v, x)]) t' := by
  obtain rfl := h.size_cells
  rcases Nat.lt_or_ge v t.cells.size with hv | hv
  case inr => exact .inl ⟨hv, by rw [outcome_write, insert_of_size_le hv, settled]⟩
  case inl =>
    cases hget : t.get? v with
    | some y =>
      have hmem : v ∈ kept.map (·.1) := List.mem_map.2 ⟨_, h.get?_eq_some_iff.1 hget, rfl⟩
      exact .inr (.inl ⟨hv, hmem, by rw [outcome_write, insert_of_get?_eq_some hget, settled]⟩)
    | none =>
      have hnew : v ∉ kept.map (·.1) := h.get?_eq_none_iff.1 hget
      obtain ⟨t', hinsert, hsize, hget'⟩ := insert_of_get?_eq_none hv hget (x := x)
      exact .inr (.inr ⟨hv, hnew, t', by rw [outcome_write, hinsert, settled],
        h.concat hnew hsize hget'⟩)

lemma toList_perm (h : Holds n kept t) : t.toList.Perm kept := by
  have hnodup : t.toList.Nodup := t.pairwise_toList.imp fun hlt heq => by
    rw [heq] at hlt
    exact Nat.lt_irrefl _ hlt
  rw [List.perm_ext_iff_of_nodup hnodup (.of_map _ h.nodup)]
  intro e
  rw [mem_toList_iff, h.get?_eq_some_iff]

lemma size_eq (h : Holds n kept t) : t.size = kept.length := by
  rw [← length_toList, h.toList_perm.length_eq]

lemma isEmpty_iff (h : Holds n kept t) : t.isEmpty = true ↔ kept = [] := by
  rw [isEmpty, beq_iff_eq, h.size_eq, List.length_eq_zero_iff]

lemma isComplete_iff (h : Holds n kept t) : t.isComplete = true ↔ t.size = n := by
  rw [ScoreTable.isComplete_iff, h.size_cells]

lemma require_eq (h : Holds n kept t) (v : Nat) :
    t.require v = (kept.lookup v).elim (.error (.missing v)) .ok := by
  rw [require, h.get?_eq]
  cases kept.lookup v with
  | none => rfl
  | some x => rfl

end Holds

/-! ### Runs -/

/-- Makes one call after the other, also after those that fail. -/
def writeAll (calls : List (Nat × W)) : StateM (ScoreTable W) (List (Except TableError Unit)) :=
  calls.mapM fun c => ExceptT.run (write c.1 c.2)

/-- The answers to calls on a blank table with `n` cells. -/
def answers (n : Nat) (calls : List (Nat × W)) : List (Except TableError Unit) :=
  (Id.run (StateT.run (writeAll calls) (.blank n))).1

/-- What calls on a blank table with `n` cells leave. -/
def written (n : Nat) (calls : List (Nat × W)) : ScoreTable W :=
  (Id.run (StateT.run (writeAll calls) (.blank n))).2

/-- The calls that are answered without an error. -/
def accepted (n : Nat) (calls : List (Nat × W)) : List (Nat × W) :=
  ((calls.zip (answers n calls)).filter fun e => e.2.isOk).map (·.1)

/-- A call for `v` was accepted before the call in place `i`. -/
def AcceptedBefore (n : Nat) (calls : List (Nat × W)) (i v : Nat) : Prop :=
  ∃ j < i, ∃ x, calls[j]? = some (v, x) ∧ (answers n calls)[j]? = some (.ok ())

section

variable (n : Nat) (calls : List (Nat × W)) {i v : Nat} {x : W}

lemma run_writeAll_append (later : List (Nat × W)) (t : ScoreTable W) :
    Id.run (StateT.run (writeAll (calls ++ later)) t) =
      let first := Id.run (StateT.run (writeAll calls) t)
      let second := Id.run (StateT.run (writeAll later) first.2)
      (first.1 ++ second.1, second.2) := by
  rw [writeAll, List.mapM_append]
  rfl

lemma answers_append_singleton (c : Nat × W) :
    answers n (calls ++ [c]) =
      answers n calls ++ [((write c.1 c.2).outcome (written n calls)).1] := by
  rw [answers, run_writeAll_append]
  rfl

lemma written_append_singleton (c : Nat × W) :
    written n (calls ++ [c]) = ((write c.1 c.2).outcome (written n calls)).2 := by
  rw [written, run_writeAll_append]
  rfl

lemma length_answers : (answers n calls).length = calls.length := by
  induction calls using List.reverseRecOn with
  | nil => rfl
  | append_singleton calls c ih =>
    rw [answers_append_singleton, List.length_append, List.length_append, ih]
    rfl

lemma answers_take (i : Nat) : answers n (calls.take i) = (answers n calls).take i := by
  have hprefix : answers n (calls.take i) <+: answers n calls := by
    conv_rhs => rw [← List.take_append_drop i calls, answers, run_writeAll_append]
    exact List.prefix_append _ _
  rw [List.prefix_iff_eq_take.1 hprefix, List.take_eq_take_iff, length_answers, length_answers,
    List.length_take, Nat.min_assoc, Nat.min_self]

lemma accepted_append_singleton (c : Nat × W) :
    accepted n (calls ++ [c]) =
      accepted n calls ++
        if ((write c.1 c.2).outcome (written n calls)).1.isOk then [c] else [] := by
  rw [accepted, answers_append_singleton, List.zip_append (length_answers n calls).symm,
    List.filter_append, List.map_append]
  congr 1
  rw [List.zip_cons_cons, List.filter_cons]
  split <;> rfl

/-- After any calls the table holds what the accepted ones have written. -/
theorem holds_written : Holds n (accepted n calls) (written n calls) := by
  induction calls using List.reverseRecOn with
  | nil => exact .blank n
  | append_singleton calls c ih =>
    rw [accepted_append_singleton, written_append_singleton]
    rcases ih.write_cases c.1 c.2 with ⟨-, hc⟩ | ⟨-, -, hc⟩ | ⟨-, -, t', hc, ht'⟩
    · rw [hc]
      exact (List.append_nil _).symm ▸ ih
    · rw [hc]
      exact (List.append_nil _).symm ▸ ih
    · rw [hc]
      exact ht'

variable {n calls}

/-! ### One call of a run -/

lemma getElem?_answers {c : Nat × W} (h : calls[i]? = some c) :
    (answers n calls)[i]? = some ((write c.1 c.2).outcome (written n (calls.take i))).1 := by
  have hi : i < calls.length := (List.getElem?_eq_some_iff.1 h).1
  have hlength : (answers n (calls.take i)).length = i := by
    rw [length_answers, List.length_take_of_le (Nat.le_of_lt hi)]
  rw [← List.getElem?_take_of_lt (Nat.lt_succ_self i), ← answers_take, List.take_add_one, h,
    Option.toList_some, answers_append_singleton,
    List.getElem?_append_right (Nat.le_of_eq hlength), hlength, Nat.sub_self]
  rfl

lemma written_take_add_one {c : Nat × W} (h : calls[i]? = some c) :
    written n (calls.take (i + 1)) =
      ((write c.1 c.2).outcome (written n (calls.take i))).2 := by
  rw [List.take_add_one, h, Option.toList_some, written_append_singleton]

lemma mem_accepted_iff {c : Nat × W} :
    c ∈ accepted n calls ↔
      ∃ j : Nat, calls[j]? = some c ∧ (answers n calls)[j]? = some (.ok ()) := by
  rw [accepted, List.mem_map]
  constructor
  · rintro ⟨⟨c, a⟩, hmem, rfl⟩
    obtain ⟨hzip, hok⟩ := List.mem_filter.1 hmem
    obtain ⟨j, hj⟩ := List.mem_iff_getElem?.1 hzip
    obtain ⟨hcall, hanswer⟩ := List.getElem?_zip_eq_some.1 hj
    cases a with
    | error e => cases hok
    | ok u => exact ⟨j, hcall, hanswer⟩
  · rintro ⟨j, hcall, hanswer⟩
    have hzip : (c, .ok ()) ∈ calls.zip (answers n calls) :=
      List.mem_iff_getElem?.2 ⟨j, List.getElem?_zip_eq_some.2 ⟨hcall, hanswer⟩⟩
    exact ⟨_, List.mem_filter.2 ⟨hzip, rfl⟩, rfl⟩

lemma mem_accepted_take_iff :
    v ∈ (accepted n (calls.take i)).map (·.1) ↔ AcceptedBefore n calls i v := by
  simp only [List.mem_map, mem_accepted_iff, answers_take]
  constructor
  · rintro ⟨⟨w, x⟩, ⟨j, hcall, hanswer⟩, rfl⟩
    have hji : j < i := by
      obtain ⟨hj, -⟩ := List.getElem?_eq_some_iff.1 hcall
      exact Nat.lt_of_lt_of_le hj (List.length_take_le i calls)
    rw [List.getElem?_take_of_lt hji] at hcall hanswer
    exact ⟨j, hji, x, hcall, hanswer⟩
  · rintro ⟨j, hji, x, hcall, hanswer⟩
    rw [← List.getElem?_take_of_lt hji] at hcall hanswer
    exact ⟨(v, x), ⟨j, hcall, hanswer⟩, rfl⟩

/-- When a call is answered in which way. -/
lemma answer_iff (n : Nat) (h : calls[i]? = some (v, x)) :
    ((answers n calls)[i]? = some (.ok ()) ↔ v < n ∧ ¬ AcceptedBefore n calls i v) ∧
    ((answers n calls)[i]? = some (.error (.foreign v n)) ↔ n ≤ v) ∧
    ((answers n calls)[i]? = some (.error (.duplicate v)) ↔
      v < n ∧ AcceptedBefore n calls i v) := by
  rw [getElem?_answers h, ← mem_accepted_take_iff]
  rcases (holds_written n (calls.take i)).write_cases v x with
    ⟨hv, hc⟩ | ⟨hv, hmem, hc⟩ | ⟨hv, hnew, t', hc, -⟩
  · rw [hc]
    simp [hv, Nat.not_lt_of_le hv]
  · rw [hc]
    simp [hv, hmem]
  · rw [hc]
    simp [hv, hnew]

lemma written_take_of_error {e : TableError} (h : (answers n calls)[i]? = some (.error e)) :
    written n (calls.take (i + 1)) = written n (calls.take i) := by
  obtain ⟨hi, -⟩ := List.getElem?_eq_some_iff.1 h
  rw [length_answers] at hi
  have hcall : calls[i]? = some (calls[i].1, calls[i].2) := List.getElem?_eq_getElem hi
  rw [getElem?_answers hcall] at h
  rw [written_take_add_one hcall]
  rcases (holds_written n (calls.take i)).write_cases calls[i].1 calls[i].2 with
    ⟨-, hc⟩ | ⟨-, -, hc⟩ | ⟨-, -, t', hc, -⟩
  · rw [hc]
  · rw [hc]
  · rw [hc] at h
    cases h

lemma lt_size_of_mem_accepted {c : Nat × W} {k : Nat} (h : ∀ c ∈ calls, c.1 < k)
    (hc : c ∈ accepted n calls) : c.1 < k := by
  obtain ⟨j, hj, -⟩ := mem_accepted_iff.1 hc
  exact h c (List.mem_of_getElem? hj)

end

/-! ### Whole runs -/

/-- Calls on a blank table with `n` cells are accepted if they are the first ones for one of its
nodes; all others have no effect, and the table remembers those that were accepted. -/
structure IsWriteOnce (n : Nat) (calls : List (Nat × W)) : Prop where
  length_answers : (answers n calls).length = calls.length
  ok_iff : ∀ (i v : Nat) x, calls[i]? = some (v, x) →
    ((answers n calls)[i]? = some (.ok ()) ↔ v < n ∧ ¬ AcceptedBefore n calls i v)
  foreign_iff : ∀ (i v : Nat) x, calls[i]? = some (v, x) →
    ((answers n calls)[i]? = some (.error (.foreign v n)) ↔ n ≤ v)
  duplicate_iff : ∀ (i v : Nat) x, calls[i]? = some (v, x) →
    ((answers n calls)[i]? = some (.error (.duplicate v)) ↔
      v < n ∧ AcceptedBefore n calls i v)
  /-- A call that fails leaves the table that it has found. -/
  written_eq : ∀ (i : Nat) e, (answers n calls)[i]? = some (.error e) →
    written n (calls.take (i + 1)) = written n (calls.take i)
  get?_eq : ∀ v, (written n calls).get? v = (accepted n calls).lookup v
  require_eq : ∀ v, (written n calls).require v =
    ((accepted n calls).lookup v).elim (.error (.missing v)) .ok
  size_eq : (written n calls).size = (accepted n calls).length
  isEmpty_iff : (written n calls).isEmpty = true ↔ accepted n calls = []
  isComplete_iff : (written n calls).isComplete = true ↔ (written n calls).size = n
  toList_perm : (written n calls).toList.Perm (accepted n calls)
  toList_pairwise : (written n calls).toList.Pairwise fun a b => a.1 < b.1
  /-- If the nodes are given as words of 32 bits, they can be listed so. -/
  listing_eq : (∀ c ∈ calls, c.1 < UInt32.size) →
    (written n calls).listing.map (fun e => (e.1.toNat, e.2)) = (written n calls).toList

/-- A table of scores is written once, however many calls fail on the way. -/
theorem writeAll_isWriteOnce (n : Nat) (calls : List (Nat × W)) : IsWriteOnce n calls := by
  have hholds := holds_written n calls
  constructor
  case length_answers => exact length_answers n calls
  case ok_iff => exact fun i v x hcall => (answer_iff n hcall).1
  case foreign_iff => exact fun i v x hcall => (answer_iff n hcall).2.1
  case duplicate_iff => exact fun i v x hcall => (answer_iff n hcall).2.2
  case written_eq => exact fun i e h => written_take_of_error h
  case get?_eq => exact hholds.get?_eq
  case require_eq => exact hholds.require_eq
  case size_eq => exact hholds.size_eq
  case isEmpty_iff => exact hholds.isEmpty_iff
  case isComplete_iff => exact hholds.isComplete_iff
  case toList_perm => exact hholds.toList_perm
  case toList_pairwise => exact pairwise_toList _
  case listing_eq =>
    intro hwords
    refine map_toNat_listing_of_lt fun v x hx => ?_
    exact lt_size_of_mem_accepted hwords (hholds.get?_eq_some_iff.1 hx)

/-- A node is refused that the table has no cell for, and one that it has a score of. -/
example :
    let calls := [(1, 5), (4, 6), (1, 7), (0, 8)]
    answers 3 calls = [.ok (), .error (.foreign 4 3), .error (.duplicate 1), .ok ()] ∧
      (written 3 calls).toList = [(0, 8), (1, 5)] := by
  decide

end TreeGrammar.ScoreTable
