/-
# The library at hand merges key by key

What a library is relied on for holds of the library at hand as far as documents are plain
(`plain_keyByKey`).  In these each key is a single name: laying one goes field by field
(`layDocument_eq`), and reading the names of all sources together as paths once more changes
nothing (`layDocument_empty`).
-/
import TreeGrammar.Proofs.Settings.KeyByKey
import TreeGrammar.Proofs.Settings.Laying
import TreeGrammar.Settings.Merging

namespace TreeGrammar.Settings

/-- The path to a setting. -/
def Field.path (f : Field) : List Step := [.field f.sec.name, .field f.name]

lemma Field.readPath?_key (f : Field) : readPath? f.key = some f.path := by
  cases f <;> decide +kernel

lemma Field.path_injective : Function.Injective Field.path := by
  intro f g h
  cases f <;> cases g <;> first | rfl | exact absurd h (by decide)

lemma Field.lowercase_name (f : Field) : lowercase f.name = f.name := by
  cases f <;> decide +kernel

lemma Field.isSingle_name (f : Field) : IsSingle f.name := by
  cases f <;> decide +kernel

lemma Section.lowercase_name (sec : Section) : lowercase sec.name = sec.name := by
  cases sec <;> decide +kernel

lemma Section.isSingle_name (sec : Section) : IsSingle sec.name := by
  cases sec <;> decide +kernel

open Value

/-! ### Documents that are known -/

namespace Value

mutual

/-- Whether a value is known to be another one.  Nothing is known of fractional numbers and of
arrays. -/
def isKnown : Value → Value → Bool
  | bool b, bool b' => b == b'
  | int n, int n' => n == n'
  | str s, str s' => s == s'
  | table fs, table fs' => areKnown fs fs'
  | _, _ => false

/-- Whether fields are known to be other ones. -/
def areKnown : List (String × Value) → List (String × Value) → Bool
  | [], [] => true
  | (n, v) :: fs, (n', v') :: fs' => n == n' && isKnown v v' && areKnown fs fs'
  | _, _ => false

end

mutual

lemma eq_of_isKnown {v w : Value} (h : isKnown v w = true) : v = w := by
  cases v with
  | bool b =>
    cases w with
    | bool b' => rw [beq_iff_eq.1 h]
    | _ => cases h
  | int n =>
    cases w with
    | int n' => rw [beq_iff_eq.1 h]
    | _ => cases h
  | str s =>
    cases w with
    | str s' => rw [beq_iff_eq.1 h]
    | _ => cases h
  | table fs =>
    cases w with
    | table fs' => rw [eq_of_areKnown h]
    | _ => cases h
  | _ => cases w <;> cases h

lemma eq_of_areKnown {fs gs : List (String × Value)} (h : areKnown fs gs = true) : fs = gs := by
  match fs, gs with
  | [], [] => rfl
  | (n, v) :: fs, (n', v') :: gs =>
    rw [areKnown, Bool.and_eq_true, Bool.and_eq_true, beq_iff_eq] at h
    rw [h.1.1, eq_of_isKnown h.1.2, eq_of_areKnown h.2]
  | [], _ :: _ => cases h
  | _ :: _, [] => cases h

end

end Value

/-! ### Plain documents -/

/-- A plain document. -/
abbrev PlainDoc : Type := { v : Value // v.IsPlain }

namespace PlainDoc

open Classical in
/-- The document of a TOML text, if it is plain. -/
noncomputable def parse (text : String) : Option PlainDoc :=
  (Toml.read? text.toList).bind fun v => if h : v.IsTable ∧ v.IsPlain then some ⟨v, h.2⟩ else none

/-- What stands at a key. -/
def look (d : PlainDoc) (key : String) : Option PlainDoc :=
  (d.1.field? key).pmap Subtype.mk fun _ h => d.2.of_field? h

/-- The table without keys. -/
def empty : PlainDoc := ⟨table [], .empty⟩

/-- A document that is no table. -/
def leaf (v : Value) (h : ¬v.IsTable) : PlainDoc := ⟨v, .leaf h⟩

/-- The table with one field. -/
def single (key : String) (hlower : lowercase key = key) (hsingle : IsSingle key)
    (d : PlainDoc) : PlainDoc := ⟨table [(key, d.1)], .alone hlower hsingle d.2⟩

/-- The table with one setting in its section. -/
def alone (d : PlainDoc) (f : Field) : PlainDoc :=
  single f.sec.name f.sec.lowercase_name f.sec.isSingle_name
    (single f.name f.lowercase_name f.isSingle_name d)

/-- A document laid over another one. -/
def merge (lower upper : PlainDoc) : PlainDoc :=
  ⟨layOn upper.1 (some lower.1), upper.2.layOn (by simpa using lower.2)⟩

@[simp] lemma val_empty : (empty : PlainDoc).1 = table [] := rfl

@[simp] lemma val_merge (lower upper : PlainDoc) :
    (lower.merge upper).1 = layOn upper.1 (some lower.1) := rfl

lemma parse_eq_some_iff {text : String} {d : PlainDoc} :
    parse text = some d ↔ Toml.read? text.toList = some d.1 ∧ d.1.IsTable := by
  rw [parse, Option.bind_eq_some_iff]
  constructor
  · rintro ⟨v, hv, h⟩
    split_ifs at h with hplain
    cases h
    exact ⟨hv, hplain.1⟩
  · rintro ⟨hv, htable⟩
    exact ⟨d.1, hv, by rw [dif_pos ⟨htable, d.2⟩]⟩

/-- A text that is read as a plain table. -/
lemma parse_eq {text : String} {d : PlainDoc} (htable : d.1.IsTable)
    (hread : (Toml.read? text.toList).any (isKnown · d.1) = true) : parse text = some d := by
  obtain ⟨v, hv, hknown⟩ := (Option.any_eq_true _ _).1 hread
  exact parse_eq_some_iff.2 ⟨eq_of_isKnown hknown ▸ hv, htable⟩

lemma look_eq_iff {d : PlainDoc} {key : String} {o : Option PlainDoc} :
    d.look key = o ↔ d.1.field? key = o.map Subtype.val := by
  rw [← (Option.map_injective Subtype.val_injective).eq_iff, look, Option.map_pmap,
    Option.pmap_eq_map, Option.map_id']

lemma look_single {name : String} (hlower : lowercase name = name) (hsingle : IsSingle name)
    (d : PlainDoc) (key : String) :
    (single name hlower hsingle d).look key = if key = name then some d else none := by
  rw [look_eq_iff]
  change (table [(name, d.1)]).field? key = _
  rw [field?_cons]
  by_cases hkey : key = name
  · rw [if_pos hkey.symm, if_pos hkey]
    rfl
  · rw [if_neg (Ne.symm hkey), if_neg hkey]
    rfl

/-- What stands at a key after one table has been laid over another one. -/
lemma look_merge {lower upper : PlainDoc} (hupper : upper.1.IsTable) (key : String) :
    (lower.merge upper).look key =
      ((upper.look key).map fun u => (lower.look key).elim u (·.merge u)).or (lower.look key) := by
  have hu : upper.1.field? key = (upper.look key).map Subtype.val := look_eq_iff.1 rfl
  have hl : lower.1.field? key = (lower.look key).map Subtype.val := look_eq_iff.1 rfl
  rw [look_eq_iff, val_merge, upper.2.field?_layOn hupper, hu, hl]
  cases upper.look key with
  | none => rfl
  | some u =>
    cases lower.look key with
    | none => exact congrArg some u.2.layOn_none
    | some l => rfl

lemma look_merge_lower {lower upper : PlainDoc} (hupper : upper.1.IsTable) {key : String}
    (hu : upper.look key = none) : (lower.merge upper).look key = lower.look key := by
  rw [look_merge hupper, hu]
  rfl

lemma look_merge_upper {lower upper u : PlainDoc} (hupper : upper.1.IsTable) {key : String}
    (hl : lower.look key = none) (hu : upper.look key = some u) :
    (lower.merge upper).look key = some u := by
  rw [look_merge hupper, hu, hl]
  rfl

lemma look_merge_both {lower upper l u : PlainDoc} (hupper : upper.1.IsTable) {key : String}
    (hl : lower.look key = some l) (hu : upper.look key = some u) :
    (lower.merge upper).look key = some (l.merge u) := by
  rw [look_merge hupper, hu, hl]
  rfl

lemma isTable_merge {lower upper : PlainDoc} (hlower : lower.1.IsTable) (hupper : upper.1.IsTable) :
    (lower.merge upper).1.IsTable := by
  rw [val_merge, layOn_of_isTable hupper]
  exact isTable_layFields hlower

end PlainDoc

/-- What there is to know about the library at hand, as far as documents are plain. -/
noncomputable abbrev plain : Account merging where
  Doc := PlainDoc
  IsTable d := d.1.IsTable
  parse := PlainDoc.parse
  look := PlainDoc.look
  empty := PlainDoc.empty
  alone f d := d.alone f
  merge := PlainDoc.merge
  value := Subtype.val
  kind := Subtype.val
  ofKind := id
  Has b sources overrides := b = ⟨sources, overrides.map fun o => (o.1.path, o.2.1)⟩

/-! ### Reading -/

section

variable {β : Type} {struct : String} {members : List String} {name : String} {v x : Value}
  {read : Value → Except ConfigError β}

lemma readMember_of_none (hv : v.IsTable) (hx : v.field? name = none) :
    readMember struct members name v read = .ok none := by
  obtain ⟨fs, rfl⟩ := hv
  rw [readMember, hx]

lemma readMember_of_some {b : β} (hv : v.IsTable) (hx : v.field? name = some x)
    (hread : read x = .ok b) : readMember struct members name v read = .ok (some b) := by
  obtain ⟨fs, rfl⟩ := hv
  rw [readMember, hx]
  change ((read x).map some).mapError _ = _
  rw [hread]
  rfl

end

/-! ### Building -/

namespace Layers

/-- A plain document is laid field by field. -/
lemma layDocument_eq {d : Value} (h : d.IsPlain) (root : Value) :
    layDocument root d = .ok (layFields d.fields root) := by
  have hsingle := h.single
  rw [layDocument]
  rw [names] at hsingle
  generalize d.fields = fs at hsingle ⊢
  induction fs generalizing root with
  | nil => rw [layFields_nil]; rfl
  | cons f fs ih =>
    rw [List.map_cons, List.forall_mem_cons] at hsingle
    have hlay : layAt root ((readPath? f.1).getD [.field f.1]) f.2 =
        .ok (root.put (lowercase f.1) (layOn f.2 (root.field? (lowercase f.1)))) := by
      rw [hsingle.1]
      rfl
    rw [List.foldlM_cons, layFields_cons]
    change (layAt root ((readPath? f.1).getD [.field f.1]) f.2 >>= _) = _
    rw [hlay]
    exact ih _ hsingle.2

/-- A plain document is laid over another one as it is merged with it. -/
lemma layDocument_merge {root d : PlainDoc} (hd : d.1.IsTable) :
    layDocument root.1 d.1 = .ok (root.merge d).1 := by
  rw [layDocument_eq d.2, PlainDoc.val_merge, layOn_of_isTable hd]

/-- A plain table that is read as a document once more is left as it is. -/
lemma layDocument_empty {d : PlainDoc} (hd : d.1.IsTable) :
    layDocument (table []) d.1 = .ok d.1 := by
  have hnone : layOn d.1 (some (table [])) = layOn d.1 none := by
    obtain ⟨fs, hfs⟩ := hd
    rw [hfs, layOn, layOn]
    rfl
  rw [layDocument_eq d.2, ← layOn_of_isTable hd, hnone, d.2.layOn_none]

/-- Setting what the path of a setting leads to is laying a table with this setting. -/
lemma layAt_path (f : Field) (root d : PlainDoc) :
    layAt root.1 f.path d.1 = .ok (root.merge (d.alone f)).1 := by
  have hset : ∀ s : Option Value, (s.getD nil).setAt [.field f.name] d.1 =
      some (layOn (table [(f.name, d.1)]) s) := by
    intro s
    rw [setAt, layOn, layFields_cons, layFields_nil]
    -- where there is no section, the path goes on from nil, and laying from an empty table
    cases s with
    | none => rfl
    | some s => rfl
  have hmerge : layOn (table [(f.sec.name, table [(f.name, d.1)])]) (some root.1) =
      root.1.put (lowercase f.sec.name) (layOn (table [(f.name, d.1)])
        (root.1.field? (lowercase f.sec.name))) := by
    rw [layOn, layFields_cons, layFields_nil]
    rfl
  rw [Field.path, layAt, setAt, hset]
  exact congrArg Except.ok hmerge.symm

/-- What a text says is laid as it is merged. -/
lemma layDocument_readText {text : String} {ds : List PlainDoc} {root : PlainDoc}
    (h : (plain.parse text).map ([·]) = some ds) (hroot : root.1.IsTable) :
    (ds.foldl PlainDoc.merge root).1.IsTable ∧
      (do layDocument root.1 (← readText text)) = .ok (ds.foldl PlainDoc.merge root).1 := by
  obtain ⟨d, hd, rfl⟩ := Option.map_eq_some_iff.1 h
  obtain ⟨hread, htable⟩ := PlainDoc.parse_eq_some_iff.1 hd
  have htext : readText text = .ok d.1 := by rw [readText, hread]
  refine ⟨PlainDoc.isTable_merge hroot htable, ?_⟩
  rw [htext]
  exact layDocument_merge htable

/-- What a source says is laid as it is merged. -/
lemma layDocument_readSource {files : String → Option String} {source : Source}
    {ds : List PlainDoc} {root : PlainDoc} (h : plain.told files source = some ds)
    (hroot : root.1.IsTable) : (ds.foldl PlainDoc.merge root).1.IsTable ∧
      (do layDocument root.1 (← readSource files source)) =
        .ok (ds.foldl PlainDoc.merge root).1 := by
  cases source with
  | text s => exact layDocument_readText h hroot
  | file path required =>
    rw [Account.told] at h
    rw [readSource]
    cases hfile : files path with
    | some s =>
      rw [hfile] at h
      exact layDocument_readText h hroot
    | none =>
      rw [hfile] at h
      cases required with
      | true => cases h
      | false =>
        cases h
        exact ⟨hroot, rfl⟩

/-- Sources are laid in order. -/
lemma foldlM_readSource {files : String → Option String} {sources : List Source}
    {docs : List PlainDoc} (h : plain.documents files sources = some docs) {root : PlainDoc}
    (hroot : root.1.IsTable) : (docs.foldl PlainDoc.merge root).1.IsTable ∧
      sources.foldlM (fun root s => do layDocument root (← readSource files s)) root.1 =
        .ok (docs.foldl PlainDoc.merge root).1 := by
  induction sources generalizing docs root with
  | nil =>
    cases h
    exact ⟨hroot, rfl⟩
  | cons s sources ih =>
    rw [Account.documents_cons] at h
    obtain ⟨ds, hds, hrest⟩ := Option.bind_eq_some_iff.1 h
    obtain ⟨rest, hdocs, rfl⟩ := Option.map_eq_some_iff.1 hrest
    obtain ⟨htable, hlay⟩ := layDocument_readSource hds hroot
    rw [List.foldlM_cons, hlay, List.foldl_append]
    exact ih hdocs htable

/-- Overrides are laid in order. -/
lemma foldlM_layAt (overrides : List (Field × PlainDoc)) (root : PlainDoc) :
    (overrides.map fun o => (o.1.path, o.2.1)).foldlM (fun root o => layAt root o.1 o.2) root.1 =
      .ok ((overrides.map fun o => o.2.alone o.1).foldl PlainDoc.merge root).1 := by
  induction overrides generalizing root with
  | nil => rfl
  | cons o os ih =>
    rw [List.map_cons, List.foldlM_cons, layAt_path]
    exact ih (root.merge (o.2.alone o.1))

/-- Everything together is merged: sources in order, and then overrides. -/
lemma build_eq {files : String → Option String} {sources : List Source}
    (overrides : List (Field × PlainDoc)) {docs : List PlainDoc}
    (h : plain.documents files sources = some docs) :
    build files ⟨sources, overrides.map fun o => (o.1.path, o.2.1)⟩ =
      .ok ((docs ++ overrides.map fun o => o.2.alone o.1).foldl PlainDoc.merge
        PlainDoc.empty).1 := by
  have hempty : PlainDoc.empty.1.IsTable := isTable_table
  obtain ⟨htable, hbelow⟩ := foldlM_readSource h hempty
  rw [PlainDoc.val_empty] at hbelow
  calc build files ⟨sources, overrides.map fun o => (o.1.path, o.2.1)⟩
    _ = layDocument (table []) (docs.foldl PlainDoc.merge PlainDoc.empty).1 >>= fun root =>
          (overrides.map fun o => (o.1.path, o.2.1)).foldlM
            (fun root o => layAt root o.1 o.2) root := by
        rw [build, hbelow]
        rfl
    _ = _ := by
        rw [layDocument_empty htable, List.foldl_append]
        exact foldlM_layAt overrides _

/-- An override takes the place of an earlier one of the same setting. -/
lemma override_eq (sources : List Source) (overrides : List (Field × PlainDoc)) (f : Field)
    (d : PlainDoc) : override ⟨sources, overrides.map fun o => (o.1.path, o.2.1)⟩ f.key d.1 =
      .ok ⟨sources, (overrides.filter (fun o => o.1 ≠ f) ++ [(f, d)]).map
        fun o => (o.1.path, o.2.1)⟩ := by
  have hsame : ((fun o : List Step × Value => o.1 != f.path) ∘
      fun o : Field × PlainDoc => (o.1.path, o.2.1)) = fun o => decide (o.1 ≠ f) := by
    funext o
    simp only [Function.comp_apply, bne, beq_eq_decide, decide_not, Field.path_injective.eq_iff]
  rw [override, f.readPath?_key]
  simp only [List.filter_map, hsame, List.map_append]
  rfl

end Layers

/-- The library at hand does with plain documents what is relied on. -/
theorem plain_keyByKey : plain.KeyByKey where
  isTable_parse s d h := (PlainDoc.parse_eq_some_iff.1 h).2
  isTable_empty := isTable_table
  look_empty key := rfl
  look_alone f d := ⟨isTable_table, _, isTable_table,
    PlainDoc.look_single f.sec.lowercase_name f.sec.isSingle_name _,
    PlainDoc.look_single f.lowercase_name f.isSingle_name d⟩
  merge_of_not_isTable lower upper h := Subtype.ext (layOn_of_not_isTable h _)
  isTable_merge lower upper hlower hupper := PlainDoc.isTable_merge hlower hupper
  look_merge_lower lower upper _ hupper key hu := PlainDoc.look_merge_lower hupper hu
  look_merge_upper lower upper _ hupper key u hl hu := PlainDoc.look_merge_upper hupper hl hu
  look_merge_both lower upper _ hupper key l u hl hu := PlainDoc.look_merge_both hupper hl hu
  ofKind_kind d := rfl
  has_builder := rfl
  has_addSource b sources overrides source h := by
    subst h
    rfl
  has_setOverride b sources overrides f d h := by
    subst h
    exact ⟨_, Layers.override_eq sources overrides f d, rfl⟩
  build_eq files b sources overrides docs h hdocs := by
    subst h
    exact Layers.build_eq overrides hdocs
  member_of_none struct members name d read htable _ hnone :=
    readMember_of_none htable (PlainDoc.look_eq_iff.1 hnone)
  member_of_some struct members name d x read b htable _ hsome hread :=
    readMember_of_some htable (PlainDoc.look_eq_iff.1 hsome) hread

end TreeGrammar.Settings
