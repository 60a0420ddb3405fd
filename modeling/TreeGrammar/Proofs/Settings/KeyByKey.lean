/-
# Configurations that are merged key by key

What the settings rely on is that a library lays sources over one another in the order in which
they were added, tables key by key and anything else as a whole, and overrides over all of them.
An `Account` of a library says what its documents are; with `Account.KeyByKey` the library does
with them what is relied on.

Documents are typed if their sections are tables and the settings in these have values that can
be read, whatever else there is.  Laying typed documents over a table leaves in it, for each
setting, what was given last (`Account.foldl_merge`): no section is replaced as a whole.  A
table with all sections is read as the settings that it has (`Account.exists_readSettings`).
-/
import Mathlib
import TreeGrammar.Settings.Loader

namespace TreeGrammar.Settings

/-- The last answer is that for the rest of the list, or else the first one. -/
lemma getLast?_filterMap_cons {β γ : Type} (g : β → Option γ) (x : β) (xs : List β) :
    ((x :: xs).filterMap g).getLast? = (xs.filterMap g).getLast?.or (g x) := by
  rw [List.filterMap_cons]
  cases g x with
  | none => exact Option.or_none.symm
  | some y =>
    rw [List.getLast?_cons]
    cases (xs.filterMap g).getLast? with
    | none => rfl
    | some z => rfl

lemma Field.name_injective : Function.Injective Field.name := by
  intro f g h
  cases f <;> cases g <;> first | rfl | exact absurd h (by decide)

lemma Field.name_mem_members (f : Field) : f.name ∈ f.sec.members := by
  cases f <;> decide

lemma Section.name_mem_sectionNames (sec : Section) : sec.name ∈ sectionNames := by
  cases sec <;> decide

/-- What there is to know about a library: what texts say, and how this is put together. -/
structure Account (lib : Library) where
  /-- What texts say: tables of documents, and all that is no table. -/
  Doc : Type
  IsTable : Doc → Prop
  /-- The document of a TOML text. -/
  parse : String → Option Doc
  /-- What a table has at a key. -/
  look : Doc → (key : String) → Option Doc
  /-- The table without keys. -/
  empty : Doc
  /-- The table with one setting in its section. -/
  alone : Field → Doc → Doc
  /-- A document laid over another one. -/
  merge : (lower upper : Doc) → Doc
  /-- The document as the library has it in a configuration. -/
  value : Doc → lib.Value
  /-- The document as it is put at a key. -/
  kind : Doc → lib.Kind
  /-- What is put at a key, as the library has it in a configuration. -/
  ofKind : lib.Kind → lib.Value
  /-- Whether a builder has these sources and overrides, one for each setting. -/
  Has : lib.Builder → List Source → List (Field × Doc) → Prop

namespace Account

variable {lib : Library} (acc : Account lib)

/-- The documents of a source.  A missing file has none, and may not be missing if it is
required. -/
def told (files : String → Option String) : Source → Option (List acc.Doc)
  | .text s => (acc.parse s).map ([·])
  | .file path required =>
    match files path with
    | some s => (acc.parse s).map ([·])
    | none => if required then none else some []

/-- The documents of some sources, in order. -/
def documents (files : String → Option String) (sources : List Source) :
    Option (List acc.Doc) :=
  (sources.mapM (acc.told files)).map List.flatten

variable {acc} in
lemma told_file {files : String → Option String} {path text : String} {d : acc.Doc}
    (hfile : files path = some text) (hparse : acc.parse text = some d) (required : Bool) :
    acc.told files (.file path required) = some [d] := by
  simp only [told, hfile, hparse, Option.map_some]

lemma documents_cons (files : String → Option String) (s : Source) (sources : List Source) :
    acc.documents files (s :: sources) =
      (acc.told files s).bind fun ds => (acc.documents files sources).map (ds ++ ·) := by
  rw [documents, documents, List.mapM_cons]
  cases acc.told files s with
  | none => rfl
  | some ds =>
    cases sources.mapM (acc.told files) with
    | none => rfl
    | some lists => rfl

/-- The library does what is relied on. -/
structure KeyByKey : Prop where
  /-- A TOML text says a table. -/
  isTable_parse : ∀ s d, acc.parse s = some d → acc.IsTable d
  isTable_empty : acc.IsTable acc.empty
  look_empty : ∀ key, acc.look acc.empty key = none
  look_alone : ∀ f d, acc.IsTable (acc.alone f d) ∧ ∃ s, acc.IsTable s ∧
    (∀ key, acc.look (acc.alone f d) key = if key = f.sec.name then some s else none) ∧
    ∀ key, acc.look s key = if key = f.name then some d else none
  /-- What is no table takes the place of what was there. -/
  merge_of_not_isTable : ∀ lower upper, ¬ acc.IsTable upper → acc.merge lower upper = upper
  /-- Tables are merged as tables. -/
  isTable_merge : ∀ lower upper, acc.IsTable lower → acc.IsTable upper →
    acc.IsTable (acc.merge lower upper)
  /-- A key of the lower table alone is kept. -/
  look_merge_lower : ∀ lower upper, acc.IsTable lower → acc.IsTable upper → ∀ key,
    acc.look upper key = none → acc.look (acc.merge lower upper) key = acc.look lower key
  /-- A key of the upper table alone is added. -/
  look_merge_upper : ∀ lower upper, acc.IsTable lower → acc.IsTable upper → ∀ key u,
    acc.look lower key = none → acc.look upper key = some u →
      acc.look (acc.merge lower upper) key = some u
  /-- What both tables have at a key is merged in turn. -/
  look_merge_both : ∀ lower upper, acc.IsTable lower → acc.IsTable upper → ∀ key l u,
    acc.look lower key = some l → acc.look upper key = some u →
      acc.look (acc.merge lower upper) key = some (acc.merge l u)
  ofKind_kind : ∀ d, acc.ofKind (acc.kind d) = acc.value d
  has_builder : acc.Has lib.builder [] []
  /-- Sources are kept in the order in which they are added. -/
  has_addSource : ∀ b sources overrides source, acc.Has b sources overrides →
    acc.Has (lib.addSource b source) (sources ++ [source]) overrides
  /-- An override takes the place of an earlier one of the same key. -/
  has_setOverride : ∀ b sources overrides f d, acc.Has b sources overrides →
    ∃ b', lib.setOverride b f.key (acc.kind d) = .ok b' ∧
      acc.Has b' sources (overrides.filter (fun o => o.1 ≠ f) ++ [(f, d)])
  /-- Sources are merged in order, and overrides after all sources. -/
  build_eq : ∀ files b sources overrides docs, acc.Has b sources overrides →
    acc.documents files sources = some docs →
    lib.build files b = .ok (acc.value ((docs ++ overrides.map fun o =>
      acc.alone o.1 o.2).foldl acc.merge acc.empty))
  /-- A structure is read off a table: a member that is not there has no value. -/
  member_of_none : ∀ {β : Type} struct members name d (read : lib.Value → Except lib.Error β),
    acc.IsTable d → name ∈ members → acc.look d name = none →
    lib.member struct members name (acc.value d) read = .ok none
  /-- And a member that is there is read as what it is. -/
  member_of_some : ∀ {β : Type} struct members name d x (read : lib.Value → Except lib.Error β) b,
    acc.IsTable d → name ∈ members → acc.look d name = some x → read (acc.value x) = .ok b →
    lib.member struct members name (acc.value d) read = .ok (some b)

/-! ### Typed documents -/

/-- What a document has at a setting. -/
def at? (d : acc.Doc) (f : Field) : Option acc.Doc :=
  (acc.look d f.sec.name).bind fun s => acc.look s f.name

/-- A document is a value of the type of a setting: no table, and one that can be read. -/
def Fits (f : Field) (x : acc.Doc) : Prop :=
  ¬ acc.IsTable x ∧ ∃ y, f.read lib (acc.value x) = .ok y

/-- A table whose sections are tables and whose settings have values of their types, whatever else
there is. -/
structure IsTyped (d : acc.Doc) : Prop where
  isTable : acc.IsTable d
  sections : ∀ sec : Section, ∀ s, acc.look d sec.name = some s → acc.IsTable s
  fits : ∀ f x, acc.at? d f = some x → acc.Fits f x

/-- The value that a document gives for a setting, if it gives one. -/
def gives? (d : acc.Doc) (f : Field) : Option f.Val :=
  (acc.at? d f).bind fun x => (f.read lib (acc.value x)).toOption

/-- The last value that documents give for a setting. -/
def last? (docs : List acc.Doc) (f : Field) : Option f.Val :=
  (docs.filterMap fun d => acc.gives? d f).getLast?

variable {acc}

lemma Fits.exists_toOption {f : Field} {x : acc.Doc} (h : acc.Fits f x) :
    ∃ y, f.read lib (acc.value x) = .ok y ∧
      (f.read lib (acc.value x)).toOption = some y := by
  obtain ⟨y, hy⟩ := h.2
  exact ⟨y, hy, by rw [hy]; rfl⟩

lemma gives?_of_at?_eq_none {d : acc.Doc} {f : Field} (h : acc.at? d f = none) :
    acc.gives? d f = none := by
  rw [gives?, h]
  rfl

lemma last?_cons (d : acc.Doc) (docs : List acc.Doc) (f : Field) :
    acc.last? (d :: docs) f = (acc.last? docs f).or (acc.gives? d f) :=
  getLast?_filterMap_cons (acc.gives? · f) d docs

namespace IsTyped

variable {d : acc.Doc}

/-- A typed document gives what it has. -/
lemma exists_gives? (h : acc.IsTyped d) {f : Field} {x : acc.Doc} (hx : acc.at? d f = some x) :
    ∃ y, f.read lib (acc.value x) = .ok y ∧ acc.gives? d f = some y := by
  obtain ⟨y, hread, hy⟩ := (h.fits f x hx).exists_toOption
  refine ⟨y, hread, ?_⟩
  rw [gives?, hx, ← hy]
  rfl

end IsTyped

/-! ### Laying documents over a table -/

variable (h : acc.KeyByKey)

include h

lemma isTyped_empty : acc.IsTyped acc.empty where
  isTable := h.isTable_empty
  sections sec s hs := by
    rw [h.look_empty] at hs
    cases hs
  fits f x hx := by
    rw [at?, h.look_empty] at hx
    cases hx

lemma at?_empty (f : Field) : acc.at? acc.empty f = none := by
  rw [at?, h.look_empty]
  rfl

section

variable {root d : acc.Doc}

/-- A section after laying a typed document: merged where both have it. -/
lemma sections_merge (hroot : acc.IsTyped root) (hd : acc.IsTyped d) (sec : Section) :
    ∀ s, acc.look (acc.merge root d) sec.name = some s → acc.IsTable s := by
  intro s hs
  cases hu : acc.look d sec.name with
  | none =>
    rw [h.look_merge_lower root d hroot.isTable hd.isTable _ hu] at hs
    exact hroot.sections sec s hs
  | some u =>
    cases hl : acc.look root sec.name with
    | none =>
      rw [h.look_merge_upper root d hroot.isTable hd.isTable _ u hl hu] at hs
      exact Option.some.inj hs ▸ hd.sections sec u hu
    | some l =>
      rw [h.look_merge_both root d hroot.isTable hd.isTable _ l u hl hu] at hs
      exact Option.some.inj hs ▸
        h.isTable_merge l u (hroot.sections sec l hl) (hd.sections sec u hu)

/-- What is at a setting after laying a typed document: what this has there, or else what was there
before. -/
lemma at?_merge (hroot : acc.IsTyped root) (hd : acc.IsTyped d) (f : Field) :
    acc.at? (acc.merge root d) f = (acc.at? d f).or (acc.at? root f) := by
  rw [at?, at?, at?]
  cases hu : acc.look d f.sec.name with
  | none => rw [h.look_merge_lower root d hroot.isTable hd.isTable _ hu]; rfl
  | some u =>
    cases hl : acc.look root f.sec.name with
    | none =>
      rw [h.look_merge_upper root d hroot.isTable hd.isTable _ u hl hu, Option.bind_none,
        Option.or_none]
    | some l =>
      have htables := And.intro (hroot.sections _ l hl) (hd.sections _ u hu)
      rw [h.look_merge_both root d hroot.isTable hd.isTable _ l u hl hu]
      simp only [Option.bind_some]
      cases hx : acc.look u f.name with
      | none => rw [h.look_merge_lower l u htables.1 htables.2 _ hx]; rfl
      | some x =>
        -- a setting is no table, so that nothing is left of what was there
        have hfits : acc.Fits f x := hd.fits f x (by rw [at?, hu]; exact hx)
        cases hy : acc.look l f.name with
        | none => rw [h.look_merge_upper l u htables.1 htables.2 _ x hy hx]; rfl
        | some y =>
          rw [h.look_merge_both l u htables.1 htables.2 _ y x hy hx,
            h.merge_of_not_isTable y x hfits.1]
          rfl

lemma isTyped_merge (hroot : acc.IsTyped root) (hd : acc.IsTyped d) :
    acc.IsTyped (acc.merge root d) where
  isTable := h.isTable_merge root d hroot.isTable hd.isTable
  sections := sections_merge h hroot hd
  fits f x hx := by
    rw [at?_merge h hroot hd] at hx
    obtain hx | ⟨-, hx⟩ := Option.or_eq_some_iff.1 hx
    · exact hd.fits f x hx
    · exact hroot.fits f x hx

lemma gives?_merge (hroot : acc.IsTyped root) (hd : acc.IsTyped d) (f : Field) :
    acc.gives? (acc.merge root d) f = (acc.gives? d f).or (acc.gives? root f) := by
  cases hx : acc.at? d f with
  | none =>
    rw [gives?, at?_merge h hroot hd, hx, Option.none_or, gives?_of_at?_eq_none hx,
      Option.none_or, gives?]
  | some x =>
    obtain ⟨y, -, hy⟩ := hd.exists_gives? hx
    rw [hy, Option.some_or, ← hy, gives?, at?_merge h hroot hd, hx, Option.some_or, gives?, hx]

/-- Documents one after the other: of each setting the last value in any of them stays. -/
theorem foldl_merge {docs : List acc.Doc} (hdocs : ∀ d ∈ docs, acc.IsTyped d)
    (hroot : acc.IsTyped root) :
    acc.IsTyped (docs.foldl acc.merge root) ∧ ∀ f,
      acc.gives? (docs.foldl acc.merge root) f = (acc.last? docs f).or (acc.gives? root f) := by
  induction docs generalizing root with
  | nil => exact ⟨hroot, fun f => rfl⟩
  | cons d docs ih =>
    rw [List.forall_mem_cons] at hdocs
    obtain ⟨htyped, hgives⟩ := ih hdocs.2 (isTyped_merge h hroot hdocs.1)
    refine ⟨htyped, fun f => ?_⟩
    rw [List.foldl_cons, hgives, gives?_merge h hroot hdocs.1, last?_cons, Option.or_assoc]

end

/-- The table of one setting is typed and gives nothing else. -/
lemma alone_spec {f : Field} {x : acc.Doc} (hx : acc.Fits f x) :
    acc.IsTyped (acc.alone f x) ∧ ∀ g, acc.gives? (acc.alone f x) g =
      if f = g then (g.read lib (acc.value x)).toOption else none := by
  obtain ⟨htable, s, hs, hsec, hname⟩ := h.look_alone f x
  have hat : ∀ g, acc.at? (acc.alone f x) g = if f = g then some x else none := by
    intro g
    rw [at?, hsec]
    by_cases hfg : f = g
    · subst hfg
      simp [hname]
    · have hne : ¬ g.name = f.name := fun hn => hfg (Field.name_injective hn.symm)
      split_ifs
      · simp [hname, hne]
      · rfl
  refine ⟨⟨htable, fun sec d hd => ?_, fun g y hy => ?_⟩, fun g => ?_⟩
  · rw [hsec] at hd
    split_ifs at hd
    exact Option.some.inj hd ▸ hs
  · rw [hat] at hy
    split_ifs at hy with hfg
    exact hfg ▸ Option.some.inj hy ▸ hx
  · rw [gives?, hat]
    split_ifs
    · rfl
    · rfl

/-! ### Reading settings -/

section

variable {root s : acc.Doc} (hroot : acc.IsTyped root)

include hroot

/-- A setting is read as what its section has, and as the standard where it has nothing. -/
lemma fieldOr_eq {f : Field} (hs : acc.look root f.sec.name = some s) :
    fieldOr lib f (acc.value s) = .ok ((acc.gives? root f).getD (f.of standard)) := by
  have htable := hroot.sections _ s hs
  have hat : acc.at? root f = acc.look s f.name := by rw [at?, hs]; rfl
  rw [fieldOr]
  cases hx : acc.look s f.name with
  | none =>
    rw [h.member_of_none _ _ _ s _ htable f.name_mem_members hx,
      gives?_of_at?_eq_none (hat.trans hx)]
    rfl
  | some x =>
    obtain ⟨y, hread, hy⟩ := hroot.exists_gives? (hat.trans hx)
    rw [h.member_of_some _ _ _ s x _ y htable f.name_mem_members hx hread, hy]
    rfl

/-- A section that is there is read as its fields are. -/
lemma sectionOf_eq {β : Type} {sec : Section} (hs : acc.look root sec.name = some s)
    {read : lib.Value → Except lib.Error β} {b : β} (hread : read (acc.value s) = .ok b) :
    sectionOf lib sec (acc.value root) read = .ok (some b) :=
  h.member_of_some _ _ _ root s read b hroot.isTable sec.name_mem_sectionNames hs hread

/-- A table that has all sections is read as the settings in it, and as the standard for all
others. -/
theorem exists_readSettings (hall : ∀ sec : Section, ∃ s, acc.look root sec.name = some s) :
    ∃ s, readSettings lib (acc.value root) = .ok s ∧
      ∀ f, f.of s = (acc.gives? root f).getD (f.of standard) := by
  obtain ⟨sp, hsp⟩ := hall .probability
  obtain ⟨sf, hsf⟩ := hall .filter
  obtain ⟨sq, hsq⟩ := hall .patterns
  let x (f : Field) : f.Val := (acc.gives? root f).getD (f.of standard)
  have hprobability : readProbability lib (acc.value sp) = .ok (x .matching, x .fallback) := by
    rw [readProbability, fieldOr_eq h hroot (f := .matching) hsp,
      fieldOr_eq h hroot (f := .fallback) hsp]
    rfl
  have hfilter : readFilter lib (acc.value sf) = .ok (x .countLimit) :=
    fieldOr_eq h hroot (f := .countLimit) hsf
  have hpatterns : readPatterns lib (acc.value sq) =
      .ok ⟨x .window, x .minSize, x .minCount⟩ := by
    rw [readPatterns, fieldOr_eq h hroot (f := .window) hsq,
      fieldOr_eq h hroot (f := .minSize) hsq, fieldOr_eq h hroot (f := .minCount) hsq]
    rfl
  refine ⟨⟨x .matching, x .fallback, x .countLimit, ⟨x .window, x .minSize, x .minCount⟩⟩, ?_, ?_⟩
  · rw [readSettings, sectionOf_eq h hroot hsp hprobability, sectionOf_eq h hroot hsf hfilter,
      sectionOf_eq h hroot hsq hpatterns]
    rfl
  · intro f
    cases f <;> rfl

end

end Account

end TreeGrammar.Settings
