/-
# Every setting by itself

A loader hands on to its library what it is given: the standard settings, then files in the order
in which they were added, and one override for each setting, whatever stands between them
(`Account.exists_foldlM_add`).  If the library merges tables key by key, each setting, whatever the
other ones are, is what its last override says, or else what the files say last about it, or else
the standard.
-/
import TreeGrammar.Proofs.Settings.Plain

namespace TreeGrammar.Settings

namespace Layer

variable {Kind : Type}

/-- The source that a layer adds, unless it is an override. -/
def source? : Layer Kind → Option Source
  | .file path => some (.file path true)
  | .optionalFile path => some (.file path false)
  | .override _ _ => none

/-- The key and the value of an override. -/
def override? : Layer Kind → Option (String × Kind)
  | .file _ | .optionalFile _ => none
  | .override key k => some (key, k)

lemma eq_of_source? {l l' : Layer Kind} {s : Source} (h : l.source? = some s)
    (h' : l'.source? = some s) : l = l' := by
  cases l with
  | override key k => cases h
  | file path =>
    cases h
    cases l' with
    | file path' => cases h'; rfl
    | optionalFile path' | override key' k' => cases h'
  | optionalFile path =>
    cases h
    cases l' with
    | optionalFile path' => cases h'; rfl
    | file path' | override key' k' => cases h'

lemma eq_of_override? {l l' : Layer Kind} {o : String × Kind} (h : l.override? = some o)
    (h' : l'.override? = some o) : l = l' := by
  cases l with
  | file path | optionalFile path => cases h
  | override key k =>
    cases h
    cases l' with
    | file path' | optionalFile path' => cases h'
    | override key' k' => cases h'; rfl

end Layer

/-- Lists with the same answers have the same members, as far as an answer comes from one only. -/
lemma mem_of_filterMap_eq {β γ : Type} {g : β → Option γ}
    (hg : ∀ {x y : β} {z : γ}, g x = some z → g y = some z → x = y) {xs ys : List β}
    (h : ys.filterMap g = xs.filterMap g) {y : β} {z : γ} (hy : y ∈ ys) (hz : g y = some z) :
    y ∈ xs := by
  obtain ⟨x, hx, hxz⟩ := List.mem_filterMap.1 (h ▸ List.mem_filterMap.2 ⟨y, hy, hz⟩)
  exact hg hz hxz ▸ hx

lemma Field.key_injective : Function.Injective Field.key := by
  intro f g h
  cases f <;> cases g <;> first | rfl | exact absurd h (by decide)

/-- Settings are no more than what they say about each setting. -/
lemma eq_of_forall_of {s s' : Settings} (h : ∀ f : Field, f.of s = f.of s') : s = s' := by
  obtain ⟨matching, fallback, countLimit, ⟨window, minSize, minCount⟩⟩ := s
  have hmatching := h .matching
  have hfallback := h .fallback
  have hcountLimit := h .countLimit
  have hwindow := h .window
  have hminSize := h .minSize
  have hminCount := h .minCount
  simp_all [Field.of]

namespace Account

variable {lib : Library} (acc : Account lib)

/-! ### Layers of typed settings -/

/-- The standard text is read as the standard settings. -/
def ReadsStandard : Prop :=
  ∃ d, acc.parse defaultText = some d ∧ acc.IsTyped d ∧
    ∀ f : Field, acc.gives? d f = some (f.of standard)

/-- A file that is a typed document, an optional file that is missing, or an override of a setting
by a value of its type. -/
inductive IsTypedLayer (files : String → Option String) : Layer lib.Kind → Prop
  | file {path text : String} {d : acc.Doc} (hfile : files path = some text)
      (hparse : acc.parse text = some d) (hd : acc.IsTyped d) : IsTypedLayer files (.file path)
  | optionalFile {path text : String} {d : acc.Doc} (hfile : files path = some text)
      (hparse : acc.parse text = some d) (hd : acc.IsTyped d) :
      IsTypedLayer files (.optionalFile path)
  | missingFile {path : String} (hfile : files path = none) :
      IsTypedLayer files (.optionalFile path)
  | override (f : Field) {x : acc.Doc} (hx : acc.Fits f x) :
      IsTypedLayer files (.override f.key (acc.kind x))

/-- The value that a source gives for a setting, if it gives one. -/
def fromSource? (files : String → Option String) (f : Field) (s : Source) : Option f.Val :=
  (acc.told files s).bind fun docs => acc.last? docs f

/-- The value that an override gives for a setting, if it is one of this setting. -/
def fromOverride? (f : Field) (o : String × lib.Kind) : Option f.Val :=
  if o.1 = f.key then (f.read lib (acc.ofKind o.2)).toOption else none

/-- The last value for a setting in the files among the layers. -/
def lastFiled? (files : String → Option String) (layers : List (Layer lib.Kind)) (f : Field) :
    Option f.Val :=
  ((layers.filterMap Layer.source?).filterMap (acc.fromSource? files f)).getLast?

/-- The last value by which a setting is overridden. -/
def lastOverride? (layers : List (Layer lib.Kind)) (f : Field) : Option f.Val :=
  ((layers.filterMap Layer.override?).filterMap (acc.fromOverride? f)).getLast?

variable {acc} {files : String → Option String}

/-! ### Sources -/

/-- A source has typed documents. -/
def TellsTyped (acc : Account lib) (files : String → Option String) (s : Source) : Prop :=
  ∃ docs, acc.told files s = some docs ∧ ∀ d ∈ docs, acc.IsTyped d

lemma fromSource?_file {path text : String} {d : acc.Doc} (hfile : files path = some text)
    (hparse : acc.parse text = some d) {required : Bool} (f : Field) :
    acc.fromSource? files f (.file path required) = acc.gives? d f := by
  rw [fromSource?, told_file hfile hparse, Option.bind_some, last?_cons]
  exact Option.none_or

/-- The documents of typed sources, and what they say. -/
lemma exists_documents {sources : List Source} (h : ∀ s ∈ sources, acc.TellsTyped files s) :
    ∃ docs, acc.documents files sources = some docs ∧ (∀ d ∈ docs, acc.IsTyped d) ∧
      ∀ f, acc.last? docs f = (sources.filterMap (acc.fromSource? files f)).getLast? := by
  induction sources with
  | nil => exact ⟨[], rfl, by simp, fun _ => rfl⟩
  | cons s sources ih =>
    rw [List.forall_mem_cons] at h
    obtain ⟨ds, hds, htyped⟩ := h.1
    obtain ⟨docs, hdocs, hrest, hlast⟩ := ih h.2
    refine ⟨ds ++ docs, ?_, List.forall_mem_append.2 ⟨htyped, hrest⟩, fun f => ?_⟩
    · rw [documents_cons, hds, hdocs]
      rfl
    · rw [getLast?_filterMap_cons, ← hlast, fromSource?, hds, Option.bind_some, last?, last?, last?,
        List.filterMap_append, List.getLast?_append]

/-! ### Overrides -/

/-- What overrides, one for each setting, say about a setting. -/
def overridden (acc : Account lib) (overrides : List (Field × acc.Doc)) (f : Field) :
    Option f.Val :=
  (overrides.filterMap fun o =>
    if o.1 = f then (f.read lib (acc.value o.2)).toOption else none).getLast?

/-- A new override takes the place of an earlier one of the same setting, and of no other. -/
lemma overridden_add (overrides : List (Field × acc.Doc)) {f : Field} {x : acc.Doc}
    (hx : acc.Fits f x) (g : Field) :
    acc.overridden (overrides.filter (fun o => o.1 ≠ f) ++ [(f, x)]) g =
      (if f = g then (g.read lib (acc.value x)).toOption else none).or
        (acc.overridden overrides g) := by
  rw [overridden, overridden, List.filterMap_append, List.getLast?_append, List.filterMap_filter]
  by_cases hfg : f = g
  · subst hfg
    obtain ⟨y, -, hy⟩ := hx.exists_toOption
    simp [hy]
  · -- what is at another setting is not filtered out
    have hother : (fun o : Field × acc.Doc => if decide (o.1 ≠ f) = true then
        if o.1 = g then (g.read lib (acc.value o.2)).toOption else none else none) =
        fun o => if o.1 = g then (g.read lib (acc.value o.2)).toOption else none := by
      funext o
      by_cases ho : o.1 = g
      · simp [ho, Ne.symm hfg]
      · simp [ho]
    rw [hother]
    simp [hfg]

variable (h : acc.KeyByKey)

include h

/-- Overrides are laid as tables of one setting each. -/
lemma last?_alone {overrides : List (Field × acc.Doc)} (hfits : ∀ o ∈ overrides, acc.Fits o.1 o.2)
    (f : Field) :
    acc.last? (overrides.map fun o => acc.alone o.1 o.2) f = acc.overridden overrides f := by
  rw [last?, overridden, List.filterMap_map]
  congr 1
  refine List.filterMap_congr fun o ho => ?_
  exact (alone_spec h (hfits o ho)).2 f

/-! ### Adding layers -/

/-- A typed layer is taken up: a file as a further source, and an override in place of an earlier
one of the same setting. -/
lemma exists_add {l : Layer lib.Kind} (hl : acc.IsTypedLayer files l) {b : lib.Builder}
    {sources : List Source} {overrides : List (Field × acc.Doc)}
    (hhas : acc.Has b sources overrides) (hfits : ∀ o ∈ overrides, acc.Fits o.1 o.2) :
    ∃ b' overrides', Loader.add (⟨b⟩ : Loader lib) l = .ok ⟨b'⟩ ∧
      acc.Has b' (sources ++ l.source?.toList) overrides' ∧
      (∀ o ∈ overrides', acc.Fits o.1 o.2) ∧
      ∀ f, acc.overridden overrides' f =
        (l.override?.bind (acc.fromOverride? f)).or (acc.overridden overrides f) := by
  cases hl with
  | file | optionalFile | missingFile =>
    exact ⟨_, overrides, rfl, h.has_addSource b sources overrides _ hhas, hfits, fun f => rfl⟩
  | @override f x hx =>
    obtain ⟨b', hb', hhas'⟩ := h.has_setOverride b sources overrides f x hhas
    refine ⟨b', overrides.filter (fun o => o.1 ≠ f) ++ [(f, x)], ?_, ?_, ?_, fun g => ?_⟩
    · rw [Loader.add, Loader.setOverride, hb']
      rfl
    · simpa only [Layer.source?, Option.toList_none, List.append_nil] using hhas'
    · refine List.forall_mem_append.2 ⟨fun o ho => hfits o (List.mem_of_mem_filter ho), ?_⟩
      simpa using hx
    · rw [overridden_add overrides hx]
      simp only [Layer.override?, Option.bind_some, fromOverride?, Field.key_injective.eq_iff,
        h.ofKind_kind]

/-- A loader takes up typed layers: files as sources in order, and of the overrides the last one of
each setting. -/
theorem exists_foldlM_add {layers : List (Layer lib.Kind)}
    (hlayers : ∀ l ∈ layers, acc.IsTypedLayer files l) {b : lib.Builder} {sources : List Source}
    {overrides : List (Field × acc.Doc)} (hhas : acc.Has b sources overrides)
    (hfits : ∀ o ∈ overrides, acc.Fits o.1 o.2) :
    ∃ b' overrides', layers.foldlM Loader.add (⟨b⟩ : Loader lib) = .ok ⟨b'⟩ ∧
      acc.Has b' (sources ++ layers.filterMap Layer.source?) overrides' ∧
      (∀ o ∈ overrides', acc.Fits o.1 o.2) ∧
      ∀ f, acc.overridden overrides' f =
        (acc.lastOverride? layers f).or (acc.overridden overrides f) := by
  induction layers generalizing b sources overrides with
  | nil => exact ⟨b, overrides, rfl, by simpa using hhas, hfits, fun f => rfl⟩
  | cons l layers ih =>
    rw [List.forall_mem_cons] at hlayers
    obtain ⟨b₁, overrides₁, hadd, hhas₁, hfits₁, hlast₁⟩ := exists_add h hlayers.1 hhas hfits
    obtain ⟨b₂, overrides₂, hrest, hhas₂, hfits₂, hlast₂⟩ := ih hlayers.2 hhas₁ hfits₁
    refine ⟨b₂, overrides₂, ?_, ?_, hfits₂, fun f => ?_⟩
    · rw [List.foldlM_cons, hadd]
      exact hrest
    · have hsources : (l :: layers).filterMap Layer.source? =
          l.source?.toList ++ layers.filterMap Layer.source? := by
        rw [List.filterMap_cons]
        cases l.source? with
        | none => rfl
        | some s => rfl
      rwa [hsources, ← List.append_assoc]
    · rw [hlast₂, hlast₁, ← Option.or_assoc, lastOverride?, lastOverride?, List.filterMap_filterMap,
        List.filterMap_filterMap, getLast?_filterMap_cons]

/-! ### Building -/

/-- A loader that has the standard settings, typed sources and overrides builds settings, of which
each is what overrides say, or else what the sources say last about it, or else the standard. -/
theorem exists_build (hstandard : acc.ReadsStandard) {b : lib.Builder} {sources : List Source}
    {overrides : List (Field × acc.Doc)}
    (hhas : acc.Has b (.text defaultText :: sources) overrides)
    (hsources : ∀ s ∈ sources, acc.TellsTyped files s)
    (hfits : ∀ o ∈ overrides, acc.Fits o.1 o.2) :
    ∃ s, Loader.build files (⟨b⟩ : Loader lib) = .ok s ∧ ∀ f : Field, f.of s =
      ((acc.overridden overrides f).or
        (sources.filterMap (acc.fromSource? files f)).getLast?).getD (f.of standard) := by
  obtain ⟨d, hparse, hd, hgives⟩ := hstandard
  obtain ⟨docs, hdocs, htyped, hlast⟩ := exists_documents hsources
  have hall : acc.documents files (.text defaultText :: sources) = some (d :: docs) := by
    rw [documents_cons, told, hparse, hdocs]
    rfl
  -- the standard settings lie at the bottom and the overrides on top
  have hlayers : ∀ x ∈ d :: docs ++ overrides.map (fun o => acc.alone o.1 o.2),
      acc.IsTyped x := by
    rw [List.forall_mem_append, List.forall_mem_cons, List.forall_mem_map]
    exact ⟨⟨hd, htyped⟩, fun o ho => (alone_spec h (hfits o ho)).1⟩
  obtain ⟨hroot, hroot'⟩ := foldl_merge h hlayers (isTyped_empty h)
  set root := (d :: docs ++ overrides.map fun o => acc.alone o.1 o.2).foldl acc.merge
    acc.empty
  have hvalue : ∀ f, acc.gives? root f = ((acc.overridden overrides f).or
      (sources.filterMap (acc.fromSource? files f)).getLast?).or (some (f.of standard)) := by
    intro f
    rw [hroot', gives?_of_at?_eq_none (at?_empty h f), Option.or_none, last?,
      List.filterMap_append, List.getLast?_append, ← last?, ← last?, last?_alone h hfits,
      last?_cons, hgives, hlast, Option.or_assoc]
  -- every section has a setting in it
  have hsections : ∀ sec : Section, ∃ s, acc.look root sec.name = some s := by
    intro sec
    obtain ⟨f, rfl⟩ : ∃ f : Field, f.sec = sec := by
      cases sec with
      | probability => exact ⟨.matching, rfl⟩
      | filter => exact ⟨.countLimit, rfl⟩
      | patterns => exact ⟨.window, rfl⟩
    cases hsec : acc.look root f.sec.name with
    | some s => exact ⟨s, rfl⟩
    | none =>
      have hnone := gives?_of_at?_eq_none (d := root) (f := f) (by rw [at?, hsec]; rfl)
      rw [hvalue, Option.or_eq_none_iff] at hnone
      cases hnone.2
  obtain ⟨s, hs, hof⟩ := exists_readSettings h hroot hsections
  refine ⟨s, ?_, fun f => ?_⟩
  · rw [Loader.build, h.build_eq files b _ overrides _ hhas hall]
    exact hs
  · rw [hof, hvalue, Option.getD_or]
    rfl

omit h in
lemma IsTypedLayer.tellsTyped {l : Layer lib.Kind} (hl : acc.IsTypedLayer files l) {s : Source}
    (hs : l.source? = some s) : acc.TellsTyped files s := by
  cases hl with
  | @file path text d hfile hparse hd =>
    cases hs
    exact ⟨[d], told_file hfile hparse _, by simpa using hd⟩
  | @optionalFile path text d hfile hparse hd =>
    cases hs
    exact ⟨[d], told_file hfile hparse _, by simpa using hd⟩
  | missingFile hfile =>
    cases hs
    exact ⟨[], by rw [told, hfile]; rfl, by simp⟩
  | override f hx => cases hs

/-- Typed layers give settings, each of which is what its last override says, or else what the files
say last about it, or else the standard. -/
theorem exists_load (hstandard : acc.ReadsStandard) {layers : List (Layer lib.Kind)}
    (hlayers : ∀ l ∈ layers, acc.IsTypedLayer files l) :
    ∃ s, load lib files layers = .ok s ∧ ∀ f : Field, f.of s =
      ((acc.lastOverride? layers f).or (acc.lastFiled? files layers f)).getD (f.of standard) := by
  have hhas := h.has_addSource _ _ _ (.text defaultText) h.has_builder
  obtain ⟨b, overrides, hadd, hhas, hfits, hlast⟩ := exists_foldlM_add h hlayers hhas (by simp)
  have hsources : ∀ s ∈ layers.filterMap Layer.source?, acc.TellsTyped files s := by
    intro s hs
    obtain ⟨l, hl, hls⟩ := List.mem_filterMap.1 hs
    exact (hlayers l hl).tellsTyped hls
  obtain ⟨s, hs, hof⟩ := exists_build h hstandard hhas hsources hfits
  refine ⟨s, ?_, fun f => ?_⟩
  · rw [load, Loader.new, hadd]
    exact hs
  · have hnone : acc.overridden [] f = none := rfl
    rw [hof, hlast, hnone, Option.or_none]
    rfl

/-- Without layers the settings are the standard ones: the standard text agrees with the program. -/
theorem loadDefaults_eq (hstandard : acc.ReadsStandard) (files : String → Option String) :
    loadDefaults lib files = .ok standard := by
  have hlayers : ∀ l ∈ ([] : List (Layer lib.Kind)), acc.IsTypedLayer files l := by simp
  obtain ⟨s, hs, hof⟩ := exists_load h hstandard hlayers
  have hsame : s = standard := eq_of_forall_of hof
  rw [← hsame]
  exact hs

omit h in
/-- Layers with the same files and the same overrides, each in their order, are the same layers in
another order. -/
lemma isTypedLayer_of_eq {layers layers' : List (Layer lib.Kind)}
    (hlayers : ∀ l ∈ layers, acc.IsTypedLayer files l)
    (hsources : layers'.filterMap Layer.source? = layers.filterMap Layer.source?)
    (hoverrides : layers'.filterMap Layer.override? = layers.filterMap Layer.override?) :
    ∀ l ∈ layers', acc.IsTypedLayer files l := by
  intro l hl
  cases l with
  | file path => exact hlayers _ (mem_of_filterMap_eq Layer.eq_of_source? hsources hl rfl)
  | optionalFile path => exact hlayers _ (mem_of_filterMap_eq Layer.eq_of_source? hsources hl rfl)
  | override key k => exact hlayers _ (mem_of_filterMap_eq Layer.eq_of_override? hoverrides hl rfl)

end Account

/-! ### The library at hand -/

namespace PlainDoc

/-- A document with some settings. -/
def ofSettings (settings : List (Field × PlainDoc)) : PlainDoc :=
  (settings.map fun o => o.2.alone o.1).foldl merge empty

lemma ofSettings_spec {settings : List (Field × PlainDoc)}
    (h : ∀ o ∈ settings, plain.Fits o.1 o.2) : plain.IsTyped (ofSettings settings) ∧
      ∀ f, plain.gives? (ofSettings settings) f = plain.overridden settings f := by
  have hdocs : ∀ d ∈ settings.map fun o => o.2.alone o.1, plain.IsTyped d :=
    List.forall_mem_map.2 fun o ho => (Account.alone_spec plain_keyByKey (h o ho)).1
  obtain ⟨htyped, hgives⟩ := Account.foldl_merge plain_keyByKey hdocs
    (Account.isTyped_empty plain_keyByKey)
  refine ⟨htyped, fun f => ?_⟩
  rw [← Account.last?_alone plain_keyByKey h]
  exact (hgives f).trans Option.or_none

/-- A key that is no section is nothing to the settings. -/
lemma single_spec {key : String} (hlower : lowercase key = key) (hsingle : IsSingle key)
    (hkey : ∀ sec : Section, sec.name ≠ key) (d : PlainDoc) :
    plain.IsTyped (single key hlower hsingle d) ∧
      ∀ f, plain.gives? (single key hlower hsingle d) f = none := by
  have hlook : ∀ sec : Section, plain.look (single key hlower hsingle d) sec.name = none :=
    fun sec => (look_single hlower hsingle d _).trans (if_neg (hkey sec))
  have hat : ∀ f, plain.at? (single key hlower hsingle d) f = none := by
    intro f
    rw [Account.at?, hlook]
    rfl
  refine ⟨⟨Value.isTable_table, fun sec s hs => ?_, fun f x hx => ?_⟩,
    fun f => Account.gives?_of_at?_eq_none (hat f)⟩
  · rw [hlook] at hs
    cases hs
  · rw [hat] at hx
    cases hx

lemma fits_leaf {f : Field} {v : Value} (hv : ¬v.IsTable) {y : f.Val}
    (hread : f.read merging v = .ok y) : plain.Fits f (leaf v hv) := ⟨hv, y, hread⟩

lemma plain_parse {text : String} {d : PlainDoc} (h : parse text = some d) :
    plain.parse text = some d := h

/-- What the standard text says. -/
def standardSettings : List (Field × PlainDoc) := [
  (.matching, leaf (.str "exact") (by decide)),
  (.fallback, leaf (.bool true) (by decide)),
  (.countLimit, leaf (.int 2) (by decide)),
  (.window, leaf (.int 10) (by decide)),
  (.minSize, leaf (.int 6) (by decide)),
  (.minCount, leaf (.int 20) (by decide))]

end PlainDoc

open PlainDoc

theorem plain_readsStandard : plain.ReadsStandard := by
  have hfits : ∀ o ∈ standardSettings, plain.Fits o.1 o.2 := by
    simp only [standardSettings, List.forall_mem_cons]
    exact ⟨fits_leaf _ rfl, fits_leaf _ rfl, fits_leaf _ rfl, fits_leaf _ rfl, fits_leaf _ rfl,
      fits_leaf _ rfl, by simp⟩
  obtain ⟨htyped, hgives⟩ := ofSettings_spec hfits
  have htable : (ofSettings standardSettings).1.IsTable := htyped.isTable
  have hparse : parse defaultText = some (ofSettings standardSettings) := by
    refine parse_eq htable ?_
    rw [defaultText, String.toList_intercalate]
    decide +kernel
  refine ⟨ofSettings standardSettings, plain_parse hparse, htyped, fun f => ?_⟩
  rw [hgives]
  cases f <;> rfl

/-- Settings of two sections. -/
def corpusSettings : List (Field × PlainDoc) := [
  (.countLimit, leaf (.int 5) (by decide)),
  (.matching, leaf (.str "partial") (by decide))]

/-- A second setting of one of these sections. -/
def scoreSettings : List (Field × PlainDoc) := [(.fallback, leaf (.bool false) (by decide))]

/-- A key that is no setting. -/
def otherDoc : PlainDoc :=
  single "other" (by decide +kernel) (by decide +kernel) (leaf (.int 1) (by decide))

lemma otherDoc_spec : plain.IsTyped otherDoc ∧ ∀ f, plain.gives? otherDoc f = none :=
  single_spec (by decide +kernel) (by decide +kernel) (fun sec => by cases sec <;> decide) _

def corpusText : String := "[filter]\ncount_limit = 5\n[probability]\nmatching = 'partial'\n"

def scoreText : String := "probability.cfg_fallback = false\nother = 1\n"

lemma parse_corpusText : plain.parse corpusText = some (ofSettings corpusSettings) ∧
    plain.IsTyped (ofSettings corpusSettings) ∧
    ∀ f, plain.gives? (ofSettings corpusSettings) f = plain.overridden corpusSettings f := by
  have hfits : ∀ o ∈ corpusSettings, plain.Fits o.1 o.2 := by
    simp only [corpusSettings, List.forall_mem_cons]
    exact ⟨fits_leaf _ rfl, fits_leaf _ rfl, by simp⟩
  obtain ⟨htyped, hgives⟩ := ofSettings_spec hfits
  have htable : (ofSettings corpusSettings).1.IsTable := htyped.isTable
  exact ⟨plain_parse (parse_eq htable (by decide +kernel)), htyped, hgives⟩

lemma parse_scoreText : plain.parse scoreText = some ((ofSettings scoreSettings).merge otherDoc) ∧
    plain.IsTyped ((ofSettings scoreSettings).merge otherDoc) ∧
    ∀ f, plain.gives? ((ofSettings scoreSettings).merge otherDoc) f =
      plain.overridden scoreSettings f := by
  have hfits : ∀ o ∈ scoreSettings, plain.Fits o.1 o.2 := by
    simp only [scoreSettings, List.forall_mem_cons]
    exact ⟨fits_leaf _ rfl, by simp⟩
  obtain ⟨htyped, hgives⟩ := ofSettings_spec hfits
  obtain ⟨hother, hnone⟩ := otherDoc_spec
  have hmerged := Account.isTyped_merge plain_keyByKey htyped hother
  have htable : ((ofSettings scoreSettings).merge otherDoc).1.IsTable := hmerged.isTable
  refine ⟨plain_parse (parse_eq htable (by decide +kernel)), hmerged, fun f => ?_⟩
  rw [← hgives]
  exact (Account.gives?_merge plain_keyByKey htyped hother f).trans (by rw [hnone]; rfl)

/-- Files that are there. -/
def exampleFiles (path : String) : Option String :=
  if path = "corpus.toml" then some corpusText
  else if path = "scores.toml" then some scoreText
  else none

/-- A count is overridden before a file that sets it, one file is missing, and two files set two
settings of one section. -/
def interleaved : List (Layer merging.Kind) := [
  .override "filter.count_limit" (Value.int 7),
  .file "corpus.toml",
  .optionalFile "local.toml",
  .file "scores.toml"]

/-! ### Every setting by itself -/

end TreeGrammar.Settings
