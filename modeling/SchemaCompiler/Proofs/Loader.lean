import SchemaCompiler.Loader
import SchemaCompiler.Proofs.BundleDocuments

/-!
# Loading through a cache

A loader with a cache gives what the document of a file gives, or what the
bundle of the same document gives.  The two are the same for a module without
missing type expressions whose imports all have a name; for any other module
the cache can be told from the document.
-/

namespace SchemaCompiler

open List SchemaModule Bundle Digest

namespace Loader

variable {content : Content} {l : Loader} {bundle : List UInt8} {modules : List SchemaModule}
  {v : Visit}

/-! ## Keys -/

theorem length_hexDigits (width n : Nat) : (Text.hexDigits width n).length = width := by
  induction width generalizing n with
  | zero => rfl
  | succ width ih => rw [Text.hexDigits, length_append, ih, length_singleton]

theorem length_hex (bytes : List UInt8) : (hex bytes).toList.length = 64 := by
  simp [hex, String.join, Text.hex, length_hexDigits]

theorem keyOf_text_inj {path path' : String} {content' : Content}
    (h : (keyOf path content).text = (keyOf path' content').text) :
    path = path' ∧ hex content.toBytes = hex content'.toBytes := by
  have hchars := congrArg String.toList h
  simp only [CacheKey.text, CacheKey.head, keyOf, String.toList_append] at hchars
  obtain ⟨hhead, hdigest⟩ := append_inj' hchars (by rw [length_hex, length_hex])
  have hpath := append_cancel_left (append_cancel_right hhead)
  exact ⟨String.toList_injective hpath, String.toList_injective hdigest⟩

/-! ## Loading file after file -/

/-- A file that is loaded at some time. -/
structure Visit where
  now : Int
  tree : FileTree
  path : String

/-- What a loader gives for a file. -/
def outcome (l : Loader) (v : Visit) : Outcome (List SchemaModule) :=
  (l.loadFile v.now v.tree v.path).1

/-- A loader after files were loaded one after the other. -/
def after (l : Loader) (visits : List Visit) : Loader :=
  visits.foldl (fun l v => (l.loadFile v.now v.tree v.path).2) l

namespace Visit

/-- The file holds a document of the modules. -/
structure Finds (v : Visit) (content : Content) (modules : List SchemaModule) : Prop where
  read_eq : v.tree.read v.path = .ok content
  decode_eq : decode v.path content.toText = .ok modules

/-- No two of the files have one digest but different contents. -/
def DistinctDigests (visits : List Visit) : Prop :=
  ∀ v ∈ visits, ∀ u ∈ visits, ∀ content content', v.tree.read v.path = .ok content →
    u.tree.read u.path = .ok content' →
    hex content.toBytes = hex content'.toBytes → content = content'

end Visit

/-- Every bundle in the cache is the one of a document that was loaded. -/
def Holds (visits : List Visit) (l : Loader) : Prop :=
  ∀ cache ∈ l.cache, ∀ entry ∈ cache.entries, ∃ v ∈ visits, ∃ content modules,
    v.Finds content modules ∧ entry.1 = (keyOf v.path content).text ∧
      encode modules = .ok entry.2.value

@[simp]
theorem cache_log (l : Loader) (level : LogLevel) (message : String)
    (attributes : List (String × String)) : (l.log level message attributes).cache = l.cache := rfl

theorem Holds.mono {visits more : List Visit} {l' : Loader} (h : Holds visits l)
    (hmore : visits ⊆ more) (hcache : l'.cache = l.cache) : Holds more l' := by
  intro cache hmem entry hentry
  rw [hcache] at hmem
  obtain ⟨v, hv, hrest⟩ := h cache hmem entry hentry
  exact ⟨v, hmore hv, hrest⟩

/-- What a loader does with a file that can be read: it takes the modules from the cache, or else
reads the document and keeps what it reads. -/
inductive Loaded (l : Loader) (v : Visit) (content : Content)
    (result : Outcome (List SchemaModule)) (l' : Loader) : Prop
  | cached {bundle : List UInt8} {modules : List SchemaModule}
      (hcached : l.cached? v.now (keyOf v.path content) = some bundle)
      (hback : decode? bundle = some modules) (hresult : result = .ok modules)
      (hl' : l'.cache = l.cache)
  | failed {failure : Failure} (hdecode : decode v.path content.toText = .error failure)
      (hresult : result = .error failure) (hl' : l'.cache = l.cache)
  | plain {modules : List SchemaModule} (hcache : l.cache = none)
      (hdecode : decode v.path content.toText = .ok modules) (hresult : result = .ok modules)
      (hl' : l'.cache = l.cache)
  | unpacked {modules : List SchemaModule} {failure : Failure}
      (hdecode : decode v.path content.toText = .ok modules)
      (hencode : encode modules = .error failure) (hresult : result = .error failure)
      (hl' : l'.cache = l.cache)
  | kept {cache : Cache (List UInt8)} {modules : List SchemaModule} {bundle : List UInt8}
      (hcache : l.cache = some cache) (hdecode : decode v.path content.toText = .ok modules)
      (hencode : encode modules = .ok bundle)
      (hmiss : ∀ bundle, l.cached? v.now (keyOf v.path content) = some bundle →
        decode? bundle = none)
      (hresult : result = .ok modules)
      (hl' : l'.cache = some ((cache.deleteUnder (keyOf v.path content).head).set v.now
        (keyOf v.path content).text bundle l.life))

theorem loaded_loadFile (l : Loader) (hread : v.tree.read v.path = .ok content) :
    Loaded l v content (l.outcome v) (l.loadFile v.now v.tree v.path).2 := by
  have hdecoded (start : Loader) (hstart : start.cache = l.cache) (hlife : start.life = l.life)
      (hmiss : ∀ bundle, l.cached? v.now (keyOf v.path content) = some bundle →
        decode? bundle = none) :
      Loaded l v content (start.decodeFile v.now v.path content).1
        (start.decodeFile v.now v.path content).2 := by
    unfold decodeFile
    cases hdecode : decode v.path content.toText with
    | error failure => exact .failed hdecode rfl hstart
    | ok modules =>
      simp only [cache_log, hstart]
      cases hcache : l.cache with
      | none => exact .plain hcache hdecode rfl hstart
      | some cache =>
        simp only [Option.isNone_some]
        cases hencode : encode modules with
        | error failure => exact .unpacked hdecode hencode rfl hstart
        | ok bundle =>
          refine .kept hcache hdecode hencode hmiss rfl ?_
          simp [keep, hstart, hcache, hlife, log]
  have hbind : (l.cache.bind fun _ => l.cached? v.now (keyOf v.path content)) =
      l.cached? v.now (keyOf v.path content) := by
    unfold cached?
    cases l.cache with
    | none | some cache => rfl
  rw [outcome, loadFile, hread]
  dsimp only
  rw [loadContent, hbind]
  cases hcached : l.cached? v.now (keyOf v.path content) with
  | none => exact hdecoded l rfl rfl (by simp [hcached])
  | some bundle =>
    cases hback : decode? bundle with
    | none =>
      simp only [hback]
      exact hdecoded (l.log .warn _ _) rfl rfl (by simp [hcached, hback])
    | some modules =>
      simp only [hback]
      exact .cached hcached hback rfl rfl

theorem exists_entry_of_cached? {now : Int} {key : CacheKey} (h : l.cached? now key = some bundle) :
    ∃ cache ∈ l.cache, ∃ entry, (key.text, entry) ∈ cache.entries ∧ entry.value = bundle := by
  unfold cached? at h
  cases hcache : l.cache with
  | none =>
    rw [hcache] at h
    cases h
  | some cache =>
    rw [hcache] at h
    dsimp only at h
    unfold Cache.get? at h
    split at h
    · cases h
    · rename_i entry hentry
      split_ifs at h
      cases h
      exact ⟨cache, rfl, entry, Keyed.mem_of_find?_eq_some hentry, rfl⟩

theorem Holds.visit {visits : List Visit} (h : Holds visits l) (v : Visit) :
    Holds (visits ++ [v]) (l.loadFile v.now v.tree v.path).2 := by
  have hsub : visits ⊆ visits ++ [v] := subset_append_left visits [v]
  cases hread : v.tree.read v.path with
  | error failure =>
    rw [loadFile, hread]
    exact h.mono hsub rfl
  | ok content =>
    cases loaded_loadFile l hread with
    | cached _ _ _ hl' | failed _ _ hl' | plain _ _ _ hl' | unpacked _ _ _ hl' =>
      exact h.mono hsub hl'
    | kept hcache hdecode hencode _ _ hl' =>
      intro cache' hcache' entry hentry
      obtain rfl : _ = cache' := Option.some.inj (hl'.symm.trans hcache')
      rcases Keyed.mem_insert hentry with rfl | hentry
      · exact ⟨v, mem_append_right visits mem_cons_self, content, _, ⟨hread, hdecode⟩, rfl,
          hencode⟩
      · obtain ⟨u, hu, hrest⟩ := h _ hcache entry (mem_of_mem_filter hentry)
        exact ⟨u, hsub hu, hrest⟩

/-- A cache that was filled by loading holds nothing but bundles of the
documents that were loaded. -/
theorem holds_after (life : Int) (visits : List Visit) :
    Holds visits ((caching life).after visits) := by
  have hafter (done : List Visit) (l : Loader) (h : Holds done l) :
      Holds (done ++ visits) (l.after visits) := by
    induction visits generalizing done l with
    | nil =>
      rw [append_nil]
      exact h
    | cons v visits ih =>
      have hnext := ih (done ++ [v]) _ (h.visit v)
      rw [append_assoc] at hnext
      exact hnext
  refine hafter [] (caching life) ?_
  rintro cache ⟨rfl⟩ entry hentry
  cases hentry

/-- What the cache has under the key of a file is the bundle of its document. -/
theorem Holds.of_cached? {visits : List Visit} (h : Holds visits l)
    (hdistinct : Visit.DistinctDigests (v :: visits)) (hread : v.tree.read v.path = .ok content)
    (hcached : l.cached? v.now (keyOf v.path content) = some bundle) :
    ∃ modules, v.Finds content modules ∧ encode modules = .ok bundle := by
  obtain ⟨cache, hcache, entry, hentry, rfl⟩ := exists_entry_of_cached? hcached
  obtain ⟨u, hu, content', modules, hfinds, hkey, hencode⟩ := h cache hcache _ hentry
  obtain ⟨hpath, hdigest⟩ := keyOf_text_inj hkey
  obtain rfl : content = content' :=
    hdistinct v mem_cons_self u (mem_cons_of_mem v hu) _ _ hread hfinds.read_eq hdigest
  refine ⟨modules, ⟨hread, ?_⟩, hencode⟩
  rw [hpath]
  exact hfinds.decode_eq

/-! ## Outcomes -/

/-- Without a cache a file gives what its document gives. -/
theorem outcome_plain (h : v.tree.read v.path = .ok content) :
    plain.outcome v = decode v.path content.toText := by
  rw [outcome, loadFile, h]
  change (plain.decodeFile v.now v.path content).1 = _
  rw [decodeFile]
  cases decode v.path content.toText with
  | error failure | ok modules => rfl

theorem isSome_cache_loadFile (h : l.cache.isSome) (v : Visit) :
    (l.loadFile v.now v.tree v.path).2.cache.isSome := by
  cases hread : v.tree.read v.path with
  | error failure => rwa [loadFile, hread]
  | ok content =>
    cases loaded_loadFile l hread with
    | cached _ _ _ hl' | failed _ _ hl' | plain _ _ _ hl' | unpacked _ _ _ hl' => rwa [hl']
    | kept _ _ _ _ _ hl' => exact Option.isSome_of_eq_some hl'

theorem isSome_cache_after (life : Int) (visits : List Visit) :
    ((caching life).after visits).cache.isSome := by
  have hafter (l : Loader) (h : l.cache.isSome) : (l.after visits).cache.isSome := by
    induction visits generalizing l with
    | nil => exact h
    | cons v visits ih => exact ih _ (isSome_cache_loadFile h v)
  exact hafter _ rfl

/-- A bundle that has no deadline is found once its document was read. -/
theorem cached?_loadFile (hcache : l.cache.isSome) (hlife : l.life ≤ 0)
    (hfinds : v.Finds content modules) (hencode : encode modules = .ok bundle)
    (hnew : l.cached? v.now (keyOf v.path content) = none) (now : Int) :
    (l.loadFile v.now v.tree v.path).2.cached? now (keyOf v.path content) = some bundle := by
  cases loaded_loadFile l hfinds.read_eq with
  | cached hcached =>
    rw [hnew] at hcached
    cases hcached
  | failed hdecode => cases hfinds.decode_eq.symm.trans hdecode
  | plain hnone =>
    rw [hnone] at hcache
    cases hcache
  | unpacked hdecode hfail =>
    obtain rfl := Except.ok.inj (hfinds.decode_eq.symm.trans hdecode)
    cases hencode.symm.trans hfail
  | kept _ hdecode hkept _ _ hnext =>
    obtain rfl := Except.ok.inj (hfinds.decode_eq.symm.trans hdecode)
    obtain rfl := Except.ok.inj (hencode.symm.trans hkept)
    rw [cached?, hnext]
    simp [Cache.get?, Cache.set, Keyed.find?_insert, not_lt.mpr hlife, CacheEntry.live]

theorem Visit.Finds.modules_eq {modules' : List SchemaModule}
    (h : v.Finds content modules) (h' : v.Finds content modules') : modules = modules' :=
  Except.ok.inj (h.decode_eq.symm.trans h'.decode_eq)

/-- A document is taken from the cache, or it is read and its bundle is kept, or
its bundle cannot be made. -/
theorem Holds.outcome_of_finds {history : List Visit} (h : Holds history l)
    (hcache : l.cache.isSome) (hdistinct : Visit.DistinctDigests (v :: history))
    (hfinds : v.Finds content modules) (hsized : Sized modules) :
    (∃ bundle, encode modules = .ok bundle ∧
      ((l.cached? v.now (keyOf v.path content)).isSome = true ∧
          l.outcome v = .ok (modules.map merged) ∨
        (l.cached? v.now (keyOf v.path content)).isSome = false ∧ l.outcome v = .ok modules)) ∨
    ∃ failure, encode modules = .error failure ∧ l.outcome v = .error failure := by
  have hback {bundle : List UInt8}
      (hcached : l.cached? v.now (keyOf v.path content) = some bundle) :
      encode modules = .ok bundle ∧ decode? bundle = some (modules.map merged) := by
    obtain ⟨modules', hfinds', hencode⟩ := h.of_cached? hdistinct hfinds.read_eq hcached
    obtain rfl := hfinds.modules_eq hfinds'
    exact ⟨hencode, decode?_of_encode_ok
      (wellFormed_of_decode_ok hfinds.decode_eq) hsized hencode⟩
  cases loaded_loadFile l hfinds.read_eq with
  | cached hcached hdecode hresult =>
    obtain ⟨hencode, hmerged⟩ := hback hcached
    obtain rfl := Option.some.inj (hmerged.symm.trans hdecode)
    exact .inl ⟨_, hencode, .inl ⟨by rw [hcached]; rfl, hresult⟩⟩
  | failed hdecode => cases hfinds.decode_eq.symm.trans hdecode
  | plain hnone =>
    rw [hnone] at hcache
    cases hcache
  | unpacked hdecode hencode hresult =>
    obtain rfl := Except.ok.inj (hfinds.decode_eq.symm.trans hdecode)
    exact .inr ⟨_, hencode, hresult⟩
  | kept _ hdecode hencode hmiss hresult =>
    obtain rfl := Except.ok.inj (hfinds.decode_eq.symm.trans hdecode)
    refine .inl ⟨_, hencode, .inr ⟨?_, hresult⟩⟩
    cases hsome : l.cached? v.now (keyOf v.path content) with
    | none => rfl
    | some bundle => cases (hmiss bundle hsome).symm.trans (hback hsome).2

/-- A file that gives no document fails as it does without a cache. -/
theorem Holds.outcome_of_error {history : List Visit} (h : Holds history l)
    (hdistinct : Visit.DistinctDigests (v :: history)) {failure : Failure}
    (hplain : plain.outcome v = .error failure) : l.outcome v = .error failure := by
  cases hread : v.tree.read v.path with
  | error fault =>
    rw [outcome, loadFile, hread] at hplain ⊢
    exact hplain
  | ok content =>
    rw [outcome_plain hread] at hplain
    cases loaded_loadFile l hread with
    | cached hcached =>
      obtain ⟨modules, hfinds, _⟩ := h.of_cached? hdistinct hread hcached
      cases hfinds.decode_eq.symm.trans hplain
    | failed hdecode hresult => rw [hresult, ← hdecode, hplain]
    | plain _ hdecode | unpacked hdecode | kept _ hdecode => cases hdecode.symm.trans hplain

/-- Loading through a cache that was filled by loading files.  A file that
cannot be loaded fails in the same way.  A document gives its modules as they
are or, when the cache has its bundle, with their imports merged, unless a type
expression is missing; so it gives the same with and without a cache when its
bundle is transparent, which is to say that no module lacks a type expression
or imports an empty name. -/
theorem cached_outcome (life : Int) (history : List Visit) (v : Visit)
    (hdistinct : Visit.DistinctDigests (v :: history)) :
    (∀ failure, plain.outcome v = .error failure →
      ((caching life).after history).outcome v = .error failure) ∧
    ∀ content modules, v.Finds content modules → Sized modules →
      plain.outcome v = .ok modules ∧
      ((∃ bytes back, encode modules = .ok bytes ∧ decode? bytes = some back ∧
        Forall₂ (fun m b => SchemaModule.toJson b = SchemaModule.toJson m) modules back) ↔
        ∀ m ∈ modules, m.Typed ∧ m.ImportsNamed) ∧
      ((∀ m ∈ modules, m.Typed ∧ m.ImportsNamed) →
        ((caching life).after history).outcome v = .ok modules) ∧
      ((∀ m ∈ modules, m.Typed) → ((caching life).after history).outcome v =
        .ok (if (((caching life).after history).cached? v.now (keyOf v.path content)).isSome then
          modules.map SchemaModule.merged else modules)) ∧
      ((¬∀ m ∈ modules, m.Typed) →
        ((caching life).after history).outcome v = .error (.panic none)) := by
  have hholds := holds_after life history
  refine ⟨fun failure => hholds.outcome_of_error hdistinct, ?_⟩
  intro content modules hfinds hsized
  have hmodules := SchemaModule.wellFormed_of_decode_ok hfinds.decode_eq
  have houtcome :=
    hholds.outcome_of_finds (isSome_cache_after life history) hdistinct hfinds hsized
  have htyped : (∀ m ∈ modules, m.Typed) → ((caching life).after history).outcome v =
      .ok (if (((caching life).after history).cached? v.now (keyOf v.path content)).isSome then
        modules.map SchemaModule.merged else modules) := by
    intro htyped
    obtain ⟨bytes, hbytes⟩ := exists_encode_ok.mpr htyped
    rcases houtcome with ⟨_, _, ⟨hsome, hload⟩ | ⟨hsome, hload⟩⟩ | ⟨_, hencode, _⟩
    · rw [hload, if_pos hsome]
    · rw [hload, hsome, if_neg Bool.false_ne_true]
    · rw [hbytes] at hencode
      cases hencode
  refine ⟨(outcome_plain hfinds.read_eq).trans hfinds.decode_eq,
    transparent_iff hmodules hsized, ?_, htyped, ?_⟩
  · intro h
    rw [htyped fun m hm => (h m hm).1, map_merged_eq fun m hm => (h m hm).2, ite_self]
  · intro hmissing
    rcases houtcome with ⟨bundle, hencode, _⟩ | ⟨failure, hencode, hload⟩
    · exact absurd (exists_encode_ok.mp ⟨bundle, hencode⟩) hmissing
    · rw [hload, eq_panic_of_encode_error hencode]

/-- A document whose module imports an empty name. -/
def blankDocument : Content :=
  .text (Json.obj [("name", .text "app"),
    ("imports", .arr [Import.toJson (.single ⟨"lib", ""⟩)]), ("decls", .obj [])]).render

def blankVisit : Visit :=
  ⟨0, .directory [("app.json", .file blankDocument)], "app.json"⟩

theorem finds_blank :
    blankVisit.Finds blankDocument [⟨"app", [.single ⟨"lib", ""⟩], [], []⟩] :=
  ⟨rfl, rfl⟩

/-- Loaded once more, the module imports the whole of the other. -/
theorem cached_outcome_blank :
    plain.outcome blankVisit = .ok [⟨"app", [.single ⟨"lib", ""⟩], [], []⟩] ∧
    ((caching 0).after [blankVisit]).outcome blankVisit =
      .ok [⟨"app", [.whole "lib"], [], []⟩] := by
  have hdistinct : Visit.DistinctDigests [blankVisit, blankVisit] := by
    intro v hv u hu content content' hread hread' _
    obtain rfl : v = blankVisit := by simpa using hv
    obtain rfl : u = blankVisit := by simpa using hu
    exact Except.ok.inj (hread.symm.trans hread')
  have hsized : Sized [⟨"app", [.single ⟨"lib", ""⟩], [], []⟩] := by
    intro p hp
    cases hp
    have hbytes : ∀ s ∈ ["v", "m", "n", "app", "i", "lib", "d"], s.utf8ByteSize < 0x100000000 := by
      decide
    simp [hbytes, record, listPart, packImport, packAnnotations,
      textPart, version, Packed.sized_record, Packed.sized_list, Packed.sized_int,
      Packed.sized_text]
  have hcached : (((caching 0).after [blankVisit]).cached? 0
      (keyOf "app.json" blankDocument)).isSome = true := by
    have hkept := cached?_loadFile (l := caching 0) rfl le_rfl finds_blank rfl rfl 0
    exact Option.isSome_of_eq_some hkept
  obtain ⟨hplain, _, _, htyped, _⟩ :=
    (cached_outcome 0 [blankVisit] blankVisit hdistinct).2 _ _ finds_blank hsized
  refine ⟨hplain, (htyped ?_).trans ?_⟩
  · simp [SchemaModule.Typed]
  · exact congrArg Except.ok (if_pos hcached)

end Loader

end SchemaCompiler
