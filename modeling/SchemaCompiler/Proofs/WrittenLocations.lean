import SchemaCompiler.Output.Target
import SchemaCompiler.Proofs.Keyed
import SchemaCompiler.Proofs.Outcome

/-!
# Where outputs are written

The files of all targets have different paths, but a path can be spelled in many ways: dot
segments, doubled slashes and parent segments vanish when it is joined to the output directory.
Below one directory two accepted paths lead to one location exactly when they are equal once they
are cleaned.  Files that were written at places of their own are read back.
-/

namespace SchemaCompiler

open List Path FileTree Text

/-! ## Pieces of text -/

namespace Text

theorem pieces_eq_splitOn (sep : Char) (text : List Char) : pieces sep text = text.splitOn sep := by
  induction text with
  | nil => rfl
  | cons c rest ih =>
    rw [pieces, ih, splitOn_cons_eq_if_modifyHead]
    by_cases hsep : c = sep
    · rw [if_pos hsep, if_pos (beq_iff_eq.mpr hsep)]
    · rw [if_neg hsep, if_neg (mt beq_iff_eq.mp hsep)]
      cases hpieces : rest.splitOn sep with
      | nil => exact absurd hpieces (splitOn_ne_nil sep rest)
      | cons first others => rfl

theorem splitOn_append (left right : String) :
    splitOn '/' (left ++ "/" ++ right) = splitOn '/' left ++ splitOn '/' right := by
  have htext : (left ++ "/" ++ right).toList = left.toList ++ '/' :: right.toList := by simp
  simp only [splitOn, pieces_eq_splitOn, htext, splitOn_append_cons_self, map_append]

theorem not_mem_of_mem_pieces {sep : Char} {text piece : List Char} (h : piece ∈ pieces sep text) :
    sep ∉ piece := by
  induction text generalizing piece with
  | nil => simp_all [pieces]
  | cons c rest ih =>
    rw [pieces] at h
    cases hpieces : pieces sep rest <;> grind

/-- Pieces that are not empty can be read off the text that joins them. -/
theorem joinWith_inj {left right : List String}
    (hleft : ∀ s ∈ left, s ≠ "" ∧ '/' ∉ s.toList) (hright : ∀ s ∈ right, s ≠ "" ∧ '/' ∉ s.toList) :
    joinWith "/" left = joinWith "/" right ↔ left = right := by
  have hread (parts : List String) (h : ∀ s ∈ parts, s ≠ "" ∧ '/' ∉ s.toList) :
      ((joinWith "/" parts).toList.splitOn '/').filter (· ≠ []) = parts.map String.toList := by
    rw [joinWith, String.toList_intercalate]
    cases parts with
    | nil => rfl
    | cons first rest =>
      change (List.splitOn '/' (['/'].intercalate _)).filter _ = _
      rw [splitOn_intercalate, filter_eq_self]
      all_goals simp_all
  constructor
  · intro hjoin
    have hmap := hread left hleft
    rw [hjoin, hread right hright] at hmap
    exact (map_injective_iff.mpr (fun _ _ => String.toList_injective) hmap).symm
  · rintro rfl
    rfl

end Text

/-! ## Cleaned paths -/

namespace Path

variable {rooted : Bool} {done : List String} {segment p q : String}

/-- What a segment of a cleaned path can be. -/
def IsSegment (s : String) : Prop := s ≠ "" ∧ s ≠ "." ∧ '/' ∉ s.toList

theorem isSegment_of_mem_cleanSegments : ∀ s ∈ cleanSegments p, IsSegment s := by
  have hpieces : ∀ s ∈ splitOn '/' p, '/' ∉ s.toList := by
    intro s hs
    obtain ⟨piece, hpiece, rfl⟩ := mem_map.mp hs
    simpa using not_mem_of_mem_pieces hpiece
  have hdots : IsSegment ".." := by simp [IsSegment]
  simp only [cleanSegments, mem_reverse]
  refine foldlRecOn (motive := fun done => ∀ s ∈ done, IsSegment s) _ _ (by simp)
    fun done hdone segment hsegment => ?_
  have hslash := hpieces segment hsegment
  unfold cleanStep
  grind [IsSegment]

/-- Paths that are both absolute or both relative are cleaned alike exactly when
their segments are. -/
theorem clean_eq_clean_iff (h : isAbsolute p = isAbsolute q) :
    clean p = clean q ↔ cleanSegments p = cleanSegments q := by
  have hparts (p : String) : ∀ s ∈ cleanSegments p, s ≠ "" ∧ '/' ∉ s.toList := fun s hs =>
    ⟨(isSegment_of_mem_cleanSegments s hs).1, (isSegment_of_mem_cleanSegments s hs).2.2⟩
  have hdot (p : String) : joinWith "/" (cleanSegments p) ≠ "." := by
    intro hdot
    have hsegments : cleanSegments p = ["."] :=
      (joinWith_inj (hparts p) (by simp)).mp (hdot.trans String.intercalate_singleton.symm)
    have hmem : "." ∈ cleanSegments p := by simp [hsegments]
    exact (isSegment_of_mem_cleanSegments _ hmem).2.1 rfl
  rw [← joinWith_inj (hparts p) (hparts q)]
  simp only [clean, h]
  split_ifs with hroot hp hq hq
  · exact String.append_right_inj "/"
  · simp [hp, hq]
  · exact iff_of_false (hdot q).symm (by rw [hp]; exact Ne.symm hq)
  · exact iff_of_false (hdot p) (by rw [hq]; exact hp)
  · rfl

/-! ## Paths below a directory -/

theorem parent_mem_foldl (segments : List String) (h : ".." ∈ done) :
    ".." ∈ segments.foldl (cleanStep rooted) done := by
  refine foldlRecOn (motive := (".." ∈ ·)) segments _ h fun done hdone segment _ => ?_
  unfold cleanStep
  grind

/-- Parent segments that are left over stand at the start. -/
theorem parent_first (segments : List String) :
    ".." ∈ segments.foldl (cleanStep false) [] →
      (segments.foldl (cleanStep false) []).getLast? = some ".." := by
  refine foldlRecOn (motive := fun (done : List String) =>
    ".." ∈ done → done.getLast? = some "..") segments _ (by simp) fun done hdone segment _ => ?_
  unfold cleanStep
  grind

/-- A path that never leaves the directory is cleaned on top of it. -/
theorem foldl_cleanStep_append (segments below : List String)
    (h : ".." ∉ segments.foldl (cleanStep false) done) :
    segments.foldl (cleanStep rooted) (done ++ below) =
      segments.foldl (cleanStep false) done ++ below := by
  induction segments generalizing done with
  | nil => rfl
  | cons segment rest ih =>
    have hnext : ".." ∉ cleanStep false done segment := mt (parent_mem_foldl rest) h
    have hstep : cleanStep rooted (done ++ below) segment =
        cleanStep false done segment ++ below := by
      unfold cleanStep at hnext ⊢
      cases done <;> grind
    rw [foldl_cons, hstep, ih h, foldl_cons]

theorem cleanSegments_append {directory : String} (hdirectory : directory ≠ "")
    (hp : isLocal p = true) :
    isAbsolute (directory ++ "/" ++ p) = isAbsolute directory ∧
      cleanSegments (directory ++ "/" ++ p) = cleanSegments directory ++ cleanSegments p := by
  have habsolute : isAbsolute (directory ++ "/" ++ p) = isAbsolute directory := by
    cases hchars : directory.toList with
    | nil => exact absurd (String.toList_eq_nil_iff.mp hchars) hdirectory
    | cons c rest => simp [isAbsolute, startsWith, hchars, isPrefixOf]
  refine ⟨habsolute, ?_⟩
  simp only [isLocal, Bool.and_eq_true, Bool.not_eq_true', decide_eq_true_eq] at hp
  obtain ⟨⟨hne, hrelative⟩, hhead⟩ := hp
  rw [cleanSegments, head?_reverse, hrelative] at hhead
  have hparent := mt (parent_first _) hhead
  rw [cleanSegments, habsolute, splitOn_append, foldl_append, cleanSegments, cleanSegments,
    hrelative, ← reverse_append, ← foldl_cleanStep_append _ _ hparent, nil_append]

/-- Below one directory, paths lead to one location exactly when they are one path. -/
theorem join_eq_join_iff {directory : String} (hdirectory : directory ≠ "") (hp : isLocal p = true)
    (hq : isLocal q = true) :
    join [directory, p] = join [directory, q] ↔ clean p = clean q := by
  have hjoin {p : String} (hp : isLocal p = true) :
      join [directory, p] = clean (directory ++ "/" ++ p) := by
    have hne : p ≠ "" := by
      rintro rfl
      simp [isLocal] at hp
    simp [join, hdirectory, hne, joinWith]
  have hrelative {p : String} (hp : isLocal p = true) : isAbsolute p = false := by
    simp only [isLocal, Bool.and_eq_true, Bool.not_eq_true'] at hp
    exact hp.1.2
  obtain ⟨hpabsolute, hpsegments⟩ := cleanSegments_append hdirectory hp
  obtain ⟨hqabsolute, hqsegments⟩ := cleanSegments_append hdirectory hq
  rw [hjoin hp, hjoin hq, clean_eq_clean_iff (hpabsolute.trans hqabsolute.symm), hpsegments,
    hqsegments, append_cancel_left_eq,
    clean_eq_clean_iff ((hrelative hp).trans (hrelative hq).symm)]

end Path

/-! ## File trees -/

namespace FileTree

variable {tree tree' new : FileTree} {path other name : String} {content : Content}

theorem atSegments_insert {entries : List (String × FileTree)} (first : String)
    (rest : List String) :
    (directory (Keyed.insert name new entries)).atSegments (first :: rest) =
      if first = name then new.atSegments rest
      else (directory entries).atSegments (first :: rest) := by
  rw [atSegments, atSegments, Keyed.find?_insert]
  split_ifs <;> rfl

/-- A node that was put is found, and the files at other places are too. -/
theorem atSegments_of_putSegments_ok {way : List String}
    (h : putSegments new tree way = .ok tree') :
    tree'.atSegments way = .ok new ∧ ∀ other content, other ≠ way →
      tree.atSegments other = .ok (file content) → tree'.atSegments other = .ok (file content) := by
  fun_induction putSegments new tree way generalizing tree' with
  | case1 | case3 | case5 | case6 => cases h
  | case2 =>
    cases h
    refine ⟨by rw [atSegments], fun other content hne hother => ?_⟩
    obtain ⟨_, _, rfl⟩ := exists_cons_of_ne_nil hne
    cases hother
  | case4 entries name hfind =>
    cases h
    refine ⟨by rw [atSegments_insert, if_pos rfl, atSegments], ?_⟩
    rintro (_ | ⟨first, rest⟩) content hne hother
    · cases hother
    · rw [atSegments_insert, if_neg, hother]
      rintro rfl
      rw [atSegments, hfind] at hother
      cases hother
  | case7 entries name old rest hfind node hput ih =>
    cases h
    obtain ⟨hfound, hkept⟩ := ih hput
    refine ⟨by rw [atSegments_insert, if_pos rfl, hfound], ?_⟩
    rintro (_ | ⟨first, others⟩) content hne hother
    · cases hother
    · rw [atSegments_insert]
      split_ifs with hfirst
      · subst hfirst
        rw [atSegments, hfind] at hother
        exact hkept others content (fun hrest => hne (by rw [hrest])) hother
      · exact hother

theorem read_eq_ok_iff : tree.read path = .ok content ↔
    path ≠ "" ∧ tree.atSegments (segments path) = .ok (file content) := by
  rw [read, at?]
  split_ifs with hpath
  · simp [hpath]
  · cases tree.atSegments (segments path) with
    | error => simp [hpath]
    | ok node => cases node <;> simp [hpath]

theorem read_of_write_ok (h : tree.write path content = .ok tree') :
    tree'.read path = .ok content ∧ ∀ other kept, segments other ≠ segments path →
      tree.read other = .ok kept → tree'.read other = .ok kept := by
  rw [write] at h
  split_ifs at h with hpath
  split at h
  · cases h
  · rename_i hput
    cases h
    obtain ⟨hnew, hold⟩ := atSegments_of_putSegments_ok hput
    refine ⟨read_eq_ok_iff.mpr ⟨hpath, hnew⟩, fun other kept hne hread => ?_⟩
    obtain ⟨hother, hfound⟩ := read_eq_ok_iff.mp hread
    exact read_eq_ok_iff.mpr ⟨hother, hold _ _ hne hfound⟩

/-- Making directories touches no file. -/
theorem read_of_makeDirectories_ok (h : tree.makeDirectories path = .ok tree')
    (hread : tree.read other = .ok content) : tree'.read other = .ok content := by
  rw [makeDirectories] at h
  split_ifs at h
  refine Outcome.of_foldlM_ok (P := fun tree => tree.read other = .ok content) ?_ hread h
  intro tree leading tree' hmem hread hmake
  have hleading : leading ≠ "" := by simpa using (mem_filter.mp hmem).2
  rw [read_eq_ok_iff] at hread ⊢
  rw [makeDirectory] at hmake
  split at hmake
  · cases hmake
    exact hread
  · cases hmake
  · rename_i hfault
    split at hmake
    · cases hmake
    · rename_i hput
      cases hmake
      refine hread.imp_right ((atSegments_of_putSegments_ok hput).2 _ _ ?_)
      intro hsame
      rw [at?, if_neg hleading, ← hsame, hread.2] at hfault
      cases hfault

end FileTree

/-! ## Generated and written files -/

variable {files : List OutputFile} {directory : String} {verbose : Bool}

theorem Writing.writeFiles_cons {w : Writing} {f : OutputFile}
    (h : (w.writeFiles directory verbose (f :: files)).2 = none) :
    ∃ next, w.writeFile directory verbose f = (next, none) ∧
      w.writeFiles directory verbose (f :: files) = next.writeFiles directory verbose files := by
  rw [writeFiles] at h ⊢
  split at h
  · cases h
  · rename_i next hfile
    exact ⟨next, hfile, rfl⟩

theorem Writing.isLocal_of_writeFiles {w : Writing}
    (h : (w.writeFiles directory verbose files).2 = none) :
    ∀ f ∈ files, isLocal f.path = true := by
  induction files generalizing w with
  | nil => simp
  | cons f rest ih =>
    obtain ⟨next, hfile, hrun⟩ := writeFiles_cons h
    refine forall_mem_cons.mpr ⟨?_, ih (hrun ▸ h)⟩
    by_contra hlocal
    rw [writeFile, if_pos (by simpa using hlocal)] at hfile
    cases hfile

theorem accepted_of_writeOutputs {disk : FileTree}
    (h : (writeOutputs disk directory verbose files).2 = none) :
    directory ≠ "" ∧ ∀ f ∈ files, isLocal f.path = true := by
  unfold writeOutputs at h
  split at h
  · cases h
  · rename_i tree htree
    refine ⟨?_, Writing.isLocal_of_writeFiles h⟩
    rintro rfl
    cases htree

/-- The place of a file below a directory. -/
def OutputFile.place (directory : String) (f : OutputFile) : List String :=
  segments (join [directory, f.path])

theorem Writing.read_of_writeFile {w next : Writing} {f : OutputFile}
    (h : w.writeFile directory verbose f = (next, none)) :
    next.tree.read (join [directory, f.path]) = .ok f.content ∧
      ∀ path kept, segments path ≠ f.place directory → w.tree.read path = .ok kept →
        next.tree.read path = .ok kept := by
  rw [writeFile] at h
  split at h
  · cases h
  · dsimp only at h
    split at h
    · cases h
    · rename_i tree hmake
      split at h
      · cases h
      · rename_i hwrite
        cases h
        obtain ⟨hnew, hold⟩ := read_of_write_ok hwrite
        exact ⟨hnew, fun path kept hne hread =>
          hold path kept hne (read_of_makeDirectories_ok hmake hread)⟩

theorem Writing.read_of_writeFiles {w : Writing} (hplaces : (files.map (·.place directory)).Nodup)
    (h : (w.writeFiles directory verbose files).2 = none) :
    (∀ f ∈ files, (w.writeFiles directory verbose files).1.tree.read
        (join [directory, f.path]) = .ok f.content) ∧
      ∀ path kept, segments path ∉ files.map (·.place directory) →
        w.tree.read path = .ok kept →
        (w.writeFiles directory verbose files).1.tree.read path = .ok kept := by
  induction files generalizing w with
  | nil => exact ⟨forall_mem_nil _, fun _ _ _ hread => hread⟩
  | cons f rest ih =>
    rw [map_cons, nodup_cons] at hplaces
    obtain ⟨next, hfile, hrun⟩ := writeFiles_cons h
    rw [hrun] at h ⊢
    obtain ⟨hnew, hold⟩ := read_of_writeFile hfile
    obtain ⟨hrest, hkept⟩ := ih hplaces.2 h
    refine ⟨forall_mem_cons.mpr ⟨hkept _ _ hplaces.1 hnew, hrest⟩, ?_⟩
    intro path kept hpath hread
    obtain ⟨hne, hmem⟩ := not_or.mp (mt mem_cons.mpr hpath)
    exact hkept path kept hmem (hold path kept hne hread)

/-- Files that are all written, each at a place of its own, are all read back. -/
theorem read_of_writeOutputs {disk : FileTree} (hplaces : (files.map (·.place directory)).Nodup)
    (h : (writeOutputs disk directory verbose files).2 = none) {f : OutputFile} (hf : f ∈ files) :
    (writeOutputs disk directory verbose files).1.tree.read (join [directory, f.path]) =
      .ok f.content := by
  unfold writeOutputs at h ⊢
  split at h
  · cases h
  · exact (Writing.read_of_writeFiles hplaces h).1 f hf

namespace Target

theorem nodup_of_distinct {seen : List (String × String)} {items : List (String × OutputFile)}
    (h : distinct seen items = .ok files) :
    (files.map (·.path)).Nodup ∧ ∀ f ∈ files, seen.lookup f.path = none := by
  induction items generalizing seen files with
  | nil =>
    cases h
    simp
  | cons item rest ih =>
    obtain ⟨target, f⟩ := item
    rw [distinct] at h
    split at h
    · cases h
    · rename_i hnew
      split at h
      · cases h
      · rename_i more hmore
        cases h
        obtain ⟨hnodup, hseen⟩ := ih hmore
        simp only [lookup_cons] at hseen
        refine ⟨nodup_cons.mpr ⟨?_, hnodup⟩, forall_mem_cons.mpr ⟨hnew, ?_⟩⟩
        · intro hmem
          obtain ⟨other, hother, hpath⟩ := mem_map.mp hmem
          simpa [hpath] using hseen other hother
        · intro other hother
          have hnone := hseen other hother
          split at hnone
          · cases hnone
          · exact hnone

theorem nodup_of_generate {g : Graph} {tree : FileTree} {targets : List Target}
    (h : (generate g tree targets).2 = .ok files) : (files.map (·.path)).Nodup := by
  unfold generate at h
  split_ifs at h
  obtain ⟨found, _, hdistinct⟩ := Outcome.bind_eq_ok.mp h
  exact (nodup_of_distinct hdistinct).1

/-- Generated files that are all written have locations of their own exactly when their paths
differ once they are cleaned, as they do when the targets give clean paths. -/
theorem written_locations_nodup_iff {g : Graph} {tree disk : FileTree} {targets : List Target}
    (hgenerate : (generate g tree targets).2 = .ok files)
    (hwrite : (writeOutputs disk directory verbose files).2 = none) :
    ((files.map fun f => join [directory, f.path]).Nodup ↔
      (files.map fun f => clean f.path).Nodup) ∧
    ((∀ f ∈ files, clean f.path = f.path) →
      (files.map fun f => join [directory, f.path]).Nodup) := by
  obtain ⟨hdirectory, hlocal⟩ := accepted_of_writeOutputs hwrite
  have hiff : (files.map fun f => join [directory, f.path]).Nodup ↔
      (files.map fun f => clean f.path).Nodup := by
    simp only [nodup_iff_pairwise_ne, pairwise_map]
    refine Pairwise.iff_of_mem fun hf hg => not_congr ?_
    exact join_eq_join_iff hdirectory (hlocal _ hf) (hlocal _ hg)
  refine ⟨hiff, fun hclean => hiff.mpr ?_⟩
  rw [map_congr_left hclean]
  exact nodup_of_generate hgenerate

def twoSpellings : List OutputFile :=
  [⟨"a.txt", .text "1"⟩, ⟨"./a.txt", .text "2"⟩]

/-- One file is written over the other. -/
theorem written_locations_nodup_iff_twoSpellings :
    (generate ⟨.standard, .empty, [], [], ⟨[], []⟩, .empty⟩ .empty
        [.plain "notes" fun _ _ => .ok twoSpellings]).2 = .ok twoSpellings ∧
      (writeOutputs .empty "out" false twoSpellings).2 = none ∧
      ¬(twoSpellings.map fun f => join ["out", f.path]).Nodup := by
  have hgenerate : (generate ⟨.standard, .empty, [], [], ⟨[], []⟩, .empty⟩ .empty
      [.plain "notes" fun _ _ => .ok twoSpellings]).2 = .ok twoSpellings := rfl
  have hwrite : (writeOutputs .empty "out" false twoSpellings).2 = none := rfl
  refine ⟨hgenerate, hwrite, ?_⟩
  rw [(written_locations_nodup_iff hgenerate hwrite).1]
  decide

end Target

end SchemaCompiler
