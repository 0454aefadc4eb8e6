import SchemaCompiler.Command.Apply
import SchemaCompiler.Proofs.Replanning
import SchemaCompiler.Proofs.WrittenLocations

/-!
# Planned scripts are applied

Planning and applying find the dialect, the script and the snapshot of a project on their own: one
builds the options of a plan, the other looks into the sections.  Both come to the same, and a plan
that was written leaves behind what the next steps look for.
-/

namespace SchemaCompiler

open Outcome Dialect Path ProjectFile

/-! ## Options of a plan -/

/-- The dialect of a profile is that of its name, also where no name is given. -/
theorem Dialect.ofProfile_name {name : String} {p : Profile} (h : Profile.ofName name = .ok p) :
    ofProfile p.name = ofProfile name := by
  rw [Profile.ofName] at h
  split_ifs at h with hname
  · cases h
    rw [hname]
    rfl
  · split at h
    · rename_i hfind
      cases h
      rw [show p.name = name by simpa using List.find?_some hfind]
    · cases h

namespace ProjectFile

open MigrationPlan

variable {f : ProjectFile} {directory name : String} {o o' : Options} {d : Dialect}

theorem of_withProfile_ok (h : unlessEmpty name withProfile standard = .ok o) :
    ∃ p, Profile.ofName name = .ok p ∧ o = { standard with profile := p } := by
  rw [unlessEmpty] at h
  split_ifs at h with hname
  · cases h
    exact ⟨_, by rw [hname]; rfl, rfl⟩
  · obtain ⟨p, hp, ho⟩ := bind_eq_ok.mp h
    rw [SqlScripts.profileOption] at hp
    split at hp
    · rename_i hfound
      cases hp
      exact ⟨p, hfound, (pure_eq_ok.mp ho).symm⟩
    · cases hp

theorem of_withDialect_ok (ho : o.dialect = none) (h : unlessEmpty name withDialect o = .ok o') :
    (name = "" ∨ ∃ d, ofName? name = some d) ∧
      o' = { o with dialect := ofName? name } := by
  rw [unlessEmpty] at h
  split_ifs at h with hname
  · cases h
    exact ⟨.inl hname, by rw [hname, show ofName? "" = none from rfl, ← ho]⟩
  · rw [withDialect] at h
    split at h
    · rename_i d hfound
      cases h
      exact ⟨.inr ⟨d, hfound⟩, by rw [hfound]⟩
    · cases h

/-- The dialect that the plan section names. -/
def planDialect (f : ProjectFile) : String := (f.plan.map (·.dialect)).getD ""

/-- The options of a plan in terms of the sections. -/
theorem of_planOptions_ok (hdirectory : directory ≠ "") (h : f.planOptions directory = .ok o) :
    ∃ p, Profile.ofName f.planProfile = .ok p ∧
      (f.planDialect = "" ∨ ∃ d, ofName? f.planDialect = some d) ∧
      o = ⟨p, ofName? f.planDialect, join [directory, f.snapshotFile], f.planFile,
        f.snapshotFile, o.allowed, planner⟩ := by
  obtain ⟨start, hprofile, h⟩ := bind_eq_ok.mp h
  obtain ⟨chosen, hdialect, h⟩ := bind_eq_ok.mp h
  obtain ⟨named, hfiles, h⟩ := bind_eq_ok.mp h
  obtain ⟨p, hp, rfl⟩ := of_withProfile_ok hprofile
  rw [show (f.plan.getD .blank).dialect = f.planDialect by unfold planDialect; cases f.plan <;> rfl]
    at hdialect
  obtain ⟨hknown, rfl⟩ := of_withDialect_ok rfl hdialect
  rw [withFiles] at hfiles
  split_ifs at hfiles
  cases hfiles
  rw [if_neg hdirectory] at h
  cases h
  exact ⟨p, hp, hknown, rfl⟩

/-- Both find the profile of the plan section, or else that of the scripts. -/
theorem appliedProfile_eq (f : ProjectFile) : f.appliedProfile = f.planProfile := by
  unfold appliedProfile planProfile
  cases f.plan with
  | none => cases f.sql <;> rfl
  | some plan =>
    by_cases hprofile : plan.profile = ""
    · cases f.sql <;> simp [Option.filter, hprofile]
    · cases f.sql <;> simp [Option.filter, hprofile]

/-- Both take the names of the plan section, and the same names where it has none. -/
theorem appliedFiles_eq (f : ProjectFile) : f.appliedFiles = (f.planFile, f.snapshotFile) := by
  have hfirst (text other : String) :
      firstOf [text, other] = if text = "" then other else text := by
    by_cases hother : other = "" <;> simp [firstOf, hother]
  unfold appliedFiles planFile snapshotFile
  cases f.plan with
  | none => rfl
  | some plan => simp [hfirst]

/-- A plan that has a dialect is applied in it. -/
theorem applyDialect_of_planOptions (happly : ∀ s ∈ f.apply, s.dialect = "")
    (hdirectory : directory ≠ "") (ho : f.planOptions directory = .ok o)
    (hd : dialectOf o = .ok d) : f.applyDialect "" = .ok d.name := by
  obtain ⟨p, hp, hknown, hopts⟩ := of_planOptions_ok hdirectory ho
  have hfirst : firstOf ["", (f.apply.map (·.dialect)).getD "", f.planDialect] = f.planDialect := by
    have hnone : (f.apply.map (·.dialect)).getD "" = "" := by
      cases hsection : f.apply with
      | none => rfl
      | some s => exact happly s hsection
    rw [hnone]
    simp only [firstOf, if_true]
    split_ifs with hempty
    · exact hempty.symm
    · rfl
  rw [applyDialect, ← planDialect, hfirst, appliedProfile_eq]
  rw [hopts, dialectOf] at hd
  obtain hempty | ⟨found, hfound⟩ := hknown
  · rw [hempty] at hd ⊢
    simp only [show ofName? "" = none from rfl, ofProfile_name hp] at hd
    cases hprofile : ofProfile f.planProfile with
    | error failure =>
      rw [hprofile] at hd
      cases hd
    | ok found =>
      rw [hprofile] at hd
      cases hd
      rfl
  · simp only [hfound, Except.ok.injEq] at hd
    subst hd
    have hname : found.name = f.planDialect := by simpa using List.find?_some hfound
    rw [← hname]
    cases found <;> rfl

end ProjectFile

theorem Path.clean_ne_empty (path : String) : clean path ≠ "" := by
  simp only [clean]
  split_ifs with _ hsegments
  · simp
  · simp
  · exact hsegments

theorem CommonFlags.outputDirectory_ne_empty (c : CommonFlags) (f : ProjectFile) :
    c.outputDirectory f ≠ "" := by
  rw [outputDirectory, resolve]
  split_ifs with houtput htarget
  · exact houtput
  · exact htarget
  · simp only [join]
    split
    · simp_all
    · exact clean_ne_empty _
  · simp

/-- Whether a planned script is applied, and how, where the dialect is found. -/
theorem ApplyJob.ofProject_eq_ok_iff {c : CommonFlags} {a : ApplyFlags} {tree : FileTree}
    {f : ProjectFile} {dialect : String} (hdialect : f.applyDialect a.dialect = .ok dialect)
    (hscript : a.script = "") {job : ApplyJob} :
    ofProject c a tree f = .ok job ↔
      firstOf [a.source, (f.apply.map (·.source)).getD ""] ≠ "" ∧
      ∃ content, tree.read (join [c.outputDirectory f, f.appliedFiles.1]) = .ok content ∧
        job = ⟨dialect, firstOf [a.source, (f.apply.map (·.source)).getD ""],
          firstOf [a.schema, (f.apply.map (·.schema)).getD ""], a.direct, a.slow,
          c.verbose, join [c.outputDirectory f, f.appliedFiles.1], content.toText,
          some (join [c.outputDirectory f, f.appliedFiles.2])⟩ := by
  simp only [ofProject, hdialect, hscript, bind, Except.bind, if_true]
  split_ifs with hsource
  · simp [hsource]
  · cases tree.read (join [c.outputDirectory f, f.appliedFiles.1]) with
    | error failure => simp
    | ok content =>
      refine ⟨fun h => ⟨hsource, content, rfl, (Except.ok.inj h).symm⟩, ?_⟩
      rintro ⟨-, _, hread, rfl⟩
      cases hread
      rfl

namespace ProjectFile

open MigrationPlan

/-- A project that can be planned is applied as it was planned: in the dialect of the plan, with the
script and the snapshot that the plan writes.  The snapshot is also where the next plan starts. -/
theorem planned_as_applied {f : ProjectFile} {c : CommonFlags} {a : ApplyFlags} {t : Target}
    (hsection : ∀ s ∈ f.apply, s.dialect = "") (hdialect : a.dialect = "") (hscript : a.script = "")
    (htarget : f.targetOf (c.outputDirectory f) "plan" = .ok t) :
    ∃ o d, f.planOptions (c.outputDirectory f) = .ok o ∧ dialectOf o = .ok d ∧
      t = ⟨"plan", render o d⟩ ∧ f.applyDialect a.dialect = .ok d.name ∧
      o.storedPath = join [c.outputDirectory f, o.snapshotFile] ∧
      (∀ tree job, ApplyJob.ofProject c a tree f = .ok job ↔
        firstOf [a.source, (f.apply.map (·.source)).getD ""] ≠ "" ∧
        ∃ content, tree.read (join [c.outputDirectory f, o.planFile]) = .ok content ∧
          job = ⟨d.name, firstOf [a.source, (f.apply.map (·.source)).getD ""],
            firstOf [a.schema, (f.apply.map (·.schema)).getD ""], a.direct, a.slow, c.verbose,
            join [c.outputDirectory f, o.planFile], content.toText, some o.storedPath⟩) ∧
      ∀ g tree shapes files, (t.render g tree shapes).files = .ok files →
        ∃ s script, Schema.build g o.profile = .ok s ∧
          files = [⟨o.planFile, .text script⟩, ⟨o.snapshotFile, .text (Snapshot.ofSchema s).text⟩] ∧
          ∀ disk verbose written later, files ⊆ written →
            (written.map (·.place (c.outputDirectory f))).Nodup →
            writeOutputs disk (c.outputDirectory f) verbose written = (later, none) →
            later.tree.read (join [c.outputDirectory f, o.planFile]) = .ok (.text script) ∧
            Snapshot.stored later.tree o.storedPath = .ok (.ofSchema s) ∧
            stored o later.tree = .ok (.ofSchema s) := by
  obtain ⟨o, ho, ht⟩ := bind_eq_ok.mp htarget
  obtain ⟨d, hd, rfl⟩ := bind_pure_eq_ok.mp ht
  have hdirectory := c.outputDirectory_ne_empty f
  have happly := applyDialect_of_planOptions hsection hdirectory ho hd
  rw [← hdialect] at happly
  obtain ⟨p, -, -, hopts⟩ := of_planOptions_ok hdirectory ho
  have hfiles : f.appliedFiles = (o.planFile, o.snapshotFile) := by
    rw [appliedFiles_eq, hopts]
  have hstored : o.storedPath = join [c.outputDirectory f, o.snapshotFile] := by rw [hopts]
  refine ⟨o, d, ho, hd, rfl, happly, hstored, fun tree job => ?_, ?_⟩
  · rw [ApplyJob.ofProject_eq_ok_iff happly hscript, hfiles, ← hstored]
  · intro g tree shapes files hfiles
    obtain ⟨s, hbuild, hschema⟩ := of_render_ok hfiles
    obtain ⟨-, -, -, script, -, rfl⟩ := of_forSchema_ok hschema
    refine ⟨s, script, hbuild, rfl, fun disk verbose written later hsub hplaces hwrite => ?_⟩
    obtain rfl : later = (writeOutputs disk (c.outputDirectory f) verbose written).1 := by
      rw [hwrite]
    have hread {file} hf :=
      read_of_writeOutputs (f := file) hplaces (congrArg Prod.snd hwrite) (hsub hf)
    have hlast := hread (.tail _ (.head _))
    rw [← hstored] at hlast
    have hgiven := Snapshot.listsGiven_ofSchema s
    exact ⟨hread (.head _), Snapshot.stored_of_read hgiven hlast, stored_of_read hgiven hlast⟩

def toShop : ApplyFlags := ⟨"", "shop", "", false, 0, ""⟩

/-- A project with a file for its plan and a profile for its scripts. -/
def shopProject : ProjectFile :=
  { empty with
    plan := some ⟨"", "", "up.sql", "", none⟩
    sql := some ⟨"mysql", none, "", "", "", none⟩ }

/-- The plan is written to the file of its section in the profile of the scripts, and this is what
is applied; the snapshot has the name that is common to both. -/
theorem planned_as_applied_shop :
    (∃ t, shopProject.targetOf "db" "plan" = .ok t) ∧
      ApplyJob.ofProject ⟨"", [], [], [], "db", false, false, ""⟩ toShop
        (.directory [("db", .directory [("up.sql", .file (.text "SELECT 1"))])]) shopProject =
      .ok ⟨"mysql", "shop", "", false, 0, false, "db/up.sql", "SELECT 1",
        some "db/schema.snapshot.json"⟩ := by
  obtain ⟨t, htarget⟩ : ∃ t, shopProject.targetOf "db" "plan" = .ok t := ⟨_, rfl⟩
  obtain ⟨o, d, ho, hd, -, -, -, happly, -⟩ := planned_as_applied
    (c := ⟨"", [], [], [], "db", false, false, ""⟩) (a := toShop) (fun _ h => by cases h) rfl rfl
    htarget
  cases ho
  cases hd
  exact ⟨⟨t, htarget⟩, (happly _ _).mpr ⟨by decide, _, rfl, rfl⟩⟩

end ProjectFile

end SchemaCompiler
