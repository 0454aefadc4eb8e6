import SchemaCompiler.Proofs.GraphClosure

/-!
# Names that a graph emits

A declaration is emitted under its own name, and an application to arguments
under the name that the tracker has for it or, where it was not recorded, under
the name that it would give it now.  Such a name is not reserved.  Where names
are plain, there are three ways in which two applications come to one name: a
declaration is named like an instance, the name of a declaration extends that of
another one of its module, or of two applications of one declaration one was
never recorded.
-/

namespace SchemaCompiler

open Tracker TypeExpr Instance Resolver

variable {name : String} {u t : TypeExpr} {params : List String} {n : ScopedName} {i : Instance}
  {env : Env}

/-! ## Declarations with plain names -/

/-- Heads with plain names, or parameters out of a list. -/
def TypeRef.PlainOver (params : List String) : TypeRef → Prop
  | .primitive name => PlainName name
  | .reference name => PlainModule name.moduleName ∧ PlainName name.name
  | .param name => name ∈ params

instance (params : List String) : (head : TypeRef) → Decidable (head.PlainOver params)
  | .primitive name => inferInstanceAs (Decidable (PlainName name))
  | .reference name =>
    inferInstanceAs (Decidable (PlainModule name.moduleName ∧ PlainName name.name))
  | .param name => inferInstanceAs (Decidable (name ∈ params))

namespace TypeExpr

/-- All heads have plain names or are parameters out of a list. -/
def PlainOver (params : List String) (t : TypeExpr) : Prop :=
  ∀ s ∈ t.walk, ∀ head ∈ s.head?, head.PlainOver params

instance (params : List String) (t : TypeExpr) : Decidable (t.PlainOver params) :=
  inferInstanceAs (Decidable (∀ s ∈ t.walk, ∀ head ∈ s.head?, head.PlainOver params))

theorem PlainOver.plainPrimitives (h : t.PlainOver params) : t.PlainPrimitives :=
  plainPrimitives_of_heads fun s hs _ hname => h s hs _ hname

/-- Plain expressions for all parameters make a plain expression. -/
theorem PlainOver.plain_substitute (ht : t.PlainOver params)
    (hbound : ∀ name ∈ params, (env.find? name).isSome) (henv : ∀ b ∈ env, b.value.Plain)
    (hu : t.substitute env = .ok u) : u.Plain := by
  intro x hx head hhead
  rcases mem_walk_substitute hu hx with ⟨y, hy, hsame, -, hfree⟩ | ⟨b, hb, -, -, hvalue⟩
  · have hover := ht y hy head (hsame ▸ hhead)
    cases head with
    | primitive name | reference n => exact hover
    | param name =>
      have hsome := hbound name hover
      rw [hfree name hhead] at hsome
      cases hsome
  · exact henv b hb x hvalue head hhead

end TypeExpr

/-- Modules, declarations and all that is written in their bodies have plain
names, and the parameters in a body are those of its declaration. -/
structure Store.PlainlyWritten (s : Store) : Prop where
  keys : ∀ n ∈ s.keys, PlainModule n.moduleName ∧ PlainName n.name
  bodies : ∀ d ∈ s.allDecls, ∀ t ∈ d.decl.body.typeExprs, t.PlainOver d.decl.params

theorem Store.PlainlyWritten.plainlyNamed {s : Store} (h : s.PlainlyWritten) :
    s.PlainlyNamed where
  keys := h.keys
  primitives := fun d hd t ht => (h.bodies d hd t ht).plainPrimitives

theorem Env.isSome_find?_of_bind_ok {args : List TypeExpr} (h : Env.bind n params args = .ok env)
    (hname : name ∈ params) : (env.find? name).isSome := by
  obtain ⟨hlength, rfl⟩ := Env.bind_eq_ok.mp h
  obtain ⟨value, hvalue⟩ := Env.exists_find?_of_mem_params hlength hname
  rw [hvalue]
  rfl

/-- Replacing an alias or a new type keeps an expression plain. -/
theorem Resolver.plain_of_expandOnce {r : Resolver} (hstore : r.store.PlainlyWritten)
    {next : TypeExpr} (ht : t.Plain) (h : r.expandOnce t = .ok (some next)) : next.Plain := by
  obtain ⟨n, d, target, env, hn, hd, htarget, henv, hu⟩ := exists_of_expandOnce_ok h
  rw [eq_app_of_reference? hn, plain_app] at ht
  refine (hstore.bodies d (Store.mem_allDecls_of_resolve_ok hd) target
    (Body.target_mem_typeExprs htarget)).plain_substitute ?_ ?_ hu
  · exact fun name hname => Env.isSome_find?_of_bind_ok henv hname
  · exact fun b hb => ht.2 _ (Env.value_mem_of_bind_ok henv hb)

/-- The readable name of an application with the hash of its text. -/
def Instance.Hashed (u : TypeExpr) (name : String) : Prop :=
  ∃ readable, readableName u = .ok readable ∧
    name = readable ++ "_" ++ Text.hashDigits u.scopedText

theorem Instance.hashed_of_uniqueName {others : List Instance}
    (h : uniqueName others u = .ok i.name) (hi : i ∈ others) (hnew : ∀ j ∈ others, j.typeExpr ≠ u) :
    Hashed u i.name := by
  unfold uniqueName at h
  split at h
  · cases h
  · rename_i readable hreadable
    refine ⟨readable, hreadable, ?_⟩
    split at h
    · rename_i hfree
      have hne := List.find?_eq_none.mp hfree i hi
      have hsame : i.name = readable := (Except.ok.inj h).symm
      exact absurd hsame (by simpa using hne)
    · rename_i j hj
      rw [if_neg (hnew j (List.mem_of_find?_eq_some hj))] at h
      exact (Except.ok.inj h).symm

namespace Graph

variable {g : Graph}

/-! ## Names of applications -/

/-- The name that an application goes by: that of the declaration, or for one
with arguments the name that the tracker has for it. -/
inductive Emits (g : Graph) : TypeExpr → ScopedName → Prop
  | declared (n : ScopedName) : Emits g (.app (.reference n) []) n
  | applied {m n : ScopedName} {args : List TypeExpr} (hargs : args ≠ [])
      (hmodule : m.moduleName = n.moduleName)
      (hname : g.tracker.nameOf (.app (.reference m) args) = .ok n.name) :
      Emits g (.app (.reference m) args) n

/-- The tracker has an instance of the application. -/
def Recorded (g : Graph) (u : TypeExpr) : Prop :=
  ∃ i ∈ g.tracker.recorded, i.typeExpr = u

/-- The graph has the declaration or an instance of the application. -/
def Has (g : Graph) (u : TypeExpr) : Prop :=
  (∃ p ∈ g.decls, u = .app (.reference p.name) []) ∨ g.Recorded u

/-- The ways in which two applications come to one name. -/
inductive Clash (g : Graph) (n : ScopedName) : TypeExpr → TypeExpr → Prop
  /-- A declaration is named like an application of another one. -/
  | declared {m : ScopedName} {args : List TypeExpr} (hargs : args ≠ [])
      (hmodule : m.moduleName = n.moduleName) (hname : Extends n.name ("_" ++ m.name)) :
      Clash g n (.app (.reference n) []) (.app (.reference m) args)
  /-- The name of the one declaration extends that of the other. -/
  | extended {m k : ScopedName} {args bs : List TypeExpr} (hargs : args ≠ []) (hbs : bs ≠ [])
      (hmodule : m.moduleName = k.moduleName) (hname : Extends m.name k.name) :
      Clash g n (.app (.reference m) args) (.app (.reference k) bs)
  /-- Of two applications of one declaration the second is not recorded; it does
  not take the name of a recorded one but by its hash. -/
  | unrecorded {m : ScopedName} {args bs : List TypeExpr} (hne : args ≠ bs)
      (hopen : ¬ g.Recorded (.app (.reference m) bs))
      (hhash : g.Recorded (.app (.reference m) args) →
        Hashed (.app (.reference m) bs) n.name) :
      Clash g n (.app (.reference m) args) (.app (.reference m) bs)
  | symm {x y : TypeExpr} (h : Clash g n x y) : Clash g n y x

section Tables

variable (h : g.Built) (hstore : g.store.Indexed) {m : ScopedName} {args : List TypeExpr}
  {x : TypeExpr}
include h

theorem Built.consistent : g.tracker.Consistent := by
  have hrun : (empty.run g.resolver g.decls).1 = g.tracker := by rw [h.run]
  rw [← hrun]
  exact consistent_empty.run g.decls

theorem Built.needed_of_recorded (hu : g.Recorded u) : Tracker.Needed g.resolver g.decls u := by
  obtain ⟨i, hi, rfl⟩ := hu
  obtain ⟨_, all, hcompletes⟩ := completes_of_run consistent_empty h.run
  have htypes : (g.tracker.recorded.map (·.typeExpr)).Perm (all.map (·.typeExpr)) :=
    hcompletes.map_recorded_perm fun _ => rfl
  obtain ⟨j, hj, htype⟩ := List.mem_map.mp (htypes.mem_iff.mp (List.mem_map_of_mem hi))
  exact htype ▸ hcompletes.needed hj

/-- An application that is not recorded has the name of an instance of its
declaration only with its hash. -/
theorem Built.hashed_of_recorded {bs : List TypeExpr} (hi : i ∈ g.tracker.recorded)
    (htype : i.typeExpr = .app (.reference m) args) (hopen : ¬ g.Recorded (.app (.reference m) bs))
    (hname : uniqueName (g.tracker.siblings m) (.app (.reference m) bs) = .ok i.name) :
    Hashed (.app (.reference m) bs) i.name := by
  have hmem {j : Instance} := mem_siblings h.consistent.filed (g := m) (i := j)
  have hgeneric : i.generic = m := by
    rw [h.consistent.generic_of_mem hi, htype]
    rfl
  refine hashed_of_uniqueName hname (hmem.mpr ⟨hi, hgeneric⟩) ?_
  intro j hj hjtype
  exact hopen ⟨j, (hmem.mp hj).1, hjtype⟩

include hstore

/-- What the graph needs are applications with arguments. -/
theorem Built.exists_args_of_needed (hu : Tracker.Needed g.resolver g.decls u) :
    ∃ n args, u = .app (.reference n) args ∧ args ≠ [] := by
  cases hu with
  | root hp _ hf hu =>
    obtain ⟨_, _, _, hq, rfl, _⟩ := h.exists_project hstore hp
    obtain ⟨_, _, hconcrete⟩ := exists_concreteField_of_mem_project hq hf
    obtain ⟨_, n, args, rfl, hargs, _⟩ := core_of_application hconcrete hu
    exact ⟨n, args, rfl, hargs⟩
  | step _ hlead =>
    obtain ⟨_, hq, f, hf, hv⟩ := hlead
    obtain ⟨_, _, _, _, _, _, _, _, hq', rfl⟩ := exists_of_projectType_ok hq
    obtain ⟨_, _, hconcrete⟩ := exists_concreteField_of_mem_project hq' hf
    obtain ⟨_, n, args, rfl, hargs, _⟩ := core_of_application hconcrete hv
    exact ⟨n, args, rfl, hargs⟩

variable (hplain : g.store.PlainlyWritten)
include hplain

/-- What the graph has is plain. -/
theorem Built.plain_of_has (hu : g.Has u) : u.Plain := by
  have hprojects : ∀ p ∈ g.decls, g.resolver.Projects p := by
    intro p hp
    obtain ⟨d, q, hd, hq, hmarked, _⟩ := h.exists_project hstore hp
    refine ⟨d, [], q, ⟨Store.mem_allDecls_of_resolve_ok hd, nofun⟩, hq, ?_⟩
    rw [hmarked]
    rfl
  rcases hu with ⟨p, hp, rfl⟩ | hrecorded
  · obtain ⟨d, _, hd, _⟩ := h.exists_project hstore hp
    exact plain_app.mpr ⟨hplain.keys _ (Store.mem_keys_of_resolve_ok hd), nofun⟩
  · exact plain_of_needed hplain.plainlyNamed hprojects (h.needed_of_recorded hrecorded)

/-- The names that the tracker keeps are those of the recorded applications. -/
theorem Built.exists_recorded_of_lookup (hx : x.Plain)
    (hlookup : g.tracker.names.lookup x.scopedText = some name) :
    ∃ i ∈ g.tracker.recorded, i.typeExpr = x ∧ i.name = name := by
  obtain ⟨face, hface, htext, hname⟩ := (h.consistent.lookup_iff _ _).mp hlookup
  obtain ⟨i, hi, rfl⟩ := List.mem_map.mp hface
  have hi' : i.typeExpr.Plain := h.plain_of_has hstore hplain (.inr ⟨i, hi, rfl⟩)
  exact ⟨i, hi, eq_of_scopedText_eq hi' hx htext, hname⟩

/-- A recorded application goes by the name of its instance, and any other by
the one that it would be given among the instances of its declaration. -/
theorem Built.name_cases (hx : (app (.reference m) args).Plain)
    (hname : g.tracker.nameOf (.app (.reference m) args) = .ok name) :
    (∃ i ∈ g.tracker.recorded, i.typeExpr = .app (.reference m) args ∧ i.name = name) ∨
    ¬ g.Recorded (.app (.reference m) args) ∧
      uniqueName (g.tracker.siblings m) (.app (.reference m) args) = .ok name := by
  rw [nameOf] at hname
  cases hlookup : g.tracker.names.lookup (app (.reference m) args).scopedText with
  | some found =>
    rw [hlookup] at hname
    cases hname
    exact .inl (h.exists_recorded_of_lookup hstore hplain hx hlookup)
  | none =>
    rw [hlookup] at hname
    refine .inr ⟨?_, hname⟩
    rintro ⟨i, hi, htype⟩
    have hfound := h.consistent.lookup_of_mem hi
    rw [htype, hlookup] at hfound
    cases hfound

theorem Built.declaration_starts (hx : (app (.reference m) args).Plain) (hargs : args ≠ [])
    (hname : g.tracker.nameOf (.app (.reference m) args) = .ok name) :
    '_' :: (m.name.toList ++ ['_']) <+: name.toList := by
  obtain ⟨a, as, rfl⟩ := List.exists_cons_of_ne_nil hargs
  rcases h.name_cases hstore hplain hx hname with ⟨i, hi, htype, rfl⟩ | ⟨_, hunique⟩
  · obtain ⟨others, hunique⟩ := h.consistent.named _ (mem_faces hi)
    rw [face_typeExpr, htype] at hunique
    exact declaration_starts_uniqueName hunique
  · exact declaration_starts_uniqueName hunique

/-- Two applications of one declaration and one name. -/
theorem Built.eq_or_clash_of_same {bs : List TypeExpr}
    (hx : (app (.reference m) args).Plain) (hy : (app (.reference m) bs).Plain)
    (hxname : g.tracker.nameOf (.app (.reference m) args) = .ok n.name)
    (hyname : g.tracker.nameOf (.app (.reference m) bs) = .ok n.name) :
    args = bs ∨ g.Clash n (.app (.reference m) args) (.app (.reference m) bs) := by
  by_cases hne : args = bs
  · exact .inl hne
  rcases h.name_cases hstore hplain hx hxname with ⟨i, hi, hitype, hiname⟩ | ⟨hxopen, hxunique⟩
  · rcases h.name_cases hstore hplain hy hyname with ⟨j, hj, hjtype, hjname⟩ | ⟨hyopen, hyunique⟩
    · have hgeneric : i.generic = j.generic := by
        rw [h.consistent.generic_of_mem hi, h.consistent.generic_of_mem hj, hitype, hjtype]
        rfl
      have hij := h.consistent.eq_of_name_eq hi hj hgeneric (hiname.trans hjname.symm)
      rw [hij, hjtype] at hitype
      injection hitype with _ hargs
      exact .inl hargs.symm
    · rw [← hiname] at hyunique
      have hhash := h.hashed_of_recorded hi hitype hyopen hyunique
      exact .inr (.unrecorded hne hyopen fun _ => hiname ▸ hhash)
  · rcases h.name_cases hstore hplain hy hyname with ⟨j, hj, hjtype, hjname⟩ | ⟨hyopen, _⟩
    · rw [← hjname] at hxunique
      have hhash := h.hashed_of_recorded hj hjtype hxopen hxunique
      exact .inr (.symm (.unrecorded (Ne.symm hne) hxopen fun _ => hjname ▸ hhash))
    · exact .inr (.unrecorded hne hyopen fun hrecorded => absurd hrecorded hxopen)

theorem Built.eq_or_clash {y : TypeExpr} (hx : x.Plain) (hy : y.Plain) (hxn : g.Emits x n)
    (hyn : g.Emits y n) : x = y ∨ g.Clash n x y := by
  have hextends {m : ScopedName}
      (hstart : '_' :: (m.name.toList ++ ['_']) <+: n.name.toList) :
      Extends n.name ("_" ++ m.name) := extends_of_start (by simpa using hstart)
  cases hxn with
  | declared =>
    cases hyn with
    | declared => exact .inl rfl
    | applied hargs hmodule hname =>
      have hstart := h.declaration_starts hstore hplain hy hargs hname
      exact .inr (.declared hargs hmodule (hextends hstart))
  | @applied m _ args hargs hmodule hname =>
    cases hyn with
    | declared =>
      have hstart := h.declaration_starts hstore hplain hx hargs hname
      exact .inr (.symm (.declared hargs hmodule (hextends hstart)))
    | @applied k _ bs hbs hmodule' hname' =>
      have hmodules := hmodule.trans hmodule'.symm
      -- The one name starts with both declarations, each between underscores.
      obtain ⟨more, hmore⟩ := h.declaration_starts hstore hplain hx hargs hname
      obtain ⟨more', hmore'⟩ := h.declaration_starts hstore hplain hy hbs hname'
      rw [← hmore'] at hmore
      rcases eq_or_extends ⟨more, (List.cons.inj hmore).2⟩ ⟨more', rfl⟩ with
        hsame | hlonger | hlonger
      · obtain rfl : m = k := ScopedName.ext hmodules hsame
        refine (h.eq_or_clash_of_same hstore hplain hx hy hname hname').imp_left ?_
        rintro rfl
        rfl
      · exact .inr (.extended hargs hbs hmodules hlonger)
      · exact .inr (.symm (.extended hbs hargs hmodules.symm hlonger))

end Tables

end Graph

end SchemaCompiler
