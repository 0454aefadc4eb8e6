import Mathlib.Data.Prod.Lex
import SchemaCompiler.Closure
import SchemaCompiler.Proofs.Keyed

/-!
# Declarations and their names

A declaration that is found stands in the module of that name, under the key
that was asked for.  Its own name need not be that key.  Names are ordered by
module, then by name, which is a linear order, so projections with distinct
names have one sorted arrangement.
-/

namespace SchemaCompiler

namespace Store

open List

variable {s : Store} {n : ScopedName} {d : ScopedDecl}

/-- Every declaration carries the name it stands under. -/
def NamedByKeys (s : Store) : Prop :=
  ∀ m ∈ s.modules, ∀ entry ∈ m.decls, entry.2.name = entry.1

instance (s : Store) : Decidable s.NamedByKeys :=
  inferInstanceAs (Decidable (∀ m ∈ s.modules, ∀ entry ∈ m.decls, entry.2.name = entry.1))

theorem exists_of_resolve_ok (h : s.resolve n = .ok d) :
    ∃ m ∈ s.modules, m.name = n.moduleName ∧ d.moduleName = m.name ∧
      (n.name, d.decl) ∈ m.decls := by
  unfold resolve at h
  split at h
  · rename_i found hfound
    obtain rfl : found = d := by simpa using h
    obtain ⟨m, hm, hrest⟩ := Option.bind_eq_some_iff.mp hfound
    obtain ⟨x, hx, hpure⟩ := Option.bind_eq_some_iff.mp hrest
    obtain rfl : (⟨m.name, x⟩ : ScopedDecl) = found := by simpa using hpure
    obtain ⟨before, after, hdecls, _⟩ := lookup_eq_some_iff.mp hx
    refine ⟨m, mem_of_find?_eq_some hm, by simpa using find?_some hm, rfl, ?_⟩
    simp [hdecls]
  · cases h

theorem mem_allDecls_of_resolve_ok (h : s.resolve n = .ok d) : d ∈ s.allDecls := by
  obtain ⟨m, hm, _, hmodule, hdecl⟩ := exists_of_resolve_ok h
  refine mem_flatMap.mpr ⟨m, hm, mem_map.mpr ⟨_, hdecl, ?_⟩⟩
  rw [← hmodule]

theorem mem_keys_of_resolve_ok (h : s.resolve n = .ok d) : n ∈ s.keys := by
  obtain ⟨m, hm, hname, _, hdecl⟩ := exists_of_resolve_ok h
  refine mem_flatMap.mpr ⟨m, hm, mem_map.mpr ⟨_, hdecl, ?_⟩⟩
  rw [hname]

theorem name_eq_of_resolve_ok (hnames : s.NamedByKeys) (h : s.resolve n = .ok d) :
    d.name = n := by
  obtain ⟨m, hm, hname, hmodule, hdecl⟩ := exists_of_resolve_ok h
  have hkey : d.decl.name = n.name := hnames m hm _ hdecl
  rw [ScopedDecl.name, hmodule, hname, hkey]

/-- Every module has a name of its own and every declaration a key of its own,
which is its name. -/
structure Indexed (s : Store) : Prop where
  modules : s.moduleNames.Nodup
  keys : ∀ m ∈ s.modules, (m.decls.map (·.1)).Nodup
  named : s.NamedByKeys

instance (s : Store) : Decidable s.Indexed :=
  decidable_of_iff (s.moduleNames.Nodup ∧ (∀ m ∈ s.modules, (m.decls.map (·.1)).Nodup) ∧
    s.NamedByKeys) ⟨fun ⟨h, h', h''⟩ => ⟨h, h', h''⟩, fun ⟨h, h', h''⟩ => ⟨h, h', h''⟩⟩

theorem module?_of_mem (hmodules : s.moduleNames.Nodup) {m : SchemaModule}
    (hm : m ∈ s.modules) : s.module? m.name = some m := by
  have hsome : (s.module? m.name).isSome := by
    rw [module?, find?_isSome]
    exact ⟨m, hm, by simp⟩
  obtain ⟨found, hfound⟩ := Option.isSome_iff_exists.mp hsome
  have hname : found.name = m.name := by simpa using find?_some hfound
  rw [hfound, inj_on_of_nodup_map hmodules (mem_of_find?_eq_some hfound) hm hname]

/-- Every declaration is found under its key. -/
theorem resolve_key (hmodules : s.moduleNames.Nodup) {m : SchemaModule} (hm : m ∈ s.modules)
    (hkeys : (m.decls.map (·.1)).Nodup) {key : String} {decl : Declaration}
    (hdecl : (key, decl) ∈ m.decls) : s.resolve ⟨m.name, key⟩ = .ok ⟨m.name, decl⟩ := by
  have hmodule := module?_of_mem hmodules hm
  have hfound : m.find? key = some decl := Keyed.find?_of_mem hkeys hdecl
  have hlookup : s.lookup? ⟨m.name, key⟩ = some ⟨m.name, decl⟩ := by
    simp [lookup?, hmodule, hfound]
  rw [resolve, hlookup]

/-- Every declaration is found under its name. -/
theorem Indexed.resolve_name (h : s.Indexed) (hd : d ∈ s.allDecls) :
    s.resolve d.name = .ok d := by
  obtain ⟨m, hm, hentry⟩ := mem_flatMap.mp hd
  obtain ⟨⟨key, decl⟩, hdecl, rfl⟩ := mem_map.mp hentry
  have hkey : decl.name = key := h.named m hm _ hdecl
  rw [ScopedDecl.name, hkey]
  exact resolve_key h.modules hm (h.keys m hm) hdecl

end Store

/-! ## The order of names -/

namespace ScopedName

/-- A name as a pair in lexicographic order. -/
def orderKey (n : ScopedName) : String ×ₗ String :=
  toLex (n.moduleName, n.name)

theorem orderKey_injective : Function.Injective orderKey := by
  rintro ⟨leftModule, left⟩ ⟨rightModule, right⟩ heq
  simpa [orderKey] using heq

theorem lt_iff_orderKey_lt {a b : ScopedName} :
    a.lt b = true ↔ a.orderKey < b.orderKey := by
  rw [orderKey, orderKey, Prod.Lex.toLex_lt_toLex, lt]
  by_cases hmodule : a.moduleName = b.moduleName
  · rw [if_pos hmodule, decide_eq_true_iff]
    constructor
    · exact fun hname => .inr ⟨hmodule, hname⟩
    · rintro (hlt | ⟨_, hname⟩)
      · exact absurd hmodule hlt.ne
      · exact hname
  · rw [if_neg hmodule, decide_eq_true_iff]
    constructor
    · exact .inl
    · rintro (hlt | ⟨heq, _⟩)
      · exact hlt
      · exact absurd heq hmodule

theorem le_iff_orderKey_le {a b : ScopedName} :
    a.le b = true ↔ a.orderKey ≤ b.orderKey := by
  rw [le, Bool.not_eq_true', ← not_lt, ← lt_iff_orderKey_lt, Bool.not_eq_true]

end ScopedName

namespace Projection

open ScopedName

theorem pairwise_le_sort (ps : List Projection) :
    (sort ps).Pairwise fun p q => p.name.orderKey ≤ q.name.orderKey := by
  have hsorted : (ps.mergeSort le).Pairwise fun p q => le p q = true := by
    apply List.pairwise_mergeSort
    · intro p q s hpq hqs
      exact le_iff_orderKey_le.mpr ((le_iff_orderKey_le.mp hpq).trans
        (le_iff_orderKey_le.mp hqs))
    · intro p q
      rw [Bool.or_eq_true]
      exact (le_total p.name.orderKey q.name.orderKey).imp
        le_iff_orderKey_le.mpr le_iff_orderKey_le.mpr
  exact hsorted.imp fun hle => le_iff_orderKey_le.mp hle

theorem pairwise_lt_sort {ps : List Projection} (hnames : (ps.map (·.name)).Nodup) :
    (sort ps).Pairwise fun p q => p.name.lt q.name = true := by
  have hdistinct : ((sort ps).map (·.name)).Nodup :=
    ((List.mergeSort_perm ps le).map _).nodup_iff.mpr hnames
  have hne : (sort ps).Pairwise fun p q => p.name ≠ q.name := List.pairwise_map.mp hdistinct
  refine ((pairwise_le_sort ps).and hne).imp ?_
  rintro p q ⟨hle, hne⟩
  exact lt_iff_orderKey_lt.mpr
    (lt_of_le_of_ne hle fun heq => hne (orderKey_injective heq))

/-- A list in strict order is determined by its members. -/
theorem eq_of_pairwise_lt {ps qs : List Projection}
    (hps : ps.Pairwise fun p q => p.name.lt q.name = true)
    (hqs : qs.Pairwise fun p q => p.name.lt q.name = true)
    (hmem : ∀ p, p ∈ ps ↔ p ∈ qs) : ps = qs := by
  have hnodup : ∀ {xs : List Projection},
      (xs.Pairwise fun p q => p.name.lt q.name = true) → xs.Nodup := by
    intro xs hxs
    refine hxs.imp ?_
    rintro p _ hlt rfl
    exact lt_irrefl _ (lt_iff_orderKey_lt.mp hlt)
  have hperm : ps.Perm qs := (List.perm_ext_iff_of_nodup (hnodup hps) (hnodup hqs)).mpr hmem
  refine hperm.eq_of_pairwise ?_ hps hqs
  intro p q _ _ hpq hqp
  exact absurd (lt_iff_orderKey_lt.mp hqp) (lt_iff_orderKey_lt.mp hpq).not_gt

end Projection

end SchemaCompiler
