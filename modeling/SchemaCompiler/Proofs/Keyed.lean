import Mathlib.Data.List.Nodup
import Mathlib.Data.String.Basic
import SchemaCompiler.Keyed

/-!
# Keyed lists are maps

A keyed list built by insertions has its keys in strict order, so no key
stands twice.  Where no key is inserted twice, the list holds exactly what was
inserted.
-/

namespace SchemaCompiler.Keyed

open List

variable {α : Type} {key name : String} {value : α} {entries more : List (String × α)}
  {entry : String × α}

/-- The keys ascend. -/
def Ordered (entries : List (String × α)) : Prop :=
  entries.Pairwise fun a b => a.1 < b.1

theorem Ordered.nodup_keys (h : Ordered entries) : (keys entries).Nodup :=
  pairwise_map.mpr (h.imp fun hlt => hlt.ne)

theorem mem_insert (h : entry ∈ insert key value entries) :
    entry = (key, value) ∨ entry ∈ entries := by
  induction entries with
  | nil => exact .inl (by simpa [insert] using h)
  | cons first rest ih =>
    rw [insert] at h
    split_ifs at h
    · exact (mem_cons.mp h).imp_right (mem_cons_of_mem first)
    · exact mem_cons.mp h
    · rcases mem_cons.mp h with rfl | h
      · exact .inr mem_cons_self
      · exact (ih h).imp_right (mem_cons_of_mem first)

theorem Ordered.insert (h : Ordered entries) : Ordered (insert key value entries) := by
  induction entries with
  | nil => simp [Keyed.insert, Ordered]
  | cons first rest ih =>
    obtain ⟨hfirst, hrest⟩ := pairwise_cons.mp h
    rw [Keyed.insert]
    split_ifs with heq hlt
    · exact .cons (by rwa [heq]) hrest
    · refine .cons ?_ h
      rintro entry hentry
      rcases mem_cons.mp hentry with rfl | hentry
      · exact hlt
      · exact lt_trans hlt (hfirst entry hentry)
    · refine .cons ?_ (ih hrest)
      intro entry hentry
      rcases mem_insert hentry with rfl | hentry
      · exact lt_of_le_of_ne (not_lt.mp hlt) (Ne.symm heq)
      · exact hfirst entry hentry

/-- An insertion under a key that is there changes no key. -/
theorem Ordered.keys_insert (h : Ordered entries) (hkey : key ∈ keys entries) :
    keys (Keyed.insert key value entries) = keys entries := by
  induction entries with
  | nil => cases hkey
  | cons first rest ih =>
    obtain ⟨hfirst, hrest⟩ := pairwise_cons.mp h
    rw [Keyed.insert]
    split_ifs with heq hlt
    · simp [keys, heq]
    · -- The key would come before all others.
      obtain ⟨entry, hentry, rfl⟩ := mem_map.mp hkey
      rcases mem_cons.mp hentry with rfl | hentry
      · exact absurd rfl heq
      · exact absurd (hfirst entry hentry) hlt.not_gt
    · have hmem : key ∈ keys rest := (mem_cons.mp hkey).resolve_left heq
      simpa [keys] using ih hrest hmem

theorem find?_cons (name : String) (entry : String × α) (entries : List (String × α)) :
    find? name (entry :: entries) =
      if name = entry.1 then some entry.2 else find? name entries := by
  rw [find?, find?, lookup_cons]
  by_cases hname : name = entry.1
  · rw [if_pos hname, beq_iff_eq.mpr hname]
  · rw [if_neg hname, beq_false_of_ne hname]

theorem contains_iff : contains name entries = true ↔ name ∈ keys entries := by
  induction entries with
  | nil => simp [contains, find?, keys]
  | cons first rest ih =>
    rw [contains] at ih ⊢
    rw [find?_cons, keys, map_cons, mem_cons, ← keys, ← ih]
    split_ifs with hname
    · simp [hname]
    · simp [hname]

theorem mem_of_find?_eq_some (h : find? key entries = some value) : (key, value) ∈ entries := by
  induction entries with
  | nil => cases h
  | cons first rest ih =>
    rw [find?_cons] at h
    split_ifs at h with hkey
    · cases h
      rw [hkey]
      exact mem_cons_self
    · exact mem_cons_of_mem first (ih h)

/-- An insertion is seen under its key and nowhere else. -/
theorem find?_of_mem (hkeys : (keys entries).Nodup) (h : (key, value) ∈ entries) :
    find? key entries = some value := by
  induction entries with
  | nil => cases h
  | cons first rest ih =>
    obtain ⟨hfirst, hrest⟩ := nodup_cons.mp hkeys
    rw [find?_cons]
    rcases mem_cons.mp h with rfl | h
    · rw [if_pos rfl]
    · have hne : key ≠ first.1 := by
        rintro rfl
        exact hfirst (mem_map.mpr ⟨_, h, rfl⟩)
      rw [if_neg hne, ih hrest h]

theorem find?_insert (name : String) :
    find? name (insert key value entries) =
      if name = key then some value else find? name entries := by
  induction entries with
  | nil => rw [insert, find?_cons]
  | cons first rest ih =>
    rw [insert]
    split_ifs
    all_goals grind [find?_cons]

/-- A removal by keys hides just the keys it is about. -/
theorem find?_filter {gone : Prop} [Decidable gone] (keep : String → Bool)
    (entries : List (String × α)) (hkeep : keep key = true ↔ ¬gone) :
    find? key (entries.filter fun e => keep e.1) = if gone then none else find? key entries := by
  induction entries with
  | nil => simp [find?]
  | cons first rest ih =>
    rw [filter_cons]
    by_cases hkey : key = first.1
    all_goals split_ifs <;> simp_all [find?_cons]

/-- A new key adds its entry to those that were there. -/
theorem insert_perm (h : key ∉ keys entries) :
    (insert key value entries).Perm ((key, value) :: entries) := by
  induction entries with
  | nil => rfl
  | cons first rest ih =>
    obtain ⟨hne, hrest⟩ : key ≠ first.1 ∧ key ∉ keys rest := by
      simpa [keys] using h
    rw [insert, if_neg hne]
    split_ifs
    · rfl
    · exact ((ih hrest).cons first).trans (.swap ..)

/-! ## Many insertions -/

/-- The list after further entries were inserted in order. -/
def insertAll (entries more : List (String × α)) : List (String × α) :=
  more.foldl (fun done entry => insert entry.1 entry.2 done) entries

theorem ordered_insertAll (h : Ordered entries) : Ordered (insertAll entries more) := by
  induction more generalizing entries with
  | nil => exact h
  | cons first rest ih => exact ih h.insert

theorem mem_insertAll (h : entry ∈ insertAll entries more) : entry ∈ entries ∨ entry ∈ more := by
  induction more generalizing entries with
  | nil => exact .inl h
  | cons first rest ih =>
    rcases ih h with hentry | hentry
    · rcases mem_insert hentry with rfl | hentry
      · exact .inr mem_cons_self
      · exact .inl hentry
    · exact .inr (mem_cons_of_mem first hentry)

theorem mem_keys_insertAll (h : name ∈ keys entries ∨ name ∈ keys more) :
    name ∈ keys (insertAll entries more) := by
  induction more generalizing entries with
  | nil => exact h.resolve_right (not_mem_nil)
  | cons first rest ih =>
    refine ih ?_
    rw [← contains_iff, contains, find?_insert]
    split_ifs with hname
    · exact .inl rfl
    · rw [← contains, contains_iff]
      exact h.imp_right fun hrest => (mem_cons.mp hrest).resolve_left hname

theorem insertAll_perm (h : (keys (entries ++ more)).Nodup) :
    (insertAll entries more).Perm (entries ++ more) := by
  induction more generalizing entries with
  | nil => rw [append_nil, insertAll, foldl_nil]
  | cons first rest ih =>
    have hfirst : first.1 ∉ keys entries := by
      intro hmem
      rw [keys, map_append] at h
      exact (nodup_append.mp h).2.2 _ hmem _ mem_cons_self rfl
    have hstep : (insert first.1 first.2 entries ++ rest).Perm (entries ++ first :: rest) :=
      ((insert_perm hfirst).append_right rest).trans perm_middle.symm
    exact (ih ((hstep.map _).nodup_iff.mpr h)).trans hstep

theorem insert_eq_append (h : ∀ entry ∈ entries, entry.1 < key) :
    insert key value entries = entries ++ [(key, value)] := by
  induction entries with
  | nil => rfl
  | cons first rest ih =>
    obtain ⟨hfirst, hrest⟩ := forall_mem_cons.mp h
    rw [insert, if_neg hfirst.ne', if_neg (not_lt.mpr hfirst.le), ih hrest, cons_append]

/-- Entries that are inserted in the order of their keys stay as they are. -/
theorem insertAll_eq_append (h : Ordered (entries ++ more)) :
    insertAll entries more = entries ++ more := by
  induction more generalizing entries with
  | nil => rw [append_nil, insertAll, foldl_nil]
  | cons first rest ih =>
    have hlast : ∀ entry ∈ entries, entry.1 < first.1 := fun entry hentry =>
      (pairwise_append.mp h).2.2 entry hentry first mem_cons_self
    rw [insertAll, foldl_cons, insert_eq_append hlast, ← insertAll, ih (by simpa using h)]
    simp

/-- Values under keys of their own. -/
def keyed (key : α → String) (values : List α) : List (String × α) :=
  values.map fun v => (key v, v)

theorem keys_keyed (key : α → String) (values : List α) :
    keys (keyed key values) = values.map key := by
  rw [keys, keyed, map_map]
  rfl

theorem values_keyed (key : α → String) (values : List α) :
    (keyed key values).map (·.2) = values := by
  rw [keyed, map_map]
  exact map_id values

/-- All values are kept exactly when no two of them share a key; `g` is what is
seen of a value, its key included. -/
theorem map_insertAll_perm_iff {β : Type} {key : α → String} {g : α → β}
    (seenKey : β → String) (hkey : ∀ v, seenKey (g v) = key v) (values : List α) :
    (((insertAll [] (keyed key values)).map (·.2)).map g).Perm (values.map g) ↔
      (values.map key).Nodup := by
  constructor
  · intro hperm
    have hkeys : (keys (insertAll [] (keyed key values))).Perm (values.map key) := by
      have hmap := hperm.map seenKey
      simp only [map_map, Function.comp_def, hkey] at hmap
      refine .trans (.of_eq (map_congr_left fun entry hentry => ?_)) hmap
      have hmem : entry ∈ keyed key values := by simpa using mem_insertAll hentry
      obtain ⟨v, _, rfl⟩ := mem_map.mp hmem
      rfl
    have hordered : Ordered (insertAll [] (keyed key values)) := ordered_insertAll .nil
    exact hkeys.nodup_iff.mp hordered.nodup_keys
  · intro hnodup
    rw [← keys_keyed] at hnodup
    have hperm : (insertAll [] (keyed key values)).Perm (keyed key values) :=
      insertAll_perm hnodup
    have hvalues := hperm.map (·.2)
    rw [values_keyed] at hvalues
    exact hvalues.map g

end SchemaCompiler.Keyed
