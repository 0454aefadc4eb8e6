import Mathlib.Data.List.Basic
import Mathlib.Order.Nat
import SchemaCompiler.Json.Parse

/-!
# Spellings of JSON texts

A spelling is what may stand between the quotes of a text.  Escaping a meaning
gives a spelling of it, and making a spelling safe for markup keeps it one.  A
value is spelled when all its texts and numbers are: these are the values that
a text can hold.
-/

namespace SchemaCompiler.Json

open List

variable {members : List (String × Json)} {c : Char} {n d : Nat} {items : List Json}
  {cs rest : List Char} {name : String}

/-- What may stand between quotes. -/
inductive Spelling : List Char → Prop
  | nil : Spelling []
  | plain {c : Char} {rest : List Char} (hquote : c ≠ '"') (hbackslash : c ≠ '\\')
      (hcontrol : ¬c.toNat < 0x20) (hrest : Spelling rest) : Spelling (c :: rest)
  | short {c : Char} {rest : List Char} (hc : c ∈ ['"', '\\', '/', 'b', 'f', 'n', 'r', 't'])
      (hrest : Spelling rest) : Spelling ('\\' :: c :: rest)
  | unicode {a b c d : Char} {rest : List Char}
      (hdigits : ∀ digit ∈ [a, b, c, d], (hexValue? digit).isSome) (hrest : Spelling rest) :
      Spelling ('\\' :: 'u' :: a :: b :: c :: d :: rest)

theorem Spelling.append {first second : List Char} (hfirst : Spelling first)
    (hsecond : Spelling second) : Spelling (first ++ second) := by
  induction hfirst with
  | nil => exact hsecond
  | plain hquote hbackslash hcontrol _ ih => exact .plain hquote hbackslash hcontrol ih
  | short hc _ ih => exact .short hc ih
  | unicode hdigits _ ih => exact .unicode hdigits ih

theorem Spelling.flatMap {f : Char → List Char} (hf : ∀ c, Spelling (f c)) (cs : List Char) :
    Spelling (cs.flatMap f) := by
  induction cs with
  | nil => exact .nil
  | cons c cs ih => exact (hf c).append ih

/-! ## Hexadecimal digits -/

theorem hexValue?_digitChar (h : d < 16) : hexValue? (Nat.digitChar d) = some d := by
  revert d
  decide

theorem hexDigits_four (n : Nat) :
    Text.hexDigits 4 n = [Nat.digitChar (n / 16 / 16 / 16 % 16), Nat.digitChar (n / 16 / 16 % 16),
      Nat.digitChar (n / 16 % 16), Nat.digitChar (n % 16)] := rfl

theorem hexNumber_digits {a b c : Nat} (ha : a < 16) (hb : b < 16) (hc : c < 16) (hd : d < 16) :
    hexNumber [Nat.digitChar a, Nat.digitChar b, Nat.digitChar c, Nat.digitChar d] =
      16 * (16 * (16 * a + b) + c) + d := by
  simp only [hexNumber, foldl_cons, foldl_nil, hexValue?_digitChar ha,
    hexValue?_digitChar hb, hexValue?_digitChar hc, hexValue?_digitChar hd, Option.getD_some]
  omega

theorem Spelling.hex (n : Nat) : Spelling ('\\' :: 'u' :: Text.hexDigits 4 n) := by
  rw [hexDigits_four]
  refine .unicode ?_ .nil
  have hdigit (m : Nat) : (hexValue? (Nat.digitChar (m % 16))).isSome := by
    rw [hexValue?_digitChar (Nat.mod_lt m (by decide))]
    rfl
  simp only [mem_cons, not_mem_nil, or_false]
  rintro digit (rfl | rfl | rfl | rfl)
  all_goals exact hdigit _

/-! ## Escaping -/

/-- A character is escaped by a letter, by its number, or not at all. -/
inductive Escaped (c : Char) : List Char → Prop
  | short {e : Char} (he : e ∈ ['"', '\\', '/', 'b', 'f', 'n', 'r', 't'])
      (hmeaning : ∀ rest, unescapeChars ('\\' :: e :: rest) = c :: unescapeChars rest) :
      Escaped c ['\\', e]
  | unicode (hc : c.toNat < 0xd800) : Escaped c ('\\' :: 'u' :: Text.hexDigits 4 c.toNat)
  | plain (hquote : c ≠ '"') (hbackslash : c ≠ '\\') (hcontrol : ¬c.toNat < 0x20) : Escaped c [c]

theorem eq_ofNat_of_toNat_eq (h : c.toNat = n) : c = Char.ofNat n := by
  rw [← h, Char.ofNat_toNat]

theorem escaped_escapeChar (c : Char) : Escaped c (escapeChar c) := by
  unfold escapeChar
  split
  -- the short escapes
  iterate 5 exact .short (by decide) fun rest => by simp [unescapeChars]
  · rename_i hquote hbackslash _ _ _
    split
    · rename_i h
      rw [eq_ofNat_of_toNat_eq h]
      exact .short (by decide) fun rest => by simp [unescapeChars]
    · rename_i h
      rw [eq_ofNat_of_toNat_eq h]
      exact .short (by decide) fun rest => by simp [unescapeChars]
    · split
      · rename_i h
        refine .unicode ?_
        simp only [Bool.or_eq_true, decide_eq_true_eq, beq_iff_eq] at h
        rcases h with ((((h | rfl) | rfl) | rfl) | h) | h
        · omega
        · decide
        · decide
        · decide
        · omega
        · omega
      · rename_i h
        simp only [Bool.or_eq_true, decide_eq_true_eq, not_or] at h
        exact .plain hquote hbackslash h.1.1.1.1.1

theorem Escaped.spelling (h : Escaped c cs) : Spelling cs := by
  cases h with
  | short he _ => exact .short he .nil
  | unicode _ => exact .hex _
  | plain hquote hbackslash hcontrol => exact .plain hquote hbackslash hcontrol .nil

theorem spelling_escape (meaning : String) : Spelling (escape meaning).toList := by
  rw [escape, String.toList_ofList]
  exact .flatMap (fun c => (escaped_escapeChar c).spelling) _

/-- A unit that does not begin a pair stands for itself, whatever follows. -/
theorem unescapeChars_unicode {a b d : Char}
    (h : isHighSurrogate (hexNumber [a, b, c, d]) = false) :
    unescapeChars ('\\' :: 'u' :: a :: b :: c :: d :: rest) =
      unitChar (hexNumber [a, b, c, d]) :: unescapeChars rest := by
  by_cases hpair : ∃ e f g i more, rest = '\\' :: 'u' :: e :: f :: g :: i :: more
  · obtain ⟨e, f, g, i, more, rfl⟩ := hpair
    rw [unescapeChars]
    simp [h]
  · rw [unescapeChars]
    rintro e f g i more rfl
    exact hpair ⟨e, f, g, i, more, rfl⟩

theorem unescapeChars_plain (h : c ≠ '\\') :
    unescapeChars (c :: rest) = c :: unescapeChars rest := by
  rw [unescapeChars.eq_def]
  split <;> simp_all

theorem Escaped.unescapeChars_append (h : Escaped c cs) (rest : List Char) :
    unescapeChars (cs ++ rest) = c :: unescapeChars rest := by
  cases h with
  | short _ hmeaning => exact hmeaning rest
  | plain _ hbackslash _ => exact unescapeChars_plain hbackslash
  | unicode hc =>
    have hnumber : hexNumber (Text.hexDigits 4 c.toNat) = c.toNat := by
      rw [hexDigits_four, hexNumber_digits] <;> omega
    rw [hexDigits_four] at hnumber ⊢
    have hhigh : isHighSurrogate c.toNat = false := by
      simp only [isHighSurrogate, Bool.and_eq_false_iff, decide_eq_false_iff_not]
      omega
    have hlow : isLowSurrogate c.toNat = false := by
      simp only [isLowSurrogate, Bool.and_eq_false_iff, decide_eq_false_iff_not]
      omega
    simp only [cons_append, nil_append]
    rw [unescapeChars_unicode (by rw [hnumber]; exact hhigh), hnumber, unitChar, hhigh, hlow]
    simp

@[simp]
theorem unescape_escape (meaning : String) : unescape (escape meaning) = meaning := by
  have hchars (cs : List Char) : unescapeChars (cs.flatMap escapeChar) = cs := by
    induction cs with
    | nil => rfl
    | cons c cs ih =>
      rw [flatMap_cons, (escaped_escapeChar c).unescapeChars_append, ih]
  rw [unescape, escape, String.toList_ofList, hchars, String.ofList_toList]

/-- A name that is spelled without escapes. -/
@[simp]
def plainName (name : String) : Bool :=
  name.toList.all fun c => c ≠ '"' && c ≠ '\\' && 0x20 ≤ c.toNat

theorem spelling_of_plainName (h : plainName name = true) : Spelling name.toList := by
  rw [plainName] at h
  generalize name.toList = cs at h
  induction cs with
  | nil => exact .nil
  | cons c cs ih =>
    simp only [all_cons, Bool.and_eq_true, decide_eq_true_eq] at h
    obtain ⟨⟨⟨hquote, hbackslash⟩, hcontrol⟩, hrest⟩ := h
    exact .plain hquote hbackslash (Nat.not_lt.mpr hcontrol) (ih (by simpa using hrest))

theorem unescape_of_plainName (h : plainName name = true) : unescape name = name := by
  have hchars : unescapeChars name.toList = name.toList := by
    rw [plainName] at h
    generalize name.toList = cs at h ⊢
    induction cs with
    | nil => rfl
    | cons c cs ih =>
      simp only [all_cons, Bool.and_eq_true, decide_eq_true_eq] at h
      obtain ⟨⟨⟨_, hbackslash⟩, _⟩, hrest⟩ := h
      rw [unescapeChars_plain hbackslash, ih (by simpa using hrest)]
  rw [unescape, hchars, String.ofList_toList]

/-! ## Markup-safe spellings -/

/-- How one character of a spelling is made safe. -/
def shieldChar (c : Char) : List Char :=
  if c = '<' || c = '>' || c = '&' || c.toNat == 0x2028 || c.toNat == 0x2029 then
    '\\' :: 'u' :: Text.hexDigits 4 c.toNat
  else [c]

theorem toList_shield (spelling : String) :
    (shield spelling).toList = spelling.toList.flatMap shieldChar := by
  rw [shield, String.toList_ofList]
  rfl

/-- The character stays as it is when a spelling is made safe. -/
def Safe (c : Char) : Prop := shieldChar c = [c]

theorem safe_of_hexValue? (h : (hexValue? c).isSome) : Safe c := by
  apply if_neg
  intro hspecial
  simp only [Bool.or_eq_true, decide_eq_true_eq, beq_iff_eq] at hspecial
  rcases hspecial with (((rfl | rfl) | rfl) | hc) | hc
  · exact absurd h (by decide)
  · exact absurd h (by decide)
  · exact absurd h (by decide)
  · rw [eq_ofNat_of_toNat_eq hc] at h
    exact absurd h (by decide)
  · rw [eq_ofNat_of_toNat_eq hc] at h
    exact absurd h (by decide)

theorem safe_of_short (h : c ∈ ['"', '\\', '/', 'b', 'f', 'n', 'r', 't']) : Safe c := by
  simp only [mem_cons, not_mem_nil, or_false] at h
  rcases h with rfl | rfl | rfl | rfl | rfl | rfl | rfl | rfl
  all_goals rfl

theorem flatMap_shieldChar_of_safe (h : ∀ c ∈ cs, Safe c) : cs.flatMap shieldChar = cs := by
  induction cs with
  | nil => rfl
  | cons c cs ih =>
    rw [flatMap_cons, h c mem_cons_self, ih fun x hx => h x (mem_cons_of_mem c hx)]
    rfl

theorem Spelling.shieldChar (hquote : c ≠ '"') (hbackslash : c ≠ '\\')
    (hcontrol : ¬c.toNat < 0x20) : Spelling (shieldChar c) := by
  rw [Json.shieldChar]
  split_ifs
  · exact .hex _
  · exact .plain hquote hbackslash hcontrol .nil

theorem Spelling.shield {spelling : String} (h : Spelling spelling.toList) :
    Spelling (shield spelling).toList := by
  rw [toList_shield]
  generalize spelling.toList = cs at h
  induction h with
  | nil => exact .nil
  | plain hquote hbackslash hcontrol _ ih =>
    rw [flatMap_cons]
    exact (Spelling.shieldChar hquote hbackslash hcontrol).append ih
  | @short c rest hc _ ih =>
    rw [flatMap_cons, flatMap_cons, safe_of_short hc]
    exact .short hc ih
  | @unicode a b c d rest hdigits _ ih =>
    have hsafe : ∀ x ∈ ['\\', 'u', a, b, c, d], Safe x := by
      intro x hx
      rw [mem_cons, mem_cons] at hx
      rcases hx with rfl | rfl | hx
      · rfl
      · rfl
      · exact safe_of_hexValue? (hdigits x hx)
    rw [show '\\' :: 'u' :: a :: b :: c :: d :: rest = ['\\', 'u', a, b, c, d] ++ rest from rfl,
      flatMap_append, flatMap_shieldChar_of_safe hsafe]
    exact .unicode hdigits ih

theorem safe_of_mem_shieldChar {x : Char} (h : x ∈ shieldChar c) : Safe x := by
  rw [shieldChar] at h
  split_ifs at h with hspecial
  · rw [mem_cons, mem_cons] at h
    rcases h with rfl | rfl | hx
    · rfl
    · rfl
    · apply safe_of_hexValue?
      rw [hexDigits_four] at hx
      simp only [mem_cons, not_mem_nil, or_false] at hx
      rcases hx with rfl | rfl | rfl | rfl
      all_goals
        rw [hexValue?_digitChar (Nat.mod_lt _ (by decide))]
        rfl
  · rw [mem_singleton.mp h]
    exact if_neg hspecial

@[simp]
theorem shield_shield (spelling : String) : shield (shield spelling) = shield spelling := by
  apply String.toList_injective
  rw [toList_shield (shield spelling)]
  apply flatMap_shieldChar_of_safe
  intro x hx
  rw [toList_shield] at hx
  obtain ⟨c, _, hc⟩ := mem_flatMap.mp hx
  exact safe_of_mem_shieldChar hc

/-! ## Spelled values -/

/-- Every number of the value is one, and every text is a spelling. -/
inductive Spelled : Json → Prop
  | null : Spelled null
  | bool (value : Bool) : Spelled (bool value)
  | num {spelling : String} (h : isNumber spelling.toList = true) : Spelled (num spelling)
  | str {spelling : String} (h : Spelling spelling.toList) : Spelled (str spelling)
  | arr {items : List Json} (h : ∀ item ∈ items, Spelled item) : Spelled (arr items)
  | obj {members : List (String × Json)} (hkeys : ∀ m ∈ members, Spelling m.1.toList)
      (hvalues : ∀ m ∈ members, Spelled m.2) : Spelled (obj members)

@[simp]
theorem spelled_text (meaning : String) : Spelled (text meaning) :=
  .str (spelling_escape meaning)

theorem Spelled.record (h : ∀ m ∈ members, plainName m.1 = true ∧ Spelled m.2) :
    Spelled (.obj members) :=
  .obj (fun m hm => spelling_of_plainName (h m hm).1) fun m hm => (h m hm).2

/-- A property of all values, from the items of arrays and the members of objects. -/
@[elab_as_elim]
theorem inductionOn {motive : Json → Prop} (j : Json) (null : motive null)
    (bool : ∀ value, motive (bool value)) (num : ∀ spelling, motive (num spelling))
    (str : ∀ spelling, motive (str spelling))
    (arr : ∀ items, (∀ item ∈ items, motive item) → motive (arr items))
    (obj : ∀ members, (∀ m ∈ members, motive m.2) → motive (obj members)) : motive j :=
  @Json.rec motive (fun items => ∀ item ∈ items, motive item)
    (fun members => ∀ m ∈ members, motive m.2) (fun m => motive m.2)
    null bool num str arr obj
    (by simp) (fun _ _ hitem hrest => forall_mem_cons.mpr ⟨hitem, hrest⟩)
    (by simp) (fun _ _ hmember hrest => forall_mem_cons.mpr ⟨hmember, hrest⟩)
    (fun _ _ h => h) j

/-! ## Nesting -/

theorem depthItems_le : depthItems items ≤ n ↔ ∀ item ∈ items, item.depth ≤ n := by
  induction items with
  | nil => simp [depthItems]
  | cons item items ih => rw [depthItems, Nat.max_le, ih, forall_mem_cons]

theorem depthMembers_le : depthMembers members ≤ n ↔ ∀ m ∈ members, m.2.depth ≤ n := by
  induction members with
  | nil => simp [depthMembers]
  | cons member members ih => rw [depthMembers, Nat.max_le, ih, forall_mem_cons]

theorem depth_arr_le : (arr items).depth ≤ n + 1 ↔ ∀ item ∈ items, item.depth ≤ n := by
  rw [depth, Nat.add_le_add_iff_right, depthItems_le]

theorem depth_obj_le : (obj members).depth ≤ n + 1 ↔ ∀ m ∈ members, m.2.depth ≤ n := by
  rw [depth, Nat.add_le_add_iff_right, depthMembers_le]

theorem depth_item_lt {item : Json} (h : item ∈ items) : item.depth < (arr items).depth := by
  have hle : ∀ item ∈ items, item.depth ≤ depthItems items := depthItems_le.mp (Nat.le_refl _)
  rw [depth]
  exact Nat.lt_succ_of_le (hle item h)

theorem depth_member_lt {m : String × Json} (h : m ∈ members) :
    m.2.depth < (obj members).depth := by
  have hle : ∀ m ∈ members, m.2.depth ≤ depthMembers members := depthMembers_le.mp (Nat.le_refl _)
  rw [depth]
  exact Nat.lt_succ_of_le (hle m h)

/-! ## Markup-safe values -/

theorem shieldedItems_eq_map (items : List Json) : shieldedItems items = items.map shielded := by
  induction items with
  | nil => rfl
  | cons item items ih => rw [shieldedItems, ih, map_cons]

theorem shieldedMembers_eq_map (members : List (String × Json)) :
    shieldedMembers members = members.map fun m => (shield m.1, m.2.shielded) := by
  induction members with
  | nil => rfl
  | cons member members ih => rw [shieldedMembers, ih, map_cons]

theorem Spelled.shielded {j : Json} (h : j.Spelled) : j.shielded.Spelled := by
  induction h with
  | null => exact .null
  | bool value => exact .bool value
  | num h => exact .num h
  | str h => exact .str h.shield
  | arr _ ih =>
    rw [Json.shielded, shieldedItems_eq_map]
    exact .arr (forall_mem_map.mpr ih)
  | obj hkeys _ ih =>
    rw [Json.shielded, shieldedMembers_eq_map]
    exact .obj (forall_mem_map.mpr fun m hm => (hkeys m hm).shield) (forall_mem_map.mpr ih)

@[simp]
theorem shielded_shielded (j : Json) : j.shielded.shielded = j.shielded := by
  induction j using inductionOn with
  | null | bool value | num spelling => rfl
  | str spelling => simp [Json.shielded]
  | arr items ih =>
    simp only [Json.shielded, shieldedItems_eq_map, map_map, arr.injEq]
    exact map_congr_left ih
  | obj members ih =>
    simp only [Json.shielded, shieldedMembers_eq_map, map_map, obj.injEq]
    apply map_congr_left
    intro m hm
    simp [ih m hm]

end SchemaCompiler.Json
