import Mathlib.Data.List.Forall2
import SchemaCompiler.Cache.Packed

/-!
# Packed values are read as they were written

Sizes are written with one, two or four bytes, so a value is read back when no
part of it is longer than four bytes can say and its integers have at most
eight bytes.  The reader needs no more levels than the value has bytes.
-/

namespace SchemaCompiler.Packed

open List Digest UInt8

variable {entries : List (Packed × Packed)} {items : List Packed} {n : Nat}
  {one : List UInt8 → Rest Packed} {p : Packed}

/-! ## Numbers -/

theorem length_bigEndian (width n : Nat) : (bigEndian width n).length = width := by
  induction width generalizing n with
  | zero => rfl
  | succ width ih => rw [bigEndian, length_append, ih, length_singleton]

theorem number_bigEndian (width n : Nat) :
    number (bigEndian width n) = n % Nat.pow 256 width := by
  induction width generalizing n with
  | zero => exact (Nat.mod_one n).symm
  | succ width ih =>
    have hlast : (ofNat (n % 256)).toNat = n % 256 := by
      rw [toNat_ofNat']
      omega
    have hfold : number (bigEndian width (n / 256) ++ [ofNat (n % 256)]) =
        256 * number (bigEndian width (n / 256)) + n % 256 := by
      rw [number, number, foldl_append, foldl_cons, foldl_nil, hlast]
    rw [bigEndian, hfold, ih]
    calc
      256 * (n / 256 % Nat.pow 256 width) + n % 256
          = n % (256 * Nat.pow 256 width) := by rw [Nat.mod_mul, Nat.add_comm]
      _ = n % Nat.pow 256 (width + 1) := by rw [Nat.mul_comm]; rfl

theorem takeBytes_append (bytes rest : List UInt8) :
    takeBytes bytes.length (bytes ++ rest) = some (bytes, rest) := by
  induction bytes with
  | nil => rfl
  | cons byte bytes ih => rw [cons_append, length_cons, takeBytes, ih]

theorem takeNumber_bigEndian {width : Nat} (h : n < Nat.pow 256 width) (rest : List UInt8) :
    takeNumber width (bigEndian width n ++ rest) = some (n, rest) := by
  have htake := takeBytes_append (bigEndian width n) rest
  rw [length_bigEndian] at htake
  rw [takeNumber, htake]
  simp only [number_bigEndian, Nat.mod_eq_of_lt h]

theorem sized_bigEndian {α : Type} {width : Nat} (h : n < Nat.pow 256 width)
    (f : Nat → List UInt8 → Rest α) (rest : List UInt8) :
    sized width f (bigEndian width n ++ rest) = f n rest := by
  rw [sized, takeNumber_bigEndian h]

/-! ## Parts -/

/-- What `one` gives back of a value with any bytes after it. -/
def TakesBack {α : Type} (one : List UInt8 → Rest α) (bytes : List UInt8) (a : α) : Prop :=
  ∀ rest, one (bytes ++ rest) = some (a, rest)

theorem takeMany_writeAll (h : ∀ item ∈ items, TakesBack one item.write item) (rest : List UInt8) :
    takeMany one items.length (writeAll items ++ rest) = some (items, rest) := by
  induction items with
  | nil => rfl
  | cons item items ih =>
    rw [length_cons, takeMany, writeAll, append_assoc, h item mem_cons_self]
    simp only [ih fun x hx => h x (mem_cons_of_mem item hx)]

theorem takeMany_writeEntries (hkeys : ∀ e ∈ entries, TakesBack one e.1.write e.1)
    (hvalues : ∀ e ∈ entries, TakesBack one e.2.write e.2) (rest : List UInt8) :
    takeMany (takePair one) entries.length (writeEntries entries ++ rest) =
      some (entries, rest) := by
  induction entries with
  | nil => rfl
  | cons entry entries ih =>
    have hpair (after : List UInt8) :
        takePair one (entry.1.write ++ (entry.2.write ++ after)) = some (entry, after) := by
      rw [takePair, hkeys entry mem_cons_self]
      simp only [hvalues entry mem_cons_self after]
    rw [length_cons, takeMany, writeEntries, append_assoc, append_assoc, hpair]
    simp only [ih (fun x hx => hkeys x (mem_cons_of_mem entry hx))
      fun x hx => hvalues x (mem_cons_of_mem entry hx)]

/-! ## Values -/

/-- No part is too long for its size to be written, and no integer too large. -/
inductive Sized : Packed → Prop
  | null : Sized null
  | bool (value : Bool) : Sized (bool value)
  | int {value : Int} (hlow : -0x8000000000000000 ≤ value) (hhigh : value < 0x10000000000000000) :
      Sized (int value)
  | raw {isText : Bool} {bytes : List UInt8} (h : bytes.length < 0x100000000) :
      Sized (raw isText bytes)
  | list {items : List Packed} (h : items.length < 0x100000000)
      (hitems : ∀ item ∈ items, Sized item) : Sized (list items)
  | record {entries : List (Packed × Packed)} (h : entries.length < 0x100000000)
      (hkeys : ∀ e ∈ entries, Sized e.1) (hvalues : ∀ e ∈ entries, Sized e.2) :
      Sized (record entries)
  | other : Sized other

theorem sized_int {value : Int} :
    (int value).Sized ↔ -0x8000000000000000 ≤ value ∧ value < 0x10000000000000000 :=
  ⟨fun | .int hlow hhigh => ⟨hlow, hhigh⟩, fun h => .int h.1 h.2⟩

theorem sized_list : (list items).Sized ↔ items.length < 0x100000000 ∧ ∀ item ∈ items, item.Sized :=
  ⟨fun | .list h hitems => ⟨h, hitems⟩, fun h => .list h.1 h.2⟩

theorem sized_record :
    (record entries).Sized ↔
      entries.length < 0x100000000 ∧ ∀ e ∈ entries, e.1.Sized ∧ e.2.Sized :=
  ⟨fun | .record h hkeys hvalues => ⟨h, fun e he => ⟨hkeys e he, hvalues e he⟩⟩,
    fun h => .record h.1 (fun e he => (h.2 e he).1) fun e he => (h.2 e he).2⟩

/-- Reading from the head byte on. -/
def readHead (one : List UInt8 → Rest Packed) : List UInt8 → Rest Packed
  | [] => none
  | head :: bytes => readAfter one head.toNat bytes

theorem readWithin_succ (levels : Nat) (bytes : List UInt8) :
    readWithin (levels + 1) bytes = readHead (readWithin levels) bytes := by
  cases bytes with
  | nil | cons head bytes => rfl

section

variable {one : List UInt8 → Rest Packed}

/-- A head with a size hands the size to the reader of its kind. -/
theorem readHead_sizedHead {short limit : Nat} {code8 : Option UInt8} {code16 code32 : UInt8}
    (f : Nat → List UInt8 → Rest Packed) (hlimit : short + limit ≤ 0x100)
    (hshort : ∀ m < limit, ∀ bytes, readAfter one (short + m) bytes = f m bytes)
    (h8 : ∀ code ∈ code8, ∀ bytes, readAfter one code.toNat bytes = sized 1 f bytes)
    (h16 : ∀ bytes, readAfter one code16.toNat bytes = sized 2 f bytes)
    (h32 : ∀ bytes, readAfter one code32.toNat bytes = sized 4 f bytes) (hn : n < 0x100000000)
    (rest : List UInt8) :
    readHead one (sizedHead short limit code8 code16 code32 n ++ rest) = f n rest := by
  have hwide : readHead one ((if n < 0x10000 then code16 :: bigEndian 2 n
      else code32 :: bigEndian 4 n) ++ rest) = f n rest := by
    split_ifs with hsmall
    · rw [cons_append, readHead, h16, sized_bigEndian hsmall]
    · rw [cons_append, readHead, h32, sized_bigEndian hn]
  unfold sizedHead
  by_cases hlow : n < limit
  · have hhead : (ofNat (short + n)).toNat = short + n := by
      rw [toNat_ofNat']
      omega
    rw [if_pos hlow, singleton_append, readHead, hhead, hshort n hlow]
  · rw [if_neg hlow]
    cases code8 with
    | none => exact hwide
    | some code =>
      by_cases hbyte : n < 0x100
      · simp only [hbyte, decide_true, cons_append, readHead]
        rw [h8 code rfl, sized_bigEndian hbyte]
      · simp only [hbyte, decide_false]
        exact hwide

theorem readHead_text (h : n < 0x100000000) (rest : List UInt8) :
    readHead one (sizedHead 0xa0 32 (some 0xd9) 0xda 0xdb n ++ rest) = takeRaw true n rest := by
  refine readHead_sizedHead (takeRaw true) (by decide) (fun m hm bytes => ?_) ?_ (fun _ => rfl)
    (fun _ => rfl) h rest
  · unfold readAfter
    rw [if_neg (by omega), if_neg (by omega), if_neg (by omega), if_pos (by omega),
      Nat.add_sub_cancel_left]
  · rintro code ⟨rfl⟩ bytes
    rfl

theorem readHead_binary (h : n < 0x100000000) (rest : List UInt8) :
    readHead one (sizedHead 0 0 (some 0xc4) 0xc5 0xc6 n ++ rest) = takeRaw false n rest := by
  refine readHead_sizedHead (takeRaw false) (by decide) (fun m hm => absurd hm (by omega)) ?_
    (fun _ => rfl) (fun _ => rfl) h rest
  rintro code ⟨rfl⟩ bytes
  rfl

theorem readHead_list (h : n < 0x100000000) (rest : List UInt8) :
    readHead one (sizedHead 0x90 16 none 0xdc 0xdd n ++ rest) =
      mapRest list (takeMany one n rest) := by
  refine readHead_sizedHead (fun n bytes => mapRest list (takeMany one n bytes)) (by decide)
    (fun m hm bytes => ?_) (by simp) (fun _ => rfl) (fun _ => rfl) h rest
  unfold readAfter
  rw [if_neg (by omega), if_neg (by omega), if_pos (by omega), Nat.add_sub_cancel_left]

theorem readHead_record (h : n < 0x100000000) (rest : List UInt8) :
    readHead one (sizedHead 0x80 16 none 0xde 0xdf n ++ rest) =
      mapRest record (takeMany (takePair one) n rest) := by
  refine readHead_sizedHead (fun n bytes => mapRest record (takeMany (takePair one) n bytes))
    (by decide) (fun m hm bytes => ?_) (by simp) (fun _ => rfl) (fun _ => rfl) h rest
  unfold readAfter
  rw [if_neg (by omega), if_pos (by omega), Nat.add_sub_cancel_left]

theorem readHead_writeInt {i : Int} (hlow : -0x8000000000000000 ≤ i)
    (hhigh : i < 0x10000000000000000) (rest : List UInt8) :
    readHead one (writeInt i ++ rest) = some (int i, rest) := by
  have hwide (width : Nat) (h : i.toNat < Nat.pow 256 width) (hi : 0 ≤ i) :
      mapRest (fun (n : Nat) => int n) (takeNumber width (bigEndian width i.toNat ++ rest)) =
        some (int i, rest) := by
    rw [takeNumber_bigEndian h, mapRest, Int.toNat_of_nonneg hi]
  unfold writeInt
  split_ifs with hnonneg h7 h8 h16 h32 hneg
  · have hhead : (ofNat i.toNat).toNat = i.toNat := by
      rw [toNat_ofNat']
      omega
    rw [singleton_append, readHead, hhead]
    unfold readAfter
    rw [if_pos (by omega), Int.toNat_of_nonneg hnonneg]
  · exact hwide 1 (show i.toNat < 0x100 by omega) hnonneg
  · exact hwide 2 (show i.toNat < 0x10000 by omega) hnonneg
  · exact hwide 4 (show i.toNat < 0x100000000 by omega) hnonneg
  · exact hwide 8 (show i.toNat < 0x10000000000000000 by omega) hnonneg
  · have hhead : (ofNat (i + 0x100).toNat).toNat = (i + 0x100).toNat := by
      rw [toNat_ofNat']
      omega
    rw [singleton_append, readHead, hhead]
    unfold readAfter
    rw [if_neg (by omega), if_neg (by omega), if_neg (by omega), if_neg (by omega),
      if_pos (by omega)]
    congr 3
    omega
  · have hnumber : (i + 0x10000000000000000).toNat < Nat.pow 256 8 :=
      show (i + 0x10000000000000000).toNat < 0x10000000000000000 by omega
    have hsigned : Int.bmod ((i + 0x10000000000000000).toNat : Int) (Nat.pow 256 8) = i := by
      rw [Int.toNat_of_nonneg (by omega)]
      change Int.bmod (i + 0x10000000000000000) 0x10000000000000000 = i
      rw [Int.bmod_def]
      omega
    change mapRest int (takeSigned 8 (bigEndian 8 (i + 0x10000000000000000).toNat ++ rest)) =
      some (int i, rest)
    rw [takeSigned, takeNumber_bigEndian hnumber]
    simp only [hsigned, mapRest]

end

theorem length_sizedHead_pos (short limit : Nat) (code8 : Option UInt8) (code16 code32 : UInt8)
    (n : Nat) : 0 < (sizedHead short limit code8 code16 code32 n).length := by
  unfold sizedHead
  by_cases hlow : n < limit
  · rw [if_pos hlow]
    exact Nat.one_pos
  · rw [if_neg hlow]
    split
    · exact Nat.succ_pos _
    · split_ifs <;> exact Nat.succ_pos _

theorem length_write_pos (p : Packed) : 0 < p.write.length := by
  cases p with
  | null => exact Nat.one_pos
  | bool value => cases value <;> exact Nat.one_pos
  | int i =>
    rw [write, writeInt]
    split_ifs <;> exact Nat.succ_pos _
  | raw isText bytes =>
    cases isText
    all_goals
      rw [write, length_append]
      exact Nat.add_pos_left (length_sizedHead_pos ..) _
  | list items | record entries =>
    rw [write, length_append]
    exact Nat.add_pos_left (length_sizedHead_pos ..) _
  | other => exact Nat.succ_pos _

theorem length_write_le_writeAll {item : Packed} (h : item ∈ items) :
    item.write.length ≤ (writeAll items).length := by
  induction items with
  | nil => cases h
  | cons first items ih =>
    rw [writeAll, length_append]
    rcases mem_cons.mp h with rfl | h
    · exact Nat.le_add_right _ _
    · exact Nat.le_trans (ih h) (Nat.le_add_left _ _)

theorem length_write_le_writeEntries {entry : Packed × Packed} (h : entry ∈ entries) :
    entry.1.write.length + entry.2.write.length ≤ (writeEntries entries).length := by
  induction entries with
  | nil => cases h
  | cons first entries ih =>
    rw [writeEntries, length_append, length_append]
    rcases mem_cons.mp h with rfl | h
    · exact Nat.le_add_right _ _
    · exact Nat.le_trans (ih h) (Nat.le_add_left _ _)

/-- The value is read back, with any bytes after it, by as many levels as it has
bytes. -/
def ReadsBack (p : Packed) : Prop :=
  ∀ levels, p.write.length ≤ levels → TakesBack (readWithin levels) p.write p

theorem readsBack_of_readHead
    (h : ∀ levels, p.write.length ≤ levels + 1 → ∀ rest,
      readHead (readWithin levels) (p.write ++ rest) = some (p, rest)) : p.ReadsBack := by
  intro levels hlevels rest
  have hpos := length_write_pos p
  obtain ⟨levels, rfl⟩ := Nat.exists_eq_succ_of_ne_zero (show levels ≠ 0 by omega)
  rw [Nat.succ_eq_add_one, readWithin_succ, h levels hlevels rest]

theorem Sized.readsBack (h : p.Sized) : p.ReadsBack := by
  induction h with
  | null => exact readsBack_of_readHead fun _ _ _ => rfl
  | bool value =>
    cases value
    all_goals exact readsBack_of_readHead fun _ _ _ => rfl
  | int hlow hhigh => exact readsBack_of_readHead fun _ _ => readHead_writeInt hlow hhigh
  | @raw isText bytes h =>
    refine readsBack_of_readHead fun levels _ rest => ?_
    cases isText with
    | true =>
      rw [write, append_assoc, readHead_text h, takeRaw, takeBytes_append]
      rfl
    | false =>
      rw [write, append_assoc, readHead_binary h, takeRaw, takeBytes_append]
      rfl
  | @list items h hitems ih =>
    refine readsBack_of_readHead fun levels hlevels rest => ?_
    have hhead := length_sizedHead_pos 0x90 16 none 0xdc 0xdd items.length
    rw [write, length_append] at hlevels
    have hmany := takeMany_writeAll (fun item hitem =>
      ih item hitem levels (by have := length_write_le_writeAll hitem; omega)) rest
    rw [write, append_assoc, readHead_list h, hmany]
    rfl
  | @record entries h hkeys hvalues ihkeys ihvalues =>
    refine readsBack_of_readHead fun levels hlevels rest => ?_
    have hhead := length_sizedHead_pos 0x80 16 none 0xde 0xdf entries.length
    rw [write, length_append] at hlevels
    have hbound : ∀ e ∈ entries, e.1.write.length ≤ levels ∧ e.2.write.length ≤ levels := by
      intro e he
      have := length_write_le_writeEntries he
      omega
    have hkeysBack : ∀ e ∈ entries, TakesBack (readWithin levels) e.1.write e.1 :=
      fun e he => ihkeys e he levels (hbound e he).1
    have hvaluesBack : ∀ e ∈ entries, TakesBack (readWithin levels) e.2.write e.2 :=
      fun e he => ihvalues e he levels (hbound e he).2
    rw [write, append_assoc, readHead_record h, takeMany_writeEntries hkeysBack hvaluesBack]
    rfl
  | other => exact readsBack_of_readHead fun _ _ _ => rfl

/-- Reading takes back what was written. -/
theorem Sized.read_write (h : p.Sized) : read p.write = some p := by
  have hread := h.readsBack p.write.length (Nat.le_refl _) []
  rw [append_nil] at hread
  rw [read, hread]
  rfl

end SchemaCompiler.Packed
