import Mathlib.Data.List.Induction
import SchemaCompiler.Cache.Entries
import SchemaCompiler.Proofs.Keyed

/-!
# What a cache remembers

A cache is the outcome of a history of operations, each made at a time.  A key is found exactly
when the last operation that touched it put a value whose time is not over: the entries that have
run out but still stand in the cache, the other keys and overlapping removals play no part.
-/

namespace SchemaCompiler

open List

/-- An operation that changes a cache. -/
inductive CacheChange (α : Type) where
  | set (key : String) (value : α) (life : Int)
  | delete (key : String)
  | deleteUnder (head : String)
  | clear

variable {α : Type} {key : String} {c : Cache α} {now : Int} {history : List (Int × CacheChange α)}

namespace CacheChange

def apply (now : Int) (c : Cache α) : CacheChange α → Cache α
  | .set key value life => c.set now key value life
  | .delete key => c.delete key
  | .deleteUnder head => c.deleteUnder head
  | .clear => c.clear

/-- The operation puts a value at the key or takes it away. -/
def Touches (key : String) : CacheChange α → Prop
  | .set other _ _ | .delete other => other = key
  | .deleteUnder head => head.toList <+: key.toList
  | .clear => True

/-- What the operation leaves at a key it touches. -/
def left (now : Int) : CacheChange α → Option (CacheEntry α)
  | .set _ value life => some ⟨value, if 0 < life then now + life else 0⟩
  | _ => none

theorem find?_apply (change : CacheChange α) [Decidable (change.Touches key)] :
    Keyed.find? key (change.apply now c).entries =
      if change.Touches key then change.left now else Keyed.find? key c.entries := by
  cases change with
  | set other value life =>
    rw [apply, Cache.set, Keyed.find?_insert]
    exact if_congr eq_comm rfl rfl
  | delete other =>
    exact Keyed.find?_filter (decide <| · ≠ other) c.entries (decide_eq_true_iff.trans ne_comm)
  | deleteUnder head =>
    refine Keyed.find?_filter (!Text.startsWith head ·) c.entries ?_
    rw [Bool.not_eq_true', ← Bool.not_eq_true, Text.startsWith, isPrefixOf_iff_prefix, Touches]
  | clear => exact (if_pos trivial).symm

end CacheChange

namespace Cache

/-- The cache behind a history. -/
def after (history : List (Int × CacheChange α)) : Cache α :=
  history.foldl (fun c change => change.2.apply change.1 c) empty

theorem after_concat (change : Int × CacheChange α) :
    after (history ++ [change]) = change.2.apply change.1 (after history) := by
  rw [after, foldl_concat, ← after]

/-- The last operation of a history that touched the key put this value, at this time. -/
def LastSet (history : List (Int × CacheChange α)) (key : String) (now : Int) (value : α)
    (life : Int) : Prop :=
  ∃ before later, history = before ++ (now, .set key value life) :: later ∧
    ∀ change ∈ later, ¬change.2.Touches key

theorem lastSet_concat (change : Int × CacheChange α) (value : α) (life : Int) :
    LastSet (history ++ [change]) key now value life ↔
      change = (now, .set key value life) ∨
        ¬change.2.Touches key ∧ LastSet history key now value life := by
  constructor
  · rintro ⟨before, later, heq, hlater⟩
    rcases eq_nil_or_concat' later with rfl | ⟨later, last, rfl⟩
    · exact .inl (append_singleton_inj.mp heq).2
    · rw [← cons_append, ← append_assoc] at heq
      obtain ⟨rfl, rfl⟩ := append_singleton_inj.mp heq
      exact .inr ⟨hlater _ (by simp), before, later, rfl, fun change hchange =>
        hlater change (mem_append_left _ hchange)⟩
  · rintro (rfl | ⟨htouch, before, later, rfl, hlater⟩)
    · exact ⟨history, [], rfl, by simp⟩
    · refine ⟨before, later ++ [change], by simp, ?_⟩
      exact forall_mem_append.mpr ⟨hlater, forall_mem_singleton.mpr htouch⟩

/-- The entry at a key is the one its last operation put. -/
theorem find?_after_eq_some (history : List (Int × CacheChange α)) (entry : CacheEntry α) :
    Keyed.find? key (after history).entries = some entry ↔
      ∃ now value life, LastSet history key now value life ∧
        (CacheChange.set key value life).left now = some entry := by
  classical
  induction history using reverseRecOn with
  | nil => simp [after, empty, Keyed.find?, LastSet]
  | append_singleton history change ih =>
    obtain ⟨moment, change⟩ := change
    simp only [after_concat, lastSet_concat]
    by_cases htouch : change.Touches key
    · rw [CacheChange.find?_apply, if_pos htouch]
      simp only [htouch, not_true, false_and, or_false]
      constructor
      · intro hleft
        cases change with
        | set other value life =>
          obtain rfl : other = key := htouch
          exact ⟨moment, value, life, rfl, hleft⟩
        | delete | deleteUnder | clear => cases hleft
      · rintro ⟨now, value, life, heq, hleft⟩
        cases heq
        exact hleft
    · rw [CacheChange.find?_apply, if_neg htouch, ih]
      have hne : ∀ now value life, (moment, change) ≠ (now, .set key value life) := by
        rintro now value life heq
        cases heq
        exact htouch rfl
      simp only [htouch, hne, not_false_iff, true_and, false_or]

/-- A key gives the value that was put last, unless a later operation took it away or its deadline
is over. -/
theorem get?_after (history : List (Int × CacheChange α)) (key : String) (time : Int) (value : α) :
    (after history).get? time key = some value ↔
      ∃ now life, LastSet history key now value life ∧
        (life ≤ 0 ∨ now + life = 0 ∨ time ≤ now + life) := by
  have hlive (now life : Int) (value : α) :
      CacheEntry.live time ⟨value, if 0 < life then now + life else 0⟩ = true ↔
        life ≤ 0 ∨ now + life = 0 ∨ time ≤ now + life := by
    unfold CacheEntry.live
    split_ifs <;> simp <;> omega
  have hget : (after history).get? time key = some value ↔
      ∃ entry, Keyed.find? key (after history).entries = some entry ∧
        entry.live time = true ∧ entry.value = value := by
    unfold get?
    cases Keyed.find? key (after history).entries <;> simp
  simp only [hget, find?_after_eq_some, CacheChange.left, Option.some_inj]
  constructor
  · rintro ⟨_, ⟨now, put, life, hlast, rfl⟩, htime, rfl⟩
    exact ⟨now, life, hlast, (hlive now life put).mp htime⟩
  · rintro ⟨now, life, hlast, htime⟩
    exact ⟨_, ⟨now, value, life, hlast, rfl⟩, (hlive now life value).mpr htime, rfl⟩

/-- A key gives the value that was put last, unless a later operation took it away or its time is
over; the times of the history may come in any order.  Only a value whose time ends at the very
moment that means no deadline stays for ever, and no clock that starts from there on ends one so. -/
theorem get?_after_eq_some_iff (history : List (Int × CacheChange α)) (key : String) (time : Int)
    (value : α) :
    ((after history).get? time key = some value ↔
      ∃ now life, LastSet history key now value life ∧
        (life ≤ 0 ∨ now + life = 0 ∨ time ≤ now + life)) ∧
    ((∀ change ∈ history, 0 ≤ change.1) →
      ((after history).get? time key = some value ↔
        ∃ now life, LastSet history key now value life ∧ (life ≤ 0 ∨ time ≤ now + life))) := by
  refine ⟨get?_after history key time value, fun hclock => ?_⟩
  rw [get?_after]
  refine exists₂_congr fun now life => and_congr_right fun hlast => ?_
  obtain ⟨before, later, rfl, -⟩ := hlast
  have := hclock _ (mem_append_right before mem_cons_self)
  omega

/-- A value that lives for ten moments from the third on is there in the thirteenth, whatever was
removed before. -/
theorem get?_after_eq_some_iff_thirteenth :
    let history : List (Int × CacheChange Nat) :=
      [(1, .set "a:b" 5 0), (2, .deleteUnder "a:"), (3, .set "a:b" 6 10), (4, .delete "a:c")]
    (∀ change ∈ history, 0 ≤ change.1) ∧ LastSet history "a:b" 3 6 10 ∧
      (after history).get? 13 "a:b" = some 6 ∧ (after history).get? 14 "a:b" = none := by
  intro history
  have hclock : ∀ change ∈ history, 0 ≤ change.1 := by decide
  have hlast : LastSet history "a:b" 3 6 10 :=
    ⟨[_, _], [_], rfl, forall_mem_singleton.mpr (by simp [CacheChange.Touches])⟩
  exact ⟨hclock, hlast, ((get?_after_eq_some_iff history "a:b" 13 6).2 hclock).mpr
    ⟨3, 10, hlast, .inr (by decide)⟩, by decide⟩

end Cache

end SchemaCompiler
