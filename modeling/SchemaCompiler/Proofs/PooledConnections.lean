import Mathlib.Data.List.Basic
import SchemaCompiler.Database.Driver
import SchemaCompiler.Proofs.Sessions

/-!
# Connections that go back to the pool

A statement with session variables runs on a connection of its own.  The
variables are set one after the other and reset before the connection goes back.
A variable that is refused, or cannot be set, ends this early: the connection
goes back at once, and what was set before it stays set.  A variable is set to a
string literal, which always ends where it should; only some databases take a
backslash for the start of an escape, and its backslashes come back doubled
where they are no escapes.
-/

namespace SchemaCompiler.Database

open List Dialect Session

variable {dialect : String} {f : Failure}

/-! ## The texts of statements -/

namespace Variable

/-- The call that sets a variable. -/
def setCall (v : String × String) : Call := .exec (setStatement v.1 v.2) []

def resetCall (statement : String) : Call := .exec statement []

theorem toList_setStatement (name value : String) :
    ∃ middle, (setStatement name value).toList = 'S' :: middle ++ ['\''] := by
  refine ⟨"ET ".toList ++ name.toList ++ " = '".toList ++ escapeChars value.toList, ?_⟩
  simp [setStatement, literal]

theorem setStatement_ne_reset {name reset : String} (h : resetStatement? dialect name = some reset)
    (other value : String) : setStatement other value ≠ reset := by
  rintro rfl
  obtain ⟨middle, hset⟩ := toList_setStatement other value
  unfold resetStatement? at h
  split_ifs at h with hpostgres hmysql
  · have hstart := congrArg String.toList (Option.some.inj h)
    rw [hset] at hstart
    simp at hstart
  · have hreset : ("SET " ++ name ++ " = NULL").toList =
        ("SET " ++ name ++ " = NUL").toList ++ ['L'] := by simp
    have hend := congrArg String.toList (Option.some.inj h)
    rw [hreset, hset] at hend
    cases append_inj_right' hend rfl

theorem setCall_ne_resetCall {name reset : String} (h : resetStatement? dialect name = some reset)
    (v : String × String) : setCall v ≠ resetCall reset := by
  intro hsame
  injection hsame with hstatement
  exact setStatement_ne_reset h v.1 v.2 hstatement

theorem mem_resets {reset : String} {names : List String} :
    reset ∈ resets dialect names ↔ ∃ name ∈ names, resetStatement? dialect name = some reset := by
  simp [resets, mem_filterMap]

/-- Why a variable is not sent to the database: its name, or a cancelled context. -/
def refusal (ctx : Context) (before : List Call) (v : String × String) : Option Failure :=
  if isName v.1 then if ctx.cancelled before then some Context.cancellation else none
  else some (.plain ("invalid session variable name: " ++ Text.quoted v.1))

theorem of_refusal_eq_some {ctx : Context} {before : List Call} {v : String × String}
    (h : refusal ctx before v = some f) : isName v.1 = false ∨ ctx.cancelled before = true := by
  by_contra! hsent
  simp [refusal, hsent] at h

end Variable

open Variable

/-! ## Setting and resetting -/

section Calls

variable {o : Oracle} {ctx : Context}

namespace Session

/-- The call that gives a connection back, where it is a dedicated one. -/
def released (dedicated : Bool) : List Call := if dedicated then [.release] else []

theorem makes_release (dedicated : Bool) (w : World) :
    ∃ last, (release dedicated).Makes o w () (released dedicated) last := by
  cases dedicated with
  | false => exact ⟨w, makes_pure⟩
  | true => exact ⟨_, (makes_call .release).bind makes_pure⟩

/-- Variables are set up to the first one that is refused or fails, which gives
a dedicated connection back. -/
theorem makes_setAll (ctx : Context) (dedicated : Bool) (vars : List (String × String))
    (w : World) :
    (∃ tried last, Attempts o setCall (refusal ctx) w.calls vars tried none ∧
      (setAll ctx dedicated vars).Makes o w (.ok ()) tried last) ∨
    ∃ tried f last, Attempts o setCall (refusal ctx) w.calls vars tried (some f) ∧
      (setAll ctx dedicated vars).Makes o w (.error f) (tried ++ released dedicated) last := by
  induction vars generalizing w with
  | nil => exact .inl ⟨[], w, .finished _, makes_pure⟩
  | cons v rest ih =>
    obtain ⟨name, value⟩ := v
    rw [setAll]
    by_cases hname : isName name = true
    · rw [if_pos hname]
      cases hcancelled : ctx.cancelled w.calls with
      | true =>
        have hrefused : refusal ctx w.calls (name, value) = some Context.cancellation := by
          simp [refusal, hname, hcancelled]
        obtain ⟨last, hrelease⟩ := makes_release (o := o) dedicated w
        exact .inr ⟨[], _, last, .refused hrefused,
          (makes_callIn_of_cancelled hcancelled _).bind (hrelease.bind_pure rfl)⟩
      | false =>
        have hsent : refusal ctx w.calls (name, value) = none := by
          simp [refusal, hname, hcancelled]
        have hcall := makes_callIn_of_open (o := o) hcancelled (setCall (name, value))
        cases hanswer : o.failure? w.calls (setCall (name, value)) with
        | some f =>
          rw [hanswer] at hcall
          obtain ⟨last, hrelease⟩ := makes_release (o := o) dedicated (w.after o _)
          exact .inr ⟨_, f, last, .failed hsent hanswer, hcall.bind (hrelease.bind_pure rfl)⟩
        | none =>
          rw [hanswer] at hcall
          rcases ih (w.after o (setCall (name, value))) with
            ⟨tried, last, hrest, hmakes⟩ | ⟨tried, f, last, hrest, hmakes⟩
          · exact .inl ⟨_, last, .next hsent hanswer hrest, hcall.bind hmakes⟩
          · exact .inr ⟨_, f, last, .next hsent hanswer hrest, hcall.bind hmakes⟩
    · rw [if_neg hname]
      have hrefused : refusal ctx w.calls (name, value) =
          some (.plain ("invalid session variable name: " ++ Text.quoted name)) := by
        simp [refusal, hname]
      obtain ⟨last, hrelease⟩ := makes_release (o := o) dedicated w
      exact .inr ⟨[], _, last, .refused hrefused, hrelease.bind_pure rfl⟩

theorem makes_runResets (statements : List String) (w : World) :
    ∃ made f last, Attempts o resetCall (fun _ _ => none) w.calls statements made f ∧
      (runResets statements).Makes o w f made last := by
  induction statements generalizing w with
  | nil => exact ⟨[], none, w, .finished _, makes_pure⟩
  | cons statement rest ih =>
    rw [runResets]
    have hcall := makes_call (o := o) (w := w) (resetCall statement)
    cases hanswer : o.failure? w.calls (resetCall statement) with
    | some f =>
      rw [hanswer] at hcall
      exact ⟨_, some f, _, .failed rfl hanswer, hcall.bind makes_pure⟩
    | none =>
      rw [hanswer] at hcall
      obtain ⟨made, f, last, hrest, hmakes⟩ := ih (w.after o (resetCall statement))
      exact ⟨_, f, last, .next rfl hanswer hrest, hcall.bind hmakes⟩

end Session

/-- The calls by which a leased connection is given back. -/
def GivenBack (o : Oracle) (before : List Call) (lease : Lease) (made : List Call) : Prop :=
  if lease.dedicated then
    ∃ run f, Attempts o resetCall (fun _ _ => none) before lease.resets run f ∧
      made = run ++ [.release]
  else made = []

theorem Session.makes_giveBack (lease : Lease) (w : World) :
    ∃ f made last, GivenBack o w.calls lease made ∧
      (giveBack lease).Makes o w f made last := by
  unfold GivenBack giveBack
  cases lease.dedicated with
  | false => exact ⟨none, [], w, rfl, makes_pure⟩
  | true =>
    obtain ⟨run, f, last, hrun, hmakes⟩ := makes_runResets (o := o) lease.resets w
    obtain ⟨_, hrelease⟩ := makes_release (o := o) true last
    exact ⟨f, run ++ [.release], _, ⟨run, f, hrun, rfl⟩,
      hmakes.bind (hrelease.bind_pure (b := f) rfl)⟩

/-! ## Statements on the pool -/

/-- The calls of one statement on the pool: no connection is given back, or one
is as soon as a variable cannot be set, or all variables are set before and
reset afterwards. -/
inductive Visited (dialect : String) (ctx : Context) (o : Oracle) (before : List Call) :
    List Call → Prop
  | kept {made : List Call} (hkept : Call.release ∉ made) : Visited dialect ctx o before made
  | abandoned {tried : List Call} {f : Failure}
      (htried : Attempts o setCall (refusal ctx) (before ++ [.acquire]) ctx.vars tried (some f)) :
      Visited dialect ctx o before (.acquire :: tried ++ [.release])
  | served {tried body run : List Call} {f : Option Failure}
      (htried : Attempts o setCall (refusal ctx) (before ++ [.acquire]) ctx.vars tried none)
      (hrun : Attempts o resetCall (fun _ _ => none) (before ++ (.acquire :: tried ++ body))
        (resets dialect (ctx.vars.map (·.1))) run f) :
      Visited dialect ctx o before (.acquire :: tried ++ body ++ (run ++ [.release]))

/-- A lease of a dedicated connection: it is not to be had, or a variable cannot
be set, or all are. -/
theorem Session.makes_lease (dialect : String) (hvars : ctx.vars.isEmpty = false) (w : World) :
    (∃ f made last, (lease dialect .pool ctx).Makes o w (.error f) made last ∧
      Call.release ∉ made) ∨
    (∃ f tried last,
      Attempts o setCall (refusal ctx) (w.calls ++ [.acquire]) ctx.vars tried (some f) ∧
      (lease dialect .pool ctx).Makes o w (.error f) (.acquire :: tried ++ [.release]) last) ∨
    ∃ tried last,
      Attempts o setCall (refusal ctx) (w.calls ++ [.acquire]) ctx.vars tried none ∧
      (lease dialect .pool ctx).Makes o w
        (.ok ⟨true, resets dialect (ctx.vars.map (·.1))⟩) (.acquire :: tried) last := by
  unfold lease
  rw [if_neg (by simp [hvars])]
  cases hcancelled : ctx.cancelled w.calls with
  | true =>
    exact .inl ⟨_, [], w, (makes_callIn_of_cancelled hcancelled _).bind makes_pure,
      not_mem_nil⟩
  | false =>
    have hacquire := makes_callIn_of_open (o := o) hcancelled .acquire
    cases hanswer : o.failure? w.calls .acquire with
    | some f =>
      rw [hanswer] at hacquire
      exact .inl ⟨f, [.acquire], _, hacquire.bind makes_pure, by simp⟩
    | none =>
      rw [hanswer] at hacquire
      rcases makes_setAll (o := o) ctx true ctx.vars (w.after o .acquire) with
        ⟨tried, last, htried, hmakes⟩ | ⟨tried, f, last, htried, hmakes⟩
      · exact .inr (.inr ⟨tried, last, htried, hacquire.bind (hmakes.bind_pure rfl)⟩)
      · exact .inr (.inl ⟨f, tried, last, htried, hacquire.bind (hmakes.bind_pure rfl)⟩)

/-- What uses a lease without giving a connection back, and gives the leased one
back at the end, visits the pool. -/
theorem visited_of_lease {β : Type} {use : Outcome Lease → Session β}
    (herror : ∀ f w, ∃ b, (use (.error f)).Makes o w b [] w)
    (hok : ∀ lease w, ∃ b body back last, (use (.ok lease)).Makes o w b (body ++ back) last ∧
      Call.release ∉ body ∧ GivenBack o (w.calls ++ body) lease back) (w : World) :
    ∃ b made last, (lease dialect .pool ctx >>= use).Makes o w b made last ∧
      Visited dialect ctx o w.calls made := by
  cases hvars : ctx.vars.isEmpty with
  | true =>
    have hlease : (lease dialect .pool ctx).Makes o w (.ok ⟨false, []⟩) [] w := by
      rw [lease, if_pos hvars]
      exact makes_pure
    obtain ⟨b, body, back, last, hmakes, hbody, hback⟩ := hok ⟨false, []⟩ w
    obtain rfl : back = [] := hback
    exact ⟨b, _, last, hlease.bind hmakes, .kept (by simpa using hbody)⟩
  | false =>
    rcases makes_lease (o := o) dialect hvars w with
      ⟨f, made, next, hlease, hkept⟩ | ⟨f, tried, next, htried, hlease⟩ |
      ⟨tried, next, htried, hlease⟩
    · obtain ⟨b, huse⟩ := herror f next
      exact ⟨b, _, next, hlease.bind huse, .kept (by simpa using hkept)⟩
    · obtain ⟨b, huse⟩ := herror f next
      refine ⟨b, _, next, hlease.bind huse, ?_⟩
      rw [append_nil]
      exact .abandoned htried
    · obtain ⟨b, body, back, last, huse, -, run, f, hrun, rfl⟩ :=
        hok ⟨true, resets dialect (ctx.vars.map (·.1))⟩ next
      refine ⟨b, _, last, hlease.bind huse, ?_⟩
      rw [← append_assoc]
      rw [hlease.calls, append_assoc] at hrun
      exact .served htried hrun

theorem Session.makes_callIn (ctx : Context) (c : Call) (w : World) :
    ∃ f made last, (callIn ctx c).Makes o w f made last ∧ made ⊆ [c] := by
  cases hcancelled : ctx.cancelled w.calls with
  | true => exact ⟨_, [], w, makes_callIn_of_cancelled hcancelled c, nil_subset _⟩
  | false => exact ⟨_, [c], _, makes_callIn_of_open hcancelled c, Subset.refl _⟩

theorem makes_execOn (statement : String) (args : List Datum) (w : World) :
    ∃ result made last, (execOn ctx statement args).Makes o w result made last ∧
      Call.release ∉ made := by
  obtain ⟨f, made, last, hcall, hmade⟩ :=
    makes_callIn (o := o) ctx (.exec statement args) w
  have hkept : Call.release ∉ made := fun hrelease => by simpa using hmade hrelease
  cases f with
  | some f | none =>
    exact ⟨_, made, last, makes_read (makes_get (hcall.bind_pure rfl)), hkept⟩

theorem makes_settled (lease : Lease) {run : Session (Outcome Nat)} {w : World}
    (hrun : ∃ result body next, run.Makes o w result body next ∧ Call.release ∉ body) :
    ∃ b body back last, (do
        let result ← run
        let closed ← giveBack lease
        return settled lease result closed : Session (Outcome Nat)).Makes o w b
          (body ++ back) last ∧
      Call.release ∉ body ∧ GivenBack o (w.calls ++ body) lease back := by
  obtain ⟨result, body, next, hrun, hbody⟩ := hrun
  obtain ⟨closed, back, last, hback, hclose⟩ := makes_giveBack (o := o) lease next
  rw [hrun.calls] at hback
  exact ⟨_, body, back, last, hrun.bind (hclose.bind_pure rfl), hbody, hback⟩

theorem visited_of_exec (dialect : String) (ctx : Context) (statement : String)
    (args : Arguments) (destination : Destination) (w : World) :
    ∃ b made last, (exec dialect .pool ctx statement args destination).Makes o w b made last ∧
      Visited dialect ctx o w.calls made := by
  cases args with
  | other type => exact ⟨_, [], w, makes_pure, .kept not_mem_nil⟩
  | list items =>
    apply visited_of_lease
    · exact fun f w => ⟨_, makes_pure⟩
    · intro lease w
      cases destination with
      | nowhere | affected => exact makes_settled lease (makes_execOn statement items w)
      | rows | other type =>
        exact makes_settled lease ⟨_, [], w, makes_pure, not_mem_nil⟩

/-- Runs a query, reads its rows to the end and closes them. -/
def Runner.queryAndClose (r : Runner) (ctx : Context) (statement : String)
    (args : Arguments) (destination : Destination) : Session (Outcome Cursor) := do
  match ← r.query ctx statement args destination with
  | .error failure => return .error failure
  | .ok rows =>
    let _ ← rows.exhaust
    let _ ← rows.close
    return .ok rows

theorem Cursor.makes_exhaust (rows : Cursor) (w : World) :
    rows.exhaust.Makes o w (rows.failure <|> o.failure? w.calls .closeRows) [.closeRows]
      (w.after o .closeRows) :=
  (makes_call .closeRows).bind_pure rfl

theorem Driver.plain_query (dialect : String) :
    (Driver.plain dialect).query = Database.query dialect .pool := rfl

theorem visited_of_queryAndClose (dialect : String) (ctx : Context) (statement : String)
    (args : Arguments) (destination : Destination) (w : World) :
    ∃ b made last, ((Driver.plain dialect).queryAndClose ctx statement args
        destination).Makes o w b made last ∧
      Visited dialect ctx o w.calls made := by
  rw [Runner.queryAndClose, Driver.plain_query]
  unfold query
  split
  · exact ⟨_, [], w, makes_pure, .kept not_mem_nil⟩
  · rename_i items
    rw [bind_assoc]
    apply visited_of_lease
    · exact fun f w => ⟨_, makes_pure⟩
    · intro lease w
      obtain ⟨f, body, next, hcall, hbody⟩ :=
        makes_callIn (o := o) ctx (.query statement items) w
      have hkept : Call.release ∉ body := fun hrelease => by simpa using hbody hrelease
      cases f with
      | some f =>
        obtain ⟨closed, back, last, hback, hclose⟩ := makes_giveBack (o := o) lease next
        rw [hcall.calls] at hback
        exact ⟨_, body, back, last, Makes.bind_pure (makes_read
          (makes_get (hcall.bind (hclose.bind_pure rfl)))) rfl, hkept, hback⟩
      | none =>
        obtain ⟨closed, back, last, hback, hclose⟩ :=
          makes_giveBack (o := o) lease (next.after o .closeRows)
        rw [World.after_calls, hcall.calls, append_assoc] at hback
        exact ⟨_, body ++ [.closeRows], back, last, by
          rw [append_assoc]
          exact Makes.bind
            (makes_read (makes_get (hcall.bind_pure rfl)))
            ((Cursor.makes_exhaust _ next).bind (hclose.bind_pure rfl)),
          by simpa using hkept, hback⟩
  · exact ⟨_, [], w, makes_pure, .kept not_mem_nil⟩

end Calls

/-! ## What is left on a connection -/

section Clean

variable (dialect : String) (ctx : Context) (o : Oracle) (before made : List Call)

/-- Every variable that was set is reset later. -/
def ReturnsClean : Prop :=
  ∀ v ∈ ctx.vars, ∀ earlier later, made = earlier ++ setCall v :: later →
    o.failure? (before ++ earlier) (setCall v) = none →
    ∃ reset, resetStatement? dialect v.1 = some reset ∧ resetCall reset ∈ later

/-- No reset of a variable fails. -/
def ResetsSucceed : Prop :=
  ∀ v ∈ ctx.vars, ∀ reset, resetStatement? dialect v.1 = some reset →
    ∀ earlier later, made = earlier ++ resetCall reset :: later →
      o.failure? (before ++ earlier) (resetCall reset) = none

/-- Some variables were set; the next one has no valid name, or the context is
cancelled when its turn comes, or the database refuses it.  The connection goes
back at once. -/
def LeftSet : Prop :=
  ∃ done v rest, ctx.vars = done ++ v :: rest ∧ done ≠ [] ∧
    Succeed o (before ++ [.acquire]) (done.map setCall) ∧
    ((isName v.1 = false ∨ ctx.cancelled (before ++ .acquire :: done.map setCall) = true) ∧
        made = .acquire :: done.map setCall ++ [.release] ∨
      (∃ f, o.failure? (before ++ .acquire :: done.map setCall) (setCall v) = some f) ∧
        made = .acquire :: done.map setCall ++ [setCall v, .release])

end Clean

section Returns

variable {dialect : String} {ctx : Context} {o : Oracle} {before made tried : List Call}

/-- The calls that set variables and give the connection back reset nothing. -/
theorem not_returnsClean_of_leftSet (h : LeftSet ctx o before made) :
    ¬ReturnsClean dialect ctx o before made := by
  intro hclean
  obtain ⟨done, v, rest, hvars, hdone, hset, hmade⟩ := h
  cases done with
  | nil => exact hdone rfl
  | cons first others =>
    -- The first variable is set right after the connection was taken.
    have hfirst (tail : List Call) (htail : ∀ reset, resetCall reset ∈ tail →
        resetStatement? dialect first.1 ≠ some reset)
        (hmade : made = .acquire :: (first :: others).map setCall ++ tail) : False := by
      obtain ⟨reset, hreset, hlater⟩ := hclean first (by rw [hvars]; simp) [.acquire]
        (others.map setCall ++ tail) (by rw [hmade]; rfl) hset.1
      rcases mem_append.1 hlater with hothers | hlater
      · obtain ⟨other, -, hsame⟩ := mem_map.1 hothers
        exact setCall_ne_resetCall hreset other hsame
      · exact htail reset hlater hreset
    rcases hmade with ⟨-, hmade⟩ | ⟨-, hmade⟩
    · exact hfirst [.release] (by simp [resetCall]) hmade
    · refine hfirst [setCall v, .release] (fun reset hmem hreset => ?_) hmade
      have hsame : resetCall reset = setCall v := by simpa [resetCall] using hmem
      exact setCall_ne_resetCall hreset v hsame.symm

/-- What stands before the last occurrence keeps all that follows. -/
theorem exists_of_append_eq {α : Type} {a : α} {front back earlier later : List α}
    (hback : a ∉ back) (h : front ++ back = earlier ++ a :: later) :
    ∃ middle, later = middle ++ back := by
  rcases append_eq_append_iff.1 h with ⟨middle, -, rfl⟩ | ⟨middle, -, hlater⟩
  · exact absurd (by simp) hback
  · cases middle with
    | nil => exact absurd (by rw [nil_append] at hlater; simp [← hlater]) hback
    | cons _ middle => exact ⟨middle, (cons.inj hlater).2⟩

theorem returnsClean_of_served {body run : List Call} {f : Option Failure}
    (hdialect : dialect = postgres.name ∨ dialect = mysql.name)
    (hrun : Attempts o resetCall (fun _ _ => none) (before ++ (.acquire :: tried ++ body))
      (resets dialect (ctx.vars.map (·.1))) run f)
    (hresets : ResetsSucceed dialect ctx o before
      (.acquire :: tried ++ body ++ (run ++ [.release]))) :
    ReturnsClean dialect ctx o before (.acquire :: tried ++ body ++ (run ++ [.release])) := by
  cases f with
  | some f =>
    obtain ⟨done, reset, rest, hitems, -, ⟨-, hrefused⟩ | ⟨rfl, hfailed⟩⟩ := hrun.made_of_some
    · cases hrefused
    · obtain ⟨name, hname, hreset⟩ := mem_resets.1 (hitems ▸ mem_append_cons_self)
      obtain ⟨v, hv, rfl⟩ := mem_map.1 hname
      have hok := hresets v hv reset hreset (.acquire :: tried ++ body ++ done.map resetCall)
        [.release] (by simp)
      rw [← append_assoc, hfailed] at hok
      cases hok
  | none =>
    obtain ⟨rfl, -⟩ := hrun.made_of_none
    intro v hv earlier later hmade _
    obtain ⟨reset, hreset⟩ : ∃ reset, resetStatement? dialect v.1 = some reset := by
      rcases hdialect with rfl | rfl
      · exact ⟨_, rfl⟩
      · exact ⟨_, rfl⟩
    have hset : setCall v ∉ (resets dialect (ctx.vars.map (·.1))).map resetCall ++ [.release] := by
      intro hmem
      rcases mem_append.1 hmem with hmem | hmem
      · obtain ⟨other, hother, hsame⟩ := mem_map.1 hmem
        obtain ⟨name, -, hother⟩ := mem_resets.1 hother
        exact setCall_ne_resetCall hother v hsame.symm
      · simp [setCall] at hmem
    obtain ⟨middle, rfl⟩ := exists_of_append_eq hset hmade
    have hmem : reset ∈ resets dialect (ctx.vars.map (·.1)) :=
      mem_resets.2 ⟨v.1, mem_map_of_mem hv, hreset⟩
    exact ⟨reset, hreset, mem_append_right _ (mem_append_left _ (mem_map_of_mem hmem))⟩

theorem returnsClean_or_leftSet_of_abandoned
    (htried : Attempts o setCall (refusal ctx) (before ++ [.acquire]) ctx.vars tried (some f)) :
    ReturnsClean dialect ctx o before (.acquire :: tried ++ [.release]) ∨
      LeftSet ctx o before (.acquire :: tried ++ [.release]) := by
  obtain ⟨done, v, rest, hvars, hdone, hend⟩ := htried.made_of_some
  rw [append_assoc, singleton_append] at hend
  cases done with
  | nil =>
    -- Nothing was set before.
    refine .inl fun u _ earlier later hmade hok => ?_
    have hnone (calls : List Call) (h : setCall u ∉ calls) (front : List Call) :
        calls ≠ front ++ setCall u :: later :=
      fun hcalls => h (hcalls ▸ mem_append_cons_self)
    rcases hend with ⟨rfl, -⟩ | ⟨rfl, hfailed⟩
    · exact absurd hmade (hnone _ (by simp [setCall]) earlier)
    · rcases earlier with _ | ⟨c, _ | ⟨d, earlier⟩⟩
      · cases (cons.inj hmade).1
      · obtain ⟨rfl, htail⟩ := cons.inj hmade
        have hsame : setCall v = setCall u := (cons.inj htail).1
        rw [← hsame] at hok
        exact absurd (hfailed.symm.trans hok) (Option.some_ne_none f)
      · have hrelease := (cons.inj (cons.inj hmade).2).2
        exact absurd hrelease (hnone _ (by simp [setCall]) earlier)
  | cons first others =>
    refine .inr ⟨first :: others, v, rest, hvars, cons_ne_nil _ _, hdone, ?_⟩
    rcases hend with ⟨rfl, hrefused⟩ | ⟨rfl, hfailed⟩
    · exact .inl ⟨of_refusal_eq_some hrefused, rfl⟩
    · exact .inr ⟨⟨f, hfailed⟩, by simp⟩

theorem Visited.returnsClean_iff
    (hdialect : dialect = postgres.name ∨ dialect = mysql.name)
    (h : Visited dialect ctx o before made) (hreleased : Call.release ∈ made)
    (hresets : ResetsSucceed dialect ctx o before made) :
    ReturnsClean dialect ctx o before made ↔ ¬LeftSet ctx o before made := by
  refine ⟨fun hclean hleft => not_returnsClean_of_leftSet hleft hclean, fun hleft => ?_⟩
  cases h with
  | kept hkept => exact absurd hreleased hkept
  | abandoned htried => exact (returnsClean_or_leftSet_of_abandoned htried).resolve_right hleft
  | served _ hrun => exact returnsClean_of_served hdialect hrun hresets

end Returns

/-- Whenever a statement, or a query whose rows are closed, gives its connection
back and no reset fails, the connection is clean unless the variables were
abandoned half-way. -/
theorem released_clean_iff {dialect : String}
    (hdialect : dialect = postgres.name ∨ dialect = mysql.name)
    (ctx : Context) (o : Oracle) (w : World) (statement : String) (args : Arguments)
    (destination : Destination) :
    (∃ made, (((Driver.plain dialect).exec ctx statement args destination).run o w).2.calls =
        w.calls ++ made ∧
      (Call.release ∈ made → ResetsSucceed dialect ctx o w.calls made →
        (ReturnsClean dialect ctx o w.calls made ↔ ¬LeftSet ctx o w.calls made))) ∧
    ∃ made,
      (((Driver.plain dialect).queryAndClose ctx statement args destination).run o w).2.calls =
        w.calls ++ made ∧
      (Call.release ∈ made → ResetsSucceed dialect ctx o w.calls made →
        (ReturnsClean dialect ctx o w.calls made ↔ ¬LeftSet ctx o w.calls made)) := by
  constructor
  · obtain ⟨b, made, last, hmakes, hvisited⟩ :=
      visited_of_exec (o := o) dialect ctx statement args destination w
    exact ⟨made, hmakes.run_calls, hvisited.returnsClean_iff hdialect⟩
  · obtain ⟨b, made, last, hmakes, hvisited⟩ :=
      visited_of_queryAndClose (o := o) dialect ctx statement args destination w
    exact ⟨made, hmakes.run_calls, hvisited.returnsClean_iff hdialect⟩

/-- A database that accepts everything. -/
def Oracle.willing : Oracle :=
  ⟨fun _ _ => none, fun _ _ => 0, fun _ _ => ([], none), fun _ _ => 0⟩

/-- The second of these variables has no valid name. -/
def Context.misnamed : Context := ⟨[("a", "1"), ("b c", "2")], fun _ => false⟩

theorem released_with_variable_set :
    (((Driver.plain "postgres").exec .misnamed "SELECT 1" (.list []) .affected).run .willing
        (World.new 0)).2.calls = [.acquire, .exec "SET a = '1'" [], .release] ∧
      ResetsSucceed "postgres" .misnamed .willing []
        [.acquire, .exec "SET a = '1'" [], .release] ∧
      ¬ReturnsClean "postgres" .misnamed .willing []
        [.acquire, .exec "SET a = '1'" [], .release] := by
  have hcalls : (((Driver.plain "postgres").exec .misnamed "SELECT 1" (.list []) .affected).run
      .willing (World.new 0)).2.calls = [.acquire, .exec "SET a = '1'" [], .release] := by
    rfl
  have hresets : ResetsSucceed "postgres" .misnamed .willing []
      [.acquire, .exec "SET a = '1'" [], .release] := fun _ _ _ _ _ _ _ => rfl
  obtain ⟨made, hmade, hclean⟩ := (released_clean_iff (.inl rfl) .misnamed .willing (World.new 0)
    "SELECT 1" (.list []) .affected).1
  obtain rfl : [.acquire, .exec "SET a = '1'" [], .release] = made := hcalls.symm.trans hmade
  refine ⟨hcalls, hresets, fun h => (hclean (by simp) hresets).1 h ?_⟩
  exact ⟨[("a", "1")], ("b c", "2"), [], rfl, by simp, ⟨rfl, trivial⟩, .inl ⟨.inl rfl, rfl⟩⟩

/-! ## The values of session variables -/

open Variable

/-- What a backslash and the character behind it stand for, where it starts an escape. -/
def escaped : Char → List Char
  | '0' => ['\x00']
  | 'b' => ['\x08']
  | 'n' => ['\n']
  | 'r' => ['\r']
  | 't' => ['\t']
  | 'Z' => ['\x1a']
  | '%' => ['\\', '%']
  | '_' => ['\\', '_']
  | c => [c]

/-- Reads up to the closing quote: the value, and the text behind the literal. -/
def readQuoted (escapes : Bool) : List Char → Option (List Char × List Char)
  | [] => none
  | '\'' :: '\'' :: rest => (readQuoted escapes rest).map (Prod.map ('\'' :: ·) id)
  | '\'' :: rest => some ([], rest)
  | '\\' :: c :: rest =>
    if escapes then (readQuoted escapes rest).map (Prod.map (escaped c ++ ·) id)
    else (readQuoted escapes (c :: rest)).map (Prod.map ('\\' :: ·) id)
  | c :: rest => (readQuoted escapes rest).map (Prod.map (c :: ·) id)

/-- Reads the literal that a text starts with. -/
def readLiteral (dialect : Dialect) (text : String) : Option (String × String) :=
  match text.toList with
  | '\'' :: rest =>
    (readQuoted (dialect = .mysql) rest).map (Prod.map String.ofList String.ofList)
  | _ => none

/-! ## Reading what was written -/

/-- What is read of a character that was written as part of a value. -/
def readBack (escapes : Bool) (c : Char) : List Char :=
  if c = '\\' ∧ escapes = false then ['\\', '\\'] else [c]

theorem readQuoted_backslash (rest : List Char) :
    readQuoted false ('\\' :: rest) = (readQuoted false rest).map (Prod.map ('\\' :: ·) id) := by
  cases rest <;> simp [readQuoted]

theorem readQuoted_escapeChars (escapes : Bool) (value : List Char) :
    readQuoted escapes (escapeChars value ++ ['\'']) =
      some (value.flatMap (readBack escapes), []) := by
  induction value with
  | nil => rfl
  | cons c rest ih =>
    rw [flatMap_cons]
    by_cases hslash : c = '\\'
    · subst hslash
      cases escapes with
      | true => simp [escapeChars, readQuoted, ih, readBack, escaped]
      | false => simp [escapeChars, readQuoted_backslash, ih, readBack]
    by_cases hquote : c = '\''
    · subst hquote
      simp [escapeChars, readQuoted, ih, readBack]
    · simp [escapeChars, readQuoted, ih, readBack, hslash, hquote]

theorem length_le_flatMap_readBack (escapes : Bool) (value : List Char) :
    value.length ≤ (value.flatMap (readBack escapes)).length := by
  induction value with
  | nil => exact Nat.le_refl 0
  | cons c rest ih =>
    have hpos : 1 ≤ (readBack escapes c).length := by
      unfold readBack
      split_ifs <;> simp
    rw [flatMap_cons, length_append, length_cons]
    omega

theorem flatMap_readBack_eq_self (escapes : Bool) (value : List Char) :
    value.flatMap (readBack escapes) = value ↔ escapes = true ∨ '\\' ∉ value := by
  induction value with
  | nil => simp
  | cons c rest ih =>
    rw [flatMap_cons, readBack]
    split_ifs with hdoubled
    · -- A doubled backslash makes the text longer for good.
      obtain ⟨rfl, rfl⟩ := hdoubled
      have hle := length_le_flatMap_readBack false rest
      refine iff_of_false (fun hself => ?_) (by simp)
      have hlength := congrArg length hself
      simp only [length_append, length_cons, length_nil] at hlength
      omega
    · rw [singleton_append, cons_inj_right, ih]
      grind

theorem readLiteral_literal (dialect : Dialect) (value : String) :
    readLiteral dialect (literal value) =
      some (String.ofList (value.toList.flatMap (readBack (dialect = .mysql))), "") := by
  have hliteral : (literal value).toList = '\'' :: (escapeChars value.toList ++ ['\'']) := by
    simp [literal]
  simp [readLiteral, hliteral, readQuoted_escapeChars]

/-- Variables are set by statements that end in one literal each, whatever their values are.  Its
value is the variable's if backslashes start escapes, and else only if there are none. -/
theorem set_values_read_iff (dialect : Dialect) (ctx : Context) (dedicated : Bool)
    (vars : List (String × String)) (o : Oracle) (w : World) :
    (∃ tried failure,
      Attempts o (fun v => .exec ("SET " ++ v.1 ++ " = " ++ literal v.2) []) (refusal ctx)
        w.calls vars tried failure ∧
      ((Session.setAll ctx dedicated vars).run o w).2.calls ∈
        [w.calls ++ tried, w.calls ++ tried ++ [.release]]) ∧
    ∀ value, ∃ got, readLiteral dialect (literal value) = some (got, "") ∧
      (got = value ↔ dialect = .mysql ∨ '\\' ∉ value.toList) := by
  constructor
  · rcases Session.makes_setAll (o := o) ctx dedicated vars w with
      ⟨tried, last, htried, hmakes⟩ | ⟨tried, f, last, htried, hmakes⟩
    · exact ⟨tried, none, htried, by simp [hmakes.run_calls]⟩
    · refine ⟨tried, some f, htried, ?_⟩
      cases dedicated <;> simp [hmakes.run_calls, Session.released]
  · intro value
    refine ⟨_, readLiteral_literal dialect value, ?_⟩
    rw [← String.toList_inj, String.toList_ofList, flatMap_readBack_eq_self, decide_eq_true_iff]

example : readLiteral .postgres (literal "x\\y") = some ("x\\\\y", "") := by decide

end SchemaCompiler.Database
