import Mathlib.Data.List.DropRight
import SchemaCompiler.Database.Driver
import SchemaCompiler.Proofs.Sessions

/-!
# Decorated drivers

A driver that counts or logs does for its clients what the driver below does: the replies are the
same, and so are the calls that reach the database.  The counters are those of the statements since
they were last reset.
-/

namespace SchemaCompiler.Database

open List Statistics

/-- The world `v` after the calls of `w`, with a clock that is `n` ahead of the one of `w`. -/
def World.beside (v w : World) (n : Nat) : World :=
  { v with calls := w.calls, clock := w.clock + n }

/-- The world `v` differs from `w` in what was counted and logged, and it may be later in it. -/
structure World.Ahead (w v : World) : Prop where
  calls : v.calls = w.calls
  threshold : v.threshold = w.threshold
  clock : w.clock ≤ v.clock

theorem World.Ahead.trans {w v u : World} (hv : w.Ahead v) (hu : v.Ahead u) : w.Ahead u :=
  ⟨hu.calls.trans hv.calls, hu.threshold.trans hv.threshold, hv.clock.trans hu.clock⟩

/-- The world once its clock was looked at. -/
def World.tick (w : World) : World := { w with clock := w.clock + 1 }

theorem World.ahead_tick (w : World) : w.Ahead w.tick := ⟨rfl, rfl, Nat.le_succ _⟩

/-! ## Sessions that do not see what is counted and logged -/

namespace Session

variable {α β γ δ : Type} {s : Session α} {t : Session β} {o : Oracle} {w v : World}
  {R : α → β → Prop} {S : γ → δ → Prop} {note : Oracle → World → Statistics → Statistics}

/-- Whatever was counted and logged and however late it is, the session gives the same, makes the
same calls and takes the same time.  It may log but does not count. -/
def Unaware (s : Session α) : Prop :=
  ∀ (o : Oracle) (w v : World) (n : Nat), ∃ logs,
    s.run o (v.beside w n) = ((s.run o w).1, { v.beside (s.run o w).2 n with logs })

theorem unaware_pure {a : α} : (pure a : Session α).Unaware := fun _ _ v _ => ⟨v.logs, rfl⟩

theorem Unaware.bind {f : α → Session β} (hs : s.Unaware) (hf : ∀ a, (f a).Unaware) :
    (s >>= f).Unaware := by
  intro o w v n
  obtain ⟨logs, hrun⟩ := hs o w v n
  obtain ⟨later, hlater⟩ := hf (s.run o w).1 o (s.run o w).2 { v with logs } n
  exact ⟨later, (run_bind hrun f).trans hlater⟩

theorem unaware_get {f : World → Session β} (hcalls : ∀ w v n, f (World.beside v w n) = f w)
    (hf : ∀ w, (f w).Unaware) : (get >>= f).Unaware := by
  intro o w v n
  rw [run_get, run_get, hcalls]
  exact hf w o w v n

theorem unaware_read {f : Oracle → Session β} (hf : ∀ o, (f o).Unaware) :
    (read >>= f).Unaware := fun o w v n => hf o o w v n

theorem unaware_call (c : Call) : (call c).Unaware := by
  intro o w v n
  use v.logs
  change (_, World.mk _ _ _ _ (w.clock + n + o.takes w.calls c)) = _
  rw [Nat.add_right_comm]
  rfl

theorem unaware_callIn (ctx : Context) (c : Call) : (callIn ctx c).Unaware := by
  refine unaware_get (fun _ _ _ => rfl) fun w => ?_
  split
  · exact unaware_pure
  · exact unaware_call c

theorem unaware_commitIn (ctx : Context) : (commitIn ctx).Unaware := by
  refine unaware_get (fun _ _ _ => rfl) fun w => ?_
  split
  · exact (unaware_call _).bind fun _ => unaware_pure
  · exact unaware_call _

theorem unaware_release (dedicated : Bool) : (release dedicated).Unaware := by
  cases dedicated with
  | false => exact unaware_pure
  | true => exact (unaware_call _).bind fun _ => unaware_pure

theorem unaware_runResets (statements : List String) : (runResets statements).Unaware := by
  induction statements with
  | nil => exact unaware_pure
  | cons statement rest ih =>
    refine (unaware_call _).bind fun failure => ?_
    cases failure with
    | none => exact ih
    | some failure => exact unaware_pure

theorem unaware_giveBack (lease : Lease) : (giveBack lease).Unaware := by
  unfold giveBack
  split
  · exact (unaware_runResets _).bind fun _ => (unaware_release true).bind fun _ => unaware_pure
  · exact unaware_pure

theorem unaware_setAll (ctx : Context) (dedicated : Bool) (vars : List (String × String)) :
    (setAll ctx dedicated vars).Unaware := by
  have hfailed (failure : Failure) :
      (do release dedicated; return .error failure : Session (Outcome Unit)).Unaware :=
    (unaware_release dedicated).bind fun _ => unaware_pure
  induction vars with
  | nil => exact unaware_pure
  | cons v rest ih =>
    rw [setAll]
    split
    · refine (unaware_callIn ctx _).bind fun failure => ?_
      cases failure with
      | none => exact ih
      | some failure => exact hfailed failure
    · exact hfailed _

theorem unaware_lease (dialect : String) (place : Place) (ctx : Context) :
    (lease dialect place ctx).Unaware := by
  unfold lease
  split
  · exact unaware_pure
  · dsimp only
    split <;> [refine (unaware_callIn ctx _).bind ?_; refine unaware_pure.bind ?_]
    all_goals
      intro acquired
      cases acquired with
      | some failure => exact unaware_pure
      | none =>
        refine (unaware_setAll ctx _ _).bind fun outcome => ?_
        cases outcome <;> exact unaware_pure

/-- How long a session takes by the clock, which is looked at before and behind it. -/
def time (s : Session α) (o : Oracle) (w : World) : Duration :=
  ((do
    let began ← now
    let _ ← s
    let ended ← now
    return (ended : Int) - began : Session Duration).run o w).1

/-- The session `t` stands for `s`: it makes the same calls, gives what is related by `R` and
changes the statistics by `note`. -/
def Shadows (R : α → β → Prop) (note : Oracle → World → Statistics → Statistics)
    (s : Session α) (t : Session β) : Prop :=
  ∀ (o : Oracle) (w v : World), w.Ahead v → R (s.run o w).1 (t.run o v).1 ∧
    (s.run o w).2.Ahead (t.run o v).2 ∧ (t.run o v).2.statistics = note o w v.statistics

theorem Unaware.run_ahead (hs : s.Unaware) (o : Oracle) (hv : w.Ahead v) :
    ∃ logs, s.run o v =
        ((s.run o w).1, { v.beside (s.run o w).2 (v.clock - w.clock) with logs }) ∧
      (s.run o w).2.Ahead { v.beside (s.run o w).2 (v.clock - w.clock) with logs } := by
  have hbeside : v.beside w (v.clock - w.clock) = v := by
    rw [World.beside, ← hv.calls, Nat.add_sub_cancel' hv.clock]
  obtain ⟨logs, hrun⟩ := hs o w v (v.clock - w.clock)
  obtain ⟨_, hsame⟩ := hs o w w 0
  rw [hbeside] at hrun
  exact ⟨logs, hrun, rfl,
    hv.threshold.trans (congrArg (·.2.threshold) hsame).symm, Nat.le_add_right ..⟩

/-- The statistics where nothing is counted. -/
def kept (_ : Oracle) (_ : World) (st : Statistics) : Statistics := st

theorem Unaware.shadows (hs : s.Unaware) : Shadows Eq kept s s := by
  intro o w v hv
  obtain ⟨logs, hrun, hahead⟩ := hs.run_ahead o hv
  rw [hrun]
  exact ⟨rfl, hahead, rfl⟩

theorem Shadows.log_first (h : Shadows R note s t) (line : LogLine) :
    Shadows R note s (do log line; t) :=
  fun o w v hv => h o w { v with logs := v.logs ++ [line] } (hv.trans ⟨rfl, rfl, le_rfl⟩)

/-- What is made of the result may be logged. -/
theorem Shadows.andThen (h : Shadows R note s t) {g : α → γ} {f : β → Session δ}
    (hf : ∀ a b, R a b → ∀ o v, S (g a) ((f b).run o v).1 ∧ v.Ahead ((f b).run o v).2 ∧
      ((f b).run o v).2.statistics = v.statistics) :
    Shadows S note (g <$> s) (t >>= f) := by
  intro o w v hv
  obtain ⟨hresult, hnext, hnote⟩ := h o w v hv
  obtain ⟨hlast, hahead, hkept⟩ := hf _ _ hresult o (t.run o v).2
  exact ⟨hlast, hnext.trans hahead, hkept.trans hnote⟩

theorem Shadows.map (h : Shadows R note s t) {g : α → γ} {k : β → δ}
    (hg : ∀ a b, R a b → S (g a) (k b)) : Shadows S note (g <$> s) (k <$> t) :=
  h.andThen (f := fun b => pure (k b)) fun a b hab _ _ => ⟨hg a b hab, ⟨rfl, rfl, le_rfl⟩, rfl⟩

end Session

open Session

/-! ## Drivers that know of no decoration -/

/-- What a statement gives: rows, or the number of those it affects. -/
abbrev Given : Bool → Type
  | true => Cursor
  | false => Nat

/-- A statement as it is handed to a driver. -/
structure Request where
  isQuery : Bool
  ctx : Context
  statement : String
  args : Arguments
  destination : Destination

def Runner.run (r : Runner) : (q : Request) → Session (Outcome (Given q.isQuery))
  | ⟨true, ctx, statement, args, destination⟩ => r.query ctx statement args destination
  | ⟨false, ctx, statement, args, destination⟩ => r.exec ctx statement args destination

def Transaction.finish (t : Transaction) (commits : Bool) : Session (Option Failure) :=
  if commits then t.commit else t.rollback

structure Transaction.Unaware (t : Transaction) : Prop where
  run : ∀ q, (t.run q).Unaware
  finish : ∀ commits, (t.finish commits).Unaware

/-- Neither the driver nor a transaction that it starts sees what decorations count and log. -/
structure Driver.Unaware (d : Driver) : Prop where
  run : ∀ q, (d.run q).Unaware
  start : ∀ ctx, (d.start ctx).Unaware
  started : ∀ ctx o w t, ((d.start ctx).run o w).1 = .ok t → t.Unaware

theorem unaware_run (dialect : String) (place : Place) :
    ∀ q, (Runner.run ⟨exec dialect place, query dialect place⟩ q).Unaware
  | ⟨true, ctx, statement, args, destination⟩ => by
    change (query dialect place ctx statement args destination).Unaware
    unfold query
    split
    · exact unaware_pure
    · refine (unaware_lease dialect place ctx).bind fun lease => ?_
      cases lease with
      | error failure => exact unaware_pure
      | ok lease =>
        refine unaware_read fun o => unaware_get (fun _ _ _ => rfl) fun w => ?_
        refine (unaware_callIn ctx _).bind fun failure => ?_
        cases failure with
        | none => exact unaware_pure
        | some failure => exact (unaware_giveBack lease).bind fun _ => unaware_pure
    · exact unaware_pure
  | ⟨false, _, _, .other _, _⟩ => unaware_pure
  | ⟨false, ctx, statement, .list items, destination⟩ => by
    have hexec : (execOn ctx statement items).Unaware := by
      refine unaware_read fun o => unaware_get (fun _ _ _ => rfl) fun w => ?_
      refine (unaware_callIn ctx _).bind fun failure => ?_
      cases failure <;> exact unaware_pure
    refine (unaware_lease dialect place ctx).bind fun lease => ?_
    cases lease with
    | error failure => exact unaware_pure
    | ok lease =>
      have hback (result : Outcome Nat) : (do
          let closed ← giveBack lease
          return settled lease result closed).Unaware :=
        (unaware_giveBack lease).bind fun _ => unaware_pure
      cases destination with
      | nowhere | affected => exact hexec.bind hback
      | rows | other type => exact unaware_pure.bind hback

theorem Driver.unaware_plain (dialect : String) : (Driver.plain dialect).Unaware where
  run := unaware_run dialect .pool
  start ctx := by
    refine (unaware_callIn ctx _).bind fun failure => ?_
    cases failure <;> exact unaware_pure
  started ctx o w t h := by
    have hrun : ((Driver.plain dialect).start ctx).run o w = _ :=
      run_bind (a := ((callIn ctx .start).run o w).1) rfl _
    rw [hrun] at h
    cases hstart : ((callIn ctx .start).run o w).1 with
    | some failure =>
      rw [hstart] at h
      cases h
    | none =>
      rw [hstart] at h
      cases h
      exact ⟨unaware_run dialect .transaction, fun
        | true => unaware_commitIn ctx
        | false => unaware_call _⟩

/-! ## Decorations -/

/-- The statistics after a statement, which may be counted. -/
def noted {α : Type} (counts isQuery : Bool) (s : Session (Outcome α)) (o : Oracle) (w : World)
    (st : Statistics) : Statistics :=
  if counts then st.record isQuery (isError (s.run o w).1) w.threshold (s.time o w) else st

theorem run_count (statement : String) (isQuery failed : Bool) (began ended : Nat) (o : Oracle)
    (v : World) :
    v.Ahead ((count statement isQuery failed began ended).run o v).2 ∧
      ((count statement isQuery failed began ended).run o v).2.statistics =
        v.statistics.record isQuery failed v.threshold ((ended : Int) - began) := by
  have hrun : (count statement isQuery failed began ended).run o v =
    (if v.threshold < (ended : Int) - began then log _ else pure () : Session Unit).run o _ := rfl
  rw [hrun]
  split_ifs <;> exact ⟨⟨rfl, rfl, le_rfl⟩, rfl⟩

theorem shadows_counting {α : Type} {s : Session (Outcome α)} (hs : s.Unaware) (isQuery : Bool)
    (statement : String) :
    Shadows Eq (noted true isQuery s) s (counting isQuery statement s) := by
  intro o w v hv
  -- Both `time` and `counting` look at the clock before and behind `s`, and each look moves it on.
  obtain ⟨logs, hlater, hnext⟩ := hs.run_ahead o (hv.trans v.ahead_tick)
  have htime : s.time o w = (s.run o w).2.clock + 1 - w.clock := by
    change ((s.run o w.tick).2.clock : Int) - w.clock = _
    obtain ⟨_, htick, _⟩ := hs.run_ahead o w.ahead_tick
    rw [htick]
    simp [World.beside, World.tick]
  have hcounting : (counting isQuery statement s).run o v = ((s.run o v.tick).1,
      ((count statement isQuery (isError (s.run o v.tick).1) v.clock (s.run o v.tick).2.clock).run o
        (s.run o v.tick).2.tick).2) := rfl
  obtain ⟨hahead, hcount⟩ := run_count statement isQuery (isError (s.run o v.tick).1) v.clock
    (s.run o v.tick).2.clock o (s.run o v.tick).2.tick
  rw [hcounting]
  refine ⟨by rw [hlater], ?_, hcount.trans ?_⟩
  · refine World.Ahead.trans ?_ (World.ahead_tick _ |>.trans hahead)
    rw [hlater]
    exact hnext
  · rw [hlater, noted, htime]
    have htaken : (((s.run o w).2.clock + (v.clock + 1 - w.clock) : Nat) : Int) - v.clock =
        (s.run o w).2.clock + 1 - w.clock := by
      have hclock := hv.clock
      omega
    exact congrArg₂ (v.statistics.record isQuery _) hv.threshold htaken

/-- The decorations, each of which may be missing: counting goes on below logging. -/
def Runner.decorated (counts logs : Bool) (attributes : Attributes) (r : Runner) : Runner :=
  let r := if counts then r.counted else r
  if logs then r.logged attributes else r

def Transaction.decorated (counts logs : Bool) (attributes : Attributes) (t : Transaction) :
    Transaction :=
  let t := if counts then t.counted else t
  if logs then t.logged attributes else t

def Driver.decorated (counts logs : Bool) (d : Driver) : Driver :=
  let d := if counts then d.counted else d
  if logs then d.logged else d

/-- What the log lines of a transaction say of it. -/
def Driver.inside (d : Driver) : Attributes := [("dialect", d.dialect), ("tx", "true")]

variable {counts logs : Bool} {attributes : Attributes} {t : Transaction} {d : Driver}
  {opened : List Transaction} {o : Oracle} {w v : World}

theorem Runner.run_counted (r : Runner) :
    ∀ q, r.counted.run q = counting q.isQuery q.statement (r.run q)
  | ⟨true, _, _, _, _⟩ | ⟨false, _, _, _, _⟩ => rfl

theorem Runner.run_logged (r : Runner) (attributes : Attributes) :
    ∀ q, ∃ line, (r.logged attributes).run q = do log line; r.run q
  | ⟨true, _, _, _, _⟩ | ⟨false, _, _, _, _⟩ => ⟨_, rfl⟩

theorem Runner.shadows_decorated {r : Runner} {q : Request} (hr : (r.run q).Unaware) :
    Shadows Eq (noted counts q.isQuery (r.run q)) (r.run q)
      ((r.decorated counts logs attributes).run q) := by
  have hcounted : Shadows Eq (noted counts q.isQuery (r.run q)) (r.run q)
      ((if counts then r.counted else r).run q) := by
    cases counts with
    | false => exact hr.shadows
    | true => exact r.run_counted q ▸ shadows_counting hr _ _
  cases logs with
  | false => exact hcounted
  | true =>
    obtain ⟨line, hline⟩ := Runner.run_logged (if counts then r.counted else r) attributes q
    exact hline ▸ hcounted.log_first line

theorem Transaction.shadows_decorated (ht : t.Unaware) (commits : Bool) :
    Shadows Eq kept (t.finish commits)
      ((t.decorated counts logs attributes).finish commits) := by
  have hend (message : String) : Shadows Eq kept (t.finish commits)
      (loggedEnd attributes message (t.finish commits)) :=
    (ht.finish commits).shadows.andThen (g := id) fun _ _ hab _ _ =>
      ⟨hab, ⟨rfl, rfl, le_rfl⟩, rfl⟩
  cases logs with
  | false => cases counts <;> exact (ht.finish commits).shadows
  | true => cases counts <;> cases commits <;> exact hend _

theorem Driver.start_decorated (d : Driver) (counts logs : Bool) (ctx : Context) :
    ∃ f, (d.decorated counts logs).start ctx = d.start ctx >>= f ∧ ∀ a o v,
      ((f a).run o v).1 = a.map (·.decorated counts logs d.inside) ∧
        v.Ahead ((f a).run o v).2 ∧ ((f a).run o v).2.statistics = v.statistics := by
  cases counts <;> cases logs <;>
    [refine ⟨pure, (bind_pure _).symm, ?_⟩; refine ⟨_, rfl, ?_⟩; refine ⟨_, rfl, ?_⟩;
      refine ⟨_, bind_assoc .., ?_⟩] <;>
    rintro (_ | _) o v <;> exact ⟨rfl, ⟨rfl, rfl, le_rfl⟩, rfl⟩

theorem Driver.shadows_decorated (hd : d.Unaware) (ctx : Context) :
    Shadows
      (fun a b => b = a.map (·.decorated counts logs d.inside) ∧ ∀ t, a = .ok t → t.Unaware)
      kept (d.start ctx) ((d.decorated counts logs).start ctx) := by
  obtain ⟨f, hstart, hf⟩ := d.start_decorated counts logs ctx
  have hsame : Shadows (fun a b => a = b ∧ ∀ t, a = .ok t → t.Unaware) kept
      (d.start ctx) (d.start ctx) := by
    intro o w v hv
    obtain ⟨hsame, hnext⟩ := (hd.start ctx).shadows o w v hv
    exact ⟨⟨hsame, hd.started ctx o w⟩, hnext⟩
  rw [hstart]
  refine hsame.andThen (g := id) fun a b hab o v => ?_
  obtain ⟨rfl, ht⟩ := hab
  exact ⟨⟨(hf a o v).1, ht⟩, (hf a o v).2⟩

/-! ## Clients -/

/-- What a client asks of a driver and of the transactions that it got, which are numbered. -/
inductive Ask where
  | run (inside : Option Nat) (q : Request)
  | start (ctx : Context)
  | finish (number : Nat) (commits : Bool)
  /-- Starts the statistics afresh. -/
  | reset
  | setThreshold (threshold : Duration)

inductive Reply where
  | ran (isQuery : Bool) (result : Outcome (Given isQuery))
  | started (result : Outcome Unit)
  | ended (failure : Option Failure)
  | reset
  | none

/-- A reply, how long it took, and from when on it was slow. -/
structure Entry where
  reply : Reply
  took : Duration
  threshold : Duration

/-- The session that serves a client with open transactions. -/
def Driver.act (d : Driver) (opened : List Transaction) :
    Ask → Session (Reply × List Transaction)
  | .run none q => (.ran q.isQuery ·, opened) <$> d.run q
  | .run (some number) q =>
    match opened[number]? with
    | none => return (.none, opened)
    | some t => (.ran q.isQuery ·, opened) <$> t.run q
  | .start ctx =>
    (fun a => (.started (a.map fun _ => ()), opened ++ a.toOption.toList)) <$> d.start ctx
  | .finish number commits =>
    match opened[number]? with
    | none => return (.none, opened)
    | some t => (.ended ·, opened) <$> t.finish commits
  | .reset => do
    modify ({ · with statistics := .zero })
    return (.reset, opened)
  | .setThreshold threshold => do
    modify ({ · with threshold })
    return (.none, opened)

/-- The replies to what is asked one after the other, and the world behind them. -/
def Driver.serve (d : Driver) (o : Oracle) : List Transaction → World → List Ask →
    List Entry × World
  | _, w, [] => ([], w)
  | opened, w, ask :: rest =>
    let s := d.act opened ask
    let later := d.serve o (s.run o w).1.2 (s.run o w).2 rest
    (⟨(s.run o w).1.1, s.time o w, w.threshold⟩ :: later.1, later.2)

/-- The statistics after a reply, where statements may be counted. -/
def tally (counts : Bool) (st : Statistics) (e : Entry) : Statistics :=
  match e.reply with
  | .ran isQuery result =>
    if counts then st.record isQuery (isError result) e.threshold e.took else st
  | .reset => .zero
  | _ => st

/-! ## Runs -/

/-- The reply `b` is `a`, with every transaction decorated. -/
def Driver.Decorates (d : Driver) (counts logs : Bool) (a b : Reply × List Transaction) : Prop :=
  b = (a.1, a.2.map (·.decorated counts logs d.inside)) ∧ ∀ t ∈ a.2, t.Unaware

/-- One request after another, the decorated driver replies as the one below does. -/
theorem Driver.shadows_act (hd : d.Unaware) (hopened : ∀ t ∈ opened, t.Unaware) (ask : Ask) :
    Shadows (d.Decorates counts logs)
      (fun o w st => tally counts st ⟨((d.act opened ask).run o w).1.1, (d.act opened ask).time o w,
        w.threshold⟩)
      (d.act opened ask)
      ((d.decorated counts logs).act (opened.map (·.decorated counts logs d.inside)) ask) := by
  have hreply {α : Type} (reply : α → Reply) (a b : α) (hab : a = b) : d.Decorates counts logs
      (reply a, opened) (reply b, opened.map (·.decorated counts logs d.inside)) :=
    ⟨by rw [hab], hopened⟩
  have hnothing := (unaware_pure (a := ())).shadows.map (hreply fun _ => .none)
  cases ask with
  | run inside q =>
    cases inside with
    | none =>
      have hrunner : (d.decorated counts logs).toRunner =
          d.toRunner.decorated counts logs [("dialect", d.dialect)] := by
        cases counts <;> cases logs <;> rfl
      rw [act, act, hrunner]
      exact (Runner.shadows_decorated (hd.run q)).map (hreply _)
    | some number =>
      simp only [act, getElem?_map]
      cases hnumber : opened[number]? with
      | none => exact hnothing
      | some t =>
        have hrunner : (t.decorated counts logs d.inside).toRunner =
            t.toRunner.decorated counts logs d.inside := by
          cases counts <;> cases logs <;> rfl
        simp only [Option.map_some, hrunner]
        exact (Runner.shadows_decorated
          ((hopened t (mem_of_getElem? hnumber)).run q)).map (hreply _)
  | start ctx =>
    refine (Driver.shadows_decorated hd ctx).map fun a b hab => ?_
    obtain ⟨rfl, ht⟩ := hab
    cases a with
    | error failure => simpa [Decorates, Except.map, Except.toOption] using hopened
    | ok t =>
      simpa [Decorates, Except.map, Except.toOption, or_imp, forall_and] using ⟨hopened, ht t rfl⟩
  | finish number commits =>
    simp only [act, getElem?_map]
    cases hnumber : opened[number]? with
    | none => exact hnothing
    | some t =>
      exact (Transaction.shadows_decorated (hopened t (mem_of_getElem? hnumber)) commits).map
        (hreply _)
  | reset =>
    intro o w v hv
    exact ⟨⟨rfl, hopened⟩, ⟨hv.calls, hv.threshold, hv.clock⟩, rfl⟩
  | setThreshold threshold =>
    intro o w v hv
    exact ⟨⟨rfl, hopened⟩, ⟨hv.calls, rfl, hv.clock⟩, rfl⟩

/-- From worlds of which one is ahead of the other, all replies are the same. -/
theorem Driver.serve_decorated (counts logs : Bool) (hd : d.Unaware) (hv : w.Ahead v)
    (hopened : ∀ t ∈ opened, t.Unaware) (asks : List Ask) :
    let plain := d.serve o opened w asks
    let seen := (d.decorated counts logs).serve o
      (opened.map (·.decorated counts logs d.inside)) v asks
    seen.1.map (·.reply) = plain.1.map (·.reply) ∧ seen.2.calls = plain.2.calls ∧
      seen.2.statistics = plain.1.foldl (tally counts) v.statistics := by
  induction asks generalizing opened w v with
  | nil => exact ⟨rfl, hv.calls, rfl⟩
  | cons ask rest ih =>
    obtain ⟨⟨hreply, hnow⟩, hnext, hstatistics⟩ := Driver.shadows_act hd hopened ask o w v hv
    obtain ⟨hreplies, hcalls, hlast⟩ := ih hnext hnow
    have hopened := congrArg Prod.snd hreply
    have hreply := congrArg Prod.fst hreply
    simp only at hopened hreply
    rw [← hopened] at hreplies hcalls hlast
    exact ⟨congrArg₂ cons hreply hreplies, hcalls, hlast.trans (by rw [hstatistics]; rfl)⟩

/-- What is counted of a reply: whether a statement was a query, and whether it failed. -/
def Entry.statement? (e : Entry) : Option (Bool × Bool) :=
  match e.reply with
  | .ran isQuery result => some (isQuery, isError result)
  | _ => none

def Entry.isReset (e : Entry) : Bool :=
  match e.reply with
  | .reset => true
  | _ => false

theorem wrap64_eq (a : Int) :
    wrap64 a = (a + 9223372036854775808) % 18446744073709551616 - 9223372036854775808 :=
  rfl

theorem wrap64_wrap64_add (a b : Int) : wrap64 (wrap64 a + b) = wrap64 (a + b) := by
  simp only [wrap64_eq]
  omega

theorem wrap64_of_lt {n : Nat} (h : n < Nat.pow 2 63) : wrap64 n = n := by
  have hbound : n < 9223372036854775808 := h
  rw [wrap64_eq]
  omega

/-- The counters hold how many of the statements they count, each in a word. -/
def Counted (word : Int → Int) (st : Statistics) (entries : List Entry) : Prop :=
  st.execs = word (entries.countP (·.statement?.any (!·.1))) ∧
    st.queries = word (entries.countP (·.statement?.any (·.1))) ∧
    st.errors = word (entries.countP (·.statement?.any (·.2))) ∧
    st.slow = word (entries.countP fun e => e.statement?.isSome && e.threshold < e.took)

theorem tally_true {e : Entry} (he : e.isReset = false) (st : Statistics) :
    (tally true st e).execs = tick (e.statement?.any (!·.1)) st.execs ∧
      (tally true st e).queries = tick (e.statement?.any (·.1)) st.queries ∧
      (tally true st e).errors = tick (e.statement?.any (·.2)) st.errors ∧
      (tally true st e).slow = tick (e.statement?.isSome && e.threshold < e.took) st.slow := by
  obtain ⟨reply, took, threshold⟩ := e
  cases reply with
  | reset => cases he
  | started | ended | none => simp [tally, Entry.statement?, tick]
  | ran isQuery result =>
    simp [tally, Entry.statement?, record]

/-- A counter that grows with some statements and is reset says how many of them there were. -/
theorem foldl_tally (f : Statistics → Int) {p : Entry → Bool} (hzero : f .zero = 0)
    (hp : ∀ e : Entry, e.isReset = false → ∀ st, f (tally true st e) = tick (p e) (f st))
    (entries : List Entry) :
    f (entries.foldl (tally true) .zero) = wrap64 ((entries.rtakeWhile (!·.isReset)).countP p) := by
  have hnone : f .zero = wrap64 (([] : List Entry).countP p) :=
    hzero.trans (by decide : 0 = wrap64 0)
  induction entries using reverseRecOn with
  | nil => exact hnone
  | append_singleton entries e ih =>
    rw [foldl_append, foldl_cons, foldl_nil, rtakeWhile_concat]
    cases he : e.isReset with
    | true =>
      obtain ⟨reply, took, threshold⟩ := e
      cases reply with
      | reset => exact hnone
      | ran | started | ended | none => cases he
    | false =>
      rw [hp e he, ih, Bool.not_false, if_pos rfl, countP_append, countP_singleton]
      cases p e with
      | false => simp [tick]
      | true => simp [tick, wrap64_wrap64_add]

theorem counted_foldl_tally (entries : List Entry) :
    Counted wrap64 (entries.foldl (tally true) .zero) (entries.rtakeWhile (!·.isReset)) :=
  ⟨foldl_tally (·.execs) rfl (fun _ he st => (tally_true he st).1) _,
    foldl_tally (·.queries) rfl (fun _ he st => (tally_true he st).2.1) _,
    foldl_tally (·.errors) rfl (fun _ he st => (tally_true he st).2.2.1) _,
    foldl_tally (·.slow) rfl (fun _ he st => (tally_true he st).2.2.2) _⟩

theorem Counted.of_length_lt {st : Statistics} {entries : List Entry}
    (h : Counted wrap64 st entries) (hlength : entries.length < Nat.pow 2 63) :
    Counted id st entries := by
  have hword (p : Entry → Bool) : wrap64 (entries.countP p) = entries.countP p :=
    wrap64_of_lt (Nat.lt_of_le_of_lt countP_le_length hlength)
  simpa only [Counted, hword, id] using h

/-- Whether it counts, logs or does both, a decorated driver gives the replies of the one below and
makes its calls, and it counts every statement since the counters were last reset, inside
transactions too, in words that hold every number of statements below `2 ^ 63`. -/
theorem decorations_transparent :
    (∀ dialect, (Driver.plain dialect).Unaware) ∧
      ∀ d : Driver, d.Unaware → ∀ counts logs o w asks,
        let plain := d.serve o [] w asks
        let seen := (d.decorated counts logs).serve o [] { w with statistics := .zero } asks
        let since := plain.1.rtakeWhile (!·.isReset)
        seen.1.map (·.reply) = plain.1.map (·.reply) ∧ seen.2.calls = plain.2.calls ∧
          (counts = true → Counted wrap64 seen.2.statistics since ∧
            (since.length < Nat.pow 2 63 → Counted id seen.2.statistics since)) := by
  refine ⟨Driver.unaware_plain, fun d hd counts logs o w asks => ?_⟩
  have hahead : w.Ahead { w with statistics := .zero } := ⟨rfl, rfl, le_rfl⟩
  obtain ⟨hreplies, hcalls, hstatistics⟩ :=
    Driver.serve_decorated counts logs hd hahead (forall_mem_nil _) asks
  refine ⟨hreplies, hcalls, fun hcounts => ?_⟩
  subst hcounts
  rw [← map_nil, hstatistics]
  have hcount := counted_foldl_tally (d.serve o [] w asks).1
  exact ⟨hcount, hcount.of_length_lt⟩

end SchemaCompiler.Database
