import SchemaCompiler.Database.Session

/-!
# Calls of sessions

A session that is run against a database gives a result and makes calls.  The
calls of one session after another are those of both; the oracle answers the
later ones knowing the earlier ones.  A list of items that are sent one after
the other is sent up to the first one that is refused or fails.
-/

namespace SchemaCompiler.Database

def World.after (o : Oracle) (w : World) (c : Call) : World :=
  { w with calls := w.calls ++ [c], clock := w.clock + o.takes w.calls c }

@[simp]
theorem World.after_calls (o : Oracle) (w : World) (c : Call) :
    (w.after o c).calls = w.calls ++ [c] := rfl

namespace Session

variable {α β : Type} {o : Oracle} {w next last : World} {made : List Call} {s : Session α} {a : α}
  {b : β} {f : α → Session β} {ctx : Context}

theorem run_bind (h : s.run o w = (a, next)) (f : α → Session β) :
    (s >>= f).run o w = (f a).run o next := by
  change (f (s.run o w).1).run o (s.run o w).2 = (f a).run o next
  rw [h]

theorem run_get (f : World → Session β) : (get >>= f).run o w = (f w).run o w := rfl

/-- The session gives `a` and makes the calls `made` on the way from `w` to
`last`. -/
structure Makes (s : Session α) (o : Oracle) (w : World) (a : α) (made : List Call)
    (last : World) : Prop where
  run : s.run o w = (a, last)
  calls : last.calls = w.calls ++ made

theorem Makes.run_calls (h : s.Makes o w a made last) : (s.run o w).2.calls = w.calls ++ made := by
  rw [h.run, h.calls]

theorem makes_pure {a : α} : (pure a : Session α).Makes o w a [] w :=
  ⟨rfl, (List.append_nil _).symm⟩

theorem Makes.bind {more : List Call} (hs : s.Makes o w a made next)
    (hf : (f a).Makes o next b more last) :
    (s >>= f).Makes o w b (made ++ more) last where
  run := by rw [run_bind hs.run, hf.run]
  calls := by rw [hf.calls, hs.calls, List.append_assoc]

theorem Makes.bind_pure (hs : s.Makes o w a made last) (hf : f a = pure b) :
    (s >>= f).Makes o w b made last := by
  have hmakes := hs.bind (f := f) (hf ▸ makes_pure)
  rwa [List.append_nil] at hmakes

/-- What looks at the calls so far goes on with those of the world. -/
theorem makes_get {f : World → Session β} (hf : (f w).Makes o w b made last) :
    (get >>= f).Makes o w b made last :=
  ⟨by rw [run_get, hf.run], hf.calls⟩

theorem makes_read {f : Oracle → Session β} (hf : (f o).Makes o w b made last) :
    (read >>= f).Makes o w b made last :=
  ⟨hf.run, hf.calls⟩

theorem makes_call (c : Call) :
    (call c).Makes o w (o.failure? w.calls c) [c] (w.after o c) :=
  ⟨rfl, rfl⟩

theorem makes_callIn_of_cancelled (h : ctx.cancelled w.calls = true) (c : Call) :
    (callIn ctx c).Makes o w (some Context.cancellation) [] w := by
  apply makes_get
  rw [if_pos h]
  exact makes_pure

theorem makes_callIn_of_open (h : ctx.cancelled w.calls = false) (c : Call) :
    (callIn ctx c).Makes o w (o.failure? w.calls c) [c] (w.after o c) := by
  apply makes_get
  rw [if_neg (by rw [h]; exact Bool.false_ne_true)]
  exact makes_call c

end Session

/-! ## Items that are sent one after the other -/

/-- Every call succeeds when it is made after those before. -/
def Succeed (o : Oracle) : List Call → List Call → Prop
  | _, [] => True
  | before, c :: rest => o.failure? before c = none ∧ Succeed o (before ++ [c]) rest

/-- Items are sent in order, up to the first one that is refused beforehand or
whose call fails; `made` are the calls and `failure` is what ended them. -/
inductive Attempts {ι : Type} (o : Oracle) (call : ι → Call)
    (refusal : List Call → ι → Option Failure) :
    (before : List Call) → List ι → (made : List Call) → (failure : Option Failure) → Prop
  | finished (before : List Call) : Attempts o call refusal before [] [] none
  | refused {before : List Call} {i : ι} {rest : List ι} {f : Failure}
      (hrefused : refusal before i = some f) :
      Attempts o call refusal before (i :: rest) [] (some f)
  | failed {before : List Call} {i : ι} {rest : List ι} {f : Failure}
      (hsent : refusal before i = none) (hfailed : o.failure? before (call i) = some f) :
      Attempts o call refusal before (i :: rest) [call i] (some f)
  | next {before : List Call} {i : ι} {rest : List ι} {made : List Call} {failure : Option Failure}
      (hsent : refusal before i = none) (hok : o.failure? before (call i) = none)
      (hrest : Attempts o call refusal (before ++ [call i]) rest made failure) :
      Attempts o call refusal before (i :: rest) (call i :: made) failure

namespace Attempts

variable {ι : Type} {o : Oracle} {call : ι → Call} {refusal : List Call → ι → Option Failure}
  {before made : List Call} {items : List ι}

theorem made_of_none (h : Attempts o call refusal before items made none) :
    made = items.map call ∧ Succeed o before made := by
  generalize hfailure : (none : Option Failure) = failure at h
  induction h with
  | finished => exact ⟨rfl, trivial⟩
  | refused | failed => cases hfailure
  | next _ hok _ ih =>
    obtain ⟨hmade, hrest⟩ := ih hfailure
    exact ⟨by rw [hmade, List.map_cons], hok, hrest⟩

/-- Where sending ends early, all items before have succeeded. -/
theorem made_of_some {f : Failure} (h : Attempts o call refusal before items made (some f)) :
    ∃ done i rest, items = done ++ i :: rest ∧ Succeed o before (done.map call) ∧
      (made = done.map call ∧ refusal (before ++ done.map call) i = some f ∨
        made = done.map call ++ [call i] ∧
          o.failure? (before ++ done.map call) (call i) = some f) := by
  generalize hfailure : some f = failure at h
  induction h with
  | finished => cases hfailure
  | @refused before i rest _ hrefused =>
    cases hfailure
    exact ⟨[], i, rest, rfl, trivial, .inl ⟨rfl, by simpa using hrefused⟩⟩
  | @failed before i rest _ _ hfailed =>
    cases hfailure
    exact ⟨[], i, rest, rfl, trivial, .inr ⟨rfl, by simpa using hfailed⟩⟩
  | @next before i rest made _ _ hok _ ih =>
    obtain ⟨done, j, left, rfl, hdone, hend⟩ := ih hfailure
    refine ⟨i :: done, j, left, rfl, ⟨hok, hdone⟩, ?_⟩
    simpa using hend

end Attempts

end SchemaCompiler.Database
