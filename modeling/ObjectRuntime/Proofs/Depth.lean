import ObjectRuntime.Proofs.Aloof

/-! The depth of the stacks. Whatever a program does, and even where it panics, the calls and scopes
that it found are still running below its own when it ends, and what was held is still held,
unless it lets go of the handles outside of all calls and scopes. -/

namespace ObjectRuntime

namespace Runtime

/-- The calls and scopes that were running still are, below those that are new. -/
structure StandsOn (rt rt' : Runtime) : Prop where
  calls : ∃ more, rt'.calls = rt.calls ++ more
  scopes : rt.scopes ≤ rt'.scopes
  limit : rt'.recursionLimit = rt.recursionLimit

def HoldsOn (rt rt' : Runtime) : Prop := ∃ more, rt'.handles = rt.handles ++ more

variable {rt rt' rt'' : Runtime}

theorem StandsOn.refl (rt : Runtime) : StandsOn rt rt := ⟨⟨#[], by simp⟩, le_rfl, rfl⟩

theorem StandsOn.trans (first : StandsOn rt rt') (second : StandsOn rt' rt'') :
    StandsOn rt rt'' where
  calls := by
    obtain ⟨more, same⟩ := first.calls
    obtain ⟨more', same'⟩ := second.calls
    exact ⟨more ++ more', by rw [same', same, Array.append_assoc]⟩
  scopes := first.scopes.trans second.scopes
  limit := second.limit.trans first.limit

theorem StandsOn.size_le (stands : StandsOn rt rt') : rt.calls.size ≤ rt'.calls.size := by
  obtain ⟨more, same⟩ := stands.calls
  simp [same]

/-- Only outside of all calls and scopes can a program that stands there come to be outside. -/
theorem StandsOn.atTopLevel (stands : StandsOn rt rt') (top : rt'.atTopLevel = true) :
    rt.atTopLevel = true := by
  obtain ⟨more, same⟩ := stands.calls
  have scopes := stands.scopes
  simp only [Runtime.atTopLevel, Bool.and_eq_true, Array.isEmpty_iff, decide_eq_true_eq] at top ⊢
  rw [same, Array.append_eq_empty_iff] at top
  exact ⟨top.1.1, by omega⟩

theorem StandsOn.inside (stands : StandsOn rt rt') (inside : rt.atTopLevel = false) :
    rt'.atTopLevel = false := by
  by_contra top
  rw [stands.atTopLevel (by simpa using top)] at inside
  cases inside

theorem HoldsOn.refl (rt : Runtime) : HoldsOn rt rt := ⟨#[], by simp⟩

theorem HoldsOn.trans (first : HoldsOn rt rt') (second : HoldsOn rt' rt'') : HoldsOn rt rt'' := by
  obtain ⟨more, same⟩ := first
  obtain ⟨more', same'⟩ := second
  exact ⟨more ++ more', by rw [same', same, Array.append_assoc]⟩

/-! ## Letting go -/

/-- The calls and scopes that were running still are, and what was held still is, unless it was let
go of outside of all calls and scopes. -/
structure Retains (rt rt' : Runtime) (loosely : Prop) : Prop extends StandsOn rt rt' where
  handles : HoldsOn rt rt' ∨ rt.atTopLevel = true ∧ loosely

variable {left : Runtime} {loosely looser loosest : Prop}

namespace Retains

theorem refl (rt : Runtime) (loosely : Prop) : Retains rt rt loosely := ⟨.refl rt, .inl (.refl rt)⟩

theorem trans (first : Retains rt rt' loosely) (second : Retains rt' rt'' looser)
    (before : loosely → loosest) (behind : looser → loosest) : Retains rt rt'' loosest where
  toStandsOn := first.toStandsOn.trans second.toStandsOn
  handles := by
    rcases first.handles with held | ⟨top, loose⟩
    · rcases second.handles with held' | ⟨top, loose⟩
      · exact .inl (held.trans held')
      · exact .inr ⟨first.toStandsOn.atTopLevel top, behind loose⟩
    · exact .inr ⟨top, before loose⟩

theorem inside (retains : Retains rt rt' loosely) (inside : rt.atTopLevel = false) : HoldsOn rt rt' := by
  rcases retains.handles with held | ⟨top, -⟩
  · exact held
  · rw [inside] at top
    cases top

theorem release (retains : Retains rt left loosely) (keep : Option Val) :
    Retains rt (left.release rt.handles.size keep) loosely where
  calls := by
    rw [release_eq]
    exact retains.calls
  scopes := by
    rw [release_eq]
    exact retains.scopes
  limit := by
    rw [release_eq]
    exact retains.limit
  handles := retains.handles.imp_left fun ⟨more, same⟩ =>
    ⟨handleOf keep, by rw [handles_release, same]; simp⟩

theorem act {α : Type} (action : Action α) (rt : Runtime) :
    Retains rt (action.run rt).2 (action.letsGo = true ∧ rt.atTopLevel = true) := by
  cases loose : action.letsGo && rt.atTopLevel with
  | false =>
    have extension := Extends.act action rt fun letsGo => by simpa [letsGo] using loose
    exact ⟨⟨⟨#[], by simp [extension.calls]⟩, extension.scopes.ge, limit_act action rt⟩,
      .inl extension.handles⟩
  | true =>
    obtain ⟨letsGo, top⟩ := Bool.and_eq_true_iff.mp loose
    refine ⟨?_, .inr ⟨top, letsGo, top⟩⟩
    cases action with
    | releaseTopLevel =>
      simp only [Action.run, releaseTopLevel, top, if_true]
      exact ⟨⟨#[], by simp [Runtime.release]⟩, le_rfl, rfl⟩
    | _ => cases letsGo

theorem hold (rt : Runtime) (v : Val) (loosely : Prop) : Retains rt (rt.hold v) loosely where
  toStandsOn := by
    have extension := Extends.hold rt v
    exact ⟨⟨#[], by simp [extension.calls]⟩, extension.scopes.ge, by unfold Runtime.hold; split <;> rfl⟩
  handles := .inl ⟨_, handles_hold rt v⟩

theorem leaveScope (retains : Retains rt.enterScope left loosely) (outcome : Outcome Val) :
    Retains rt (left.leaveScope rt.handles.size outcome) False := by
  have scopes : rt.scopes + 1 ≤ left.scopes := retains.scopes
  have held : HoldsOn rt left := retains.inside (by simp [Runtime.atTopLevel, enterScope])
  unfold Runtime.leaveScope
  split
  · exact ⟨⟨retains.calls, by omega, retains.limit⟩, .inl held⟩
  · have left' : Retains rt { left with scopes := left.scopes - 1 } False :=
      ⟨⟨retains.calls, Nat.le_sub_of_add_le scopes, retains.limit⟩, .inl held⟩
    exact left'.release _

theorem letGo {v : Val} (retains : Retains (rt.hold v) left loosely) (outcome : Outcome Unit) :
    Retains rt (left.letGo rt.handles.size outcome) loosely := by
  have kept : Retains rt left loosely := (hold rt v loosely).trans retains id id
  unfold Runtime.letGo
  split
  · exact kept
  · exact kept.release none

/-! ## Restoring -/

theorem calls_restore (retains : Retains rt left loosely) : (left.restore rt.marks).calls = rt.calls := by
  obtain ⟨more, same⟩ := retains.calls
  simp [restore, marks, same]

theorem scopes_restore (retains : Retains rt left loosely) :
    (left.restore rt.marks).scopes = rt.scopes :=
  min_eq_right retains.scopes

theorem handles_restore (retains : Retains rt left loosely) :
    (left.restore rt.marks).handles = rt.handles ∨ rt.atTopLevel = true ∧ loosely :=
  retains.handles.imp_left fun ⟨more, same⟩ => by simp [restore, marks, same]

theorem restored (retains : Retains rt left loosely) : Retains rt (left.restore rt.marks) loosely where
  calls := ⟨#[], by simp [retains.calls_restore]⟩
  scopes := retains.scopes_restore.ge
  limit := retains.limit
  handles := retains.handles_restore.imp_left fun same => ⟨#[], by simp [same]⟩

theorem cleanup (retains : Retains rt left loosely) (unwound : Bool) :
    Retains rt (Machine.cleanupState unwound rt left) loosely := by
  unfold Machine.cleanupState
  split
  · exact retains.restored
  · exact retains

/-! ## Calls -/

theorem pushCall (rt : Runtime) (c : Call) :
    StandsOn rt ((rt.openFrame c).2.pushCall (rt.openFrame c).1) :=
  ⟨⟨#[_], by simp [Runtime.pushCall, openFrame]; rfl⟩, le_rfl, rfl⟩

theorem leaveCall (retains : Retains rt left loosely) (c : Call) (outcome : Outcome Val) :
    Retains rt (left.leaveCall c rt.handles.size outcome).2 loosely := by
  cases outcome with
  | value v => exact retains.release (some v)
  | failure e => exact retains.release none
  | panic message => exact retains

theorem refuseCall (rt : Runtime) (c : Call) :
    Retains rt ((rt.openFrame c).2.refuseCall c rt.handles.size).2 False := by
  have opened : Retains rt (rt.openFrame c).2 False :=
    ⟨⟨⟨#[], by simp [openFrame]⟩, le_rfl, rfl⟩, .inl ⟨#[], by simp [openFrame]⟩⟩
  exact opened.leaveCall c _

/-- A call pops its frame, and only its own, unless it panics. -/
theorem closeCall {c : Call}
    (retains : Retains ((rt.openFrame c).2.pushCall (rt.openFrame c).1) left loosely)
    (outcome : Outcome Val) :
    Retains rt (left.closeCall c rt.handles.size outcome).2 False := by
  have entered := pushCall rt c
  have held : HoldsOn rt left := retains.inside (by simp [Runtime.atTopLevel, Runtime.pushCall])
  unfold Runtime.closeCall
  refine leaveCall ?_ c outcome
  split
  · exact ⟨entered.trans retains.toStandsOn, .inl held⟩
  · obtain ⟨more, same⟩ := retains.calls
    refine ⟨⟨?_, retains.scopes, retains.limit⟩, .inl held⟩
    rw [show ((rt.openFrame c).2.pushCall (rt.openFrame c).1).calls =
      rt.calls.push (rt.openFrame c).1 from rfl, Array.push_eq_append, Array.append_assoc] at same
    exact ⟨(#[(rt.openFrame c).1] ++ more).pop, by
      rw [popCall, same, Array.pop_append_of_ne_empty (by simp)]⟩

end Retains
end Runtime

/-! ## Runs -/

def Run.leads {η α : Type} (run : Run η α) (next : Outcome α → Runtime → η → Prop) : Prop :=
  match run with
  | .ended outcome rt host => next outcome rt host
  | _ => False

namespace Machine
variable {η α : Type}

/-- On its way, outside of all calls and scopes, a program lets go of handles. -/
def LetsGo {α : Type} (caller : Caller η) (unwinding : Bool) :
    Program η α → Runtime → η → Prop
  | .done _, _, _ => False
  | .endless, _, _ => False
  | .read next, rt, host => LetsGo caller unwinding (next rt) rt host
  | .act action next, rt, host =>
    (action.letsGo = true ∧ rt.atTopLevel = true) ∨
      LetsGo caller unwinding (next (action.run rt).1) (action.run rt).2 host
  | .host f next, rt, host => LetsGo caller unwinding (next (f host).1) rt (f host).2
  | .call c next, rt, host =>
    (caller unwinding c rt host).leads fun outcome rt host =>
      LetsGo caller unwinding (next outcome) rt host
  | .scope body next, rt, host =>
    (step caller unwinding body rt.enterScope host).leads fun outcome left host =>
      LetsGo caller unwinding (next outcome) (left.leaveScope rt.handles.size outcome) host
  | .ensure body cleanup next, rt, host =>
    LetsGo caller unwinding body rt host ∨
      (step caller unwinding body rt host).leads fun outcome left host =>
        let unwound := unwinding || outcome.isPanic
        let left := cleanupState unwound rt left
        LetsGo caller unwound cleanup left host ∨
          (step caller unwound cleanup left host).leads fun done rt host =>
            LetsGo caller unwinding (next (ensured outcome done)) rt host
  | .holding v body next, rt, host =>
    LetsGo caller unwinding body (rt.hold v) host ∨
      (step caller unwinding body (rt.hold v) host).leads fun outcome left host =>
        LetsGo caller unwinding (next outcome) (left.letGo rt.handles.size outcome) host

/-- A program retains the stacks that it finds when the calls it makes do. -/
theorem step_retains {caller : Caller η} (keeping : ∀ unwinding c rt host answer left host',
      caller unwinding c rt host = .ended answer left host' → Runtime.Retains rt left False)
    (p : Program η α) {unwinding : Bool} {rt rt' : Runtime} {host host' : η}
    {outcome : Outcome α} (ended : step caller unwinding p rt host = .ended outcome rt' host') :
    Runtime.Retains rt rt' (LetsGo caller unwinding p rt host) := by
  induction p generalizing unwinding rt rt' host host' with
  | done o =>
    cases ended
    exact .refl rt _
  | endless => cases ended
  | read next ih => exact ih rt ended
  | host f next ih => exact ih (f host).1 ended
  | act action next ih =>
    have rest : step caller unwinding (next (action.run rt).1) (action.run rt).2 host =
      .ended outcome rt' host' := ended
    exact (Runtime.Retains.act action rt).trans (ih (action.run rt).1 rest) .inl .inr
  | call c next ih =>
    obtain ⟨answer, left, host₁, called, rest⟩ := step_call ended
    rw [LetsGo, called]
    exact (keeping unwinding c rt host answer left host₁ called).trans (ih answer rest)
      False.elim id
  | scope body next first ih =>
    obtain ⟨answer, left, host₁, inner, rest⟩ := step_scope ended
    rw [LetsGo, inner]
    exact ((first inner).leaveScope answer).trans (ih answer rest) False.elim id
  | holding v body next first ih =>
    obtain ⟨answer, left, host₁, inner, rest⟩ := step_holding ended
    rw [LetsGo, inner]
    exact ((first inner).letGo answer).trans (ih answer rest) .inl .inr
  | ensure body cleanup next first second ih =>
    obtain ⟨answer, left, host₁, done, left₁, host₂, inner, cleaned, rest⟩ := step_ensure ended
    have unwound := (first inner).cleanup (unwinding || answer.isPanic)
    simp only [LetsGo, inner, Run.leads, cleaned]
    exact unwound.trans ((second cleaned).trans (ih (ensured answer done) rest) .inl .inr) .inl .inr

theorem call_retains (code : CodeRef → Code η) (budget : Nat) (unwinding : Bool) (c : Call)
    (rt : Runtime) (host : η) (answer : Outcome Val) (left : Runtime) (host' : η)
    (ended : call code budget unwinding c rt host = .ended answer left host') :
    Runtime.Retains rt left False := by
  induction budget using Nat.strongRecOn generalizing unwinding c rt host answer left host' with
  | ind budget ih =>
    cases callEnds_of_ended ended with
    | refused => exact .refuseCall rt c
    | ran _ ran => exact (step_retains (ih _ (Nat.lt_succ_self _)) _ ran).closeCall _

end Machine
end ObjectRuntime
