import ObjectRuntime.Proofs.Balance
import ObjectRuntime.Proofs.Booting

/-! Running and moving. Whatever a machine runs changes the state by a run of moves, so
what every move keeps is kept by every program. The heap stays well-formed under all of
them, whatever they are given. -/

namespace ObjectRuntime

theorem Run.mem_follow {η α : Type} {run : Run η α} {next : Outcome α → Runtime → η → List Moment}
    {m : Moment} : m ∈ run.follow next ↔
      ∃ outcome rt host, run = .ended outcome rt host ∧ m ∈ next outcome rt host := by
  cases run <;> simp [Run.follow]

theorem Run.forall_mem_follow {η α : Type} {run : Run η α}
    {next : Outcome α → Runtime → η → List Moment} {P : Moment → Prop} :
    (∀ m ∈ run.follow next, P m) ↔
      ∀ outcome rt host, run = .ended outcome rt host → ∀ m ∈ next outcome rt host, P m := by
  cases run <;> simp [Run.follow]

namespace Machine
variable {η α : Type} {caller : Caller η}

theorem after_cons (rt : Runtime) (move : Move) (rest : List Move) :
    rt.after (move :: rest) = (move.run rt).2.after rest := rfl

theorem after_append (rt : Runtime) (first second : List Move) :
    rt.after (first ++ second) = (rt.after first).after second :=
  List.foldl_append

/-- A machine whose calls move the state moves it by running a program. -/
theorem step_moves (moving : ∀ unwinding c rt host answer left host',
      caller unwinding c rt host = .ended answer left host' → ∃ moves, left = rt.after moves)
    (p : Program η α) {unwinding : Bool} {rt rt' : Runtime} {host host' : η}
    {outcome : Outcome α} (ended : step caller unwinding p rt host = .ended outcome rt' host') :
    ∃ moves, rt' = rt.after moves := by
  induction p generalizing unwinding rt rt' host host' with
  | done o =>
    cases ended
    exact ⟨[], rfl⟩
  | endless => cases ended
  | read next ih => exact ih rt ended
  | host f next ih => exact ih (f host).1 ended
  | act action next ih =>
    have rest : step caller unwinding (next (action.run rt).1) (action.run rt).2 host =
      .ended outcome rt' host' := ended
    obtain ⟨moves, rfl⟩ := ih (action.run rt).1 rest
    exact ⟨.act action :: moves, rfl⟩
  | call c next ih =>
    obtain ⟨answer, left, host₁, called, rest⟩ := step_call ended
    obtain ⟨inner, rfl⟩ := moving unwinding c rt host answer left host₁ called
    obtain ⟨moves, rfl⟩ := ih answer rest
    exact ⟨inner ++ moves, (after_append ..).symm⟩
  | scope body next first ih =>
    obtain ⟨answer, left, host₁, inner, rest⟩ := step_scope ended
    obtain ⟨moves, rfl⟩ := first inner
    obtain ⟨later, rfl⟩ := ih answer rest
    refine ⟨.enterScope :: (moves ++ .leaveScope rt.handles.size answer :: later), ?_⟩
    rw [after_cons, after_append]
    rfl
  | holding v body next first ih =>
    obtain ⟨answer, left, host₁, inner, rest⟩ := step_holding ended
    obtain ⟨moves, rfl⟩ := first inner
    obtain ⟨later, rfl⟩ := ih answer rest
    refine ⟨.act (.hold v) :: (moves ++ .letGo rt.handles.size answer :: later), ?_⟩
    rw [after_cons, after_append]
    rfl
  | ensure body cleanup next first second ih =>
    obtain ⟨answer, left, host₁, done, left₁, host₂, inner, cleaned, rest⟩ := step_ensure ended
    obtain ⟨moves, rfl⟩ := first inner
    obtain ⟨cleaning, rfl⟩ := second cleaned
    obtain ⟨later, rfl⟩ := ih (ensured answer done) rest
    unfold cleanupState
    split
    · refine ⟨moves ++ .restore rt.marks :: (cleaning ++ later), ?_⟩
      rw [after_append, after_cons, after_append]
      rfl
    · exact ⟨moves ++ (cleaning ++ later), by rw [after_append, after_append]⟩

theorem enterCall_after (rt : Runtime) (c : Call) : ((Move.enterCall c).run rt).2 =
    if (rt.openFrame c).2.atLimit then (rt.openFrame c).2
    else (rt.openFrame c).2.pushCall (rt.openFrame c).1 := by
  simp only [Move.run]
  split <;> rfl

theorem refused_after {rt : Runtime} {c : Call} (refused : (rt.openFrame c).2.atLimit = true) :
    ((rt.openFrame c).2.refuseCall c rt.handles.size).2 =
      rt.after [.enterCall c, .refuseCall c rt.handles.size] := by
  rw [after_cons, enterCall_after, if_pos refused]
  rfl

/-- Every call moves the state, and leaves it by a move. -/
theorem call_moves (code : CodeRef → Code η) (budget : Nat) (unwinding : Bool) (c : Call)
    (rt : Runtime) (host : η) (answer : Outcome Val) (left : Runtime) (host' : η)
    (ended : call code budget unwinding c rt host = .ended answer left host') :
    ∃ moves, left = rt.after moves := by
  induction budget using Nat.strongRecOn generalizing unwinding c rt host answer left host' with
  | ind budget ih =>
    cases callEnds_of_ended ended with
    | refused full => exact ⟨_, refused_after full⟩
    | @ran _ outcome _ _ room ran =>
      obtain ⟨moves, rfl⟩ := step_moves (ih _ (Nat.lt_succ_self _)) _ ran
      refine ⟨.enterCall c :: (moves ++ [.closeCall c rt.handles.size outcome]), ?_⟩
      rw [after_cons, enterCall_after, room, if_neg Bool.false_ne_true, after_append]
      rfl

/-! ## What every move keeps -/

variable {within : Course η} {I : Runtime → Prop}

theorem kept_after (kept : ∀ (move : Move) rt, I rt → I (move.run rt).2) {rt : Runtime}
    (before : I rt) (moves : List Move) : I (rt.after moves) := by
  induction moves generalizing rt with
  | nil => exact before
  | cons move rest ih => exact ih (kept move rt before)

/-- What every move keeps holds at every moment of a program, when it does in the calls it makes. -/
theorem trace_keeps (kept : ∀ (move : Move) rt, I rt → I (move.run rt).2)
    (moving : ∀ unwinding c rt host answer left host',
      caller unwinding c rt host = .ended answer left host' → ∃ moves, left = rt.after moves)
    (inside : ∀ unwinding c rt host, I rt → ∀ m ∈ within unwinding c rt host, I m.rt)
    (p : Program η α) {unwinding : Bool} {rt : Runtime} {host : η} (before : I rt) :
    ∀ m ∈ trace caller within unwinding p rt host, I m.rt := by
  have ended {α : Type} {p : Program η α} {unwinding : Bool} {rt rt' : Runtime} {host host' : η}
      {outcome : Outcome α} (before : I rt)
      (ended : step caller unwinding p rt host = .ended outcome rt' host') : I rt' := by
    obtain ⟨moves, rfl⟩ := step_moves moving p ended
    exact kept_after kept before moves
  induction p generalizing unwinding rt host with
  | done outcome => simpa [trace] using before
  | endless => simpa [trace] using before
  | read next ih => exact ih rt before
  | host f next ih => exact ih (f host).1 before
  | act action next ih =>
    exact List.forall_mem_cons.mpr ⟨before, ih _ (kept (.act action) rt before)⟩
  | call c next ih =>
    refine List.forall_mem_cons.mpr ⟨before, List.forall_mem_append.mpr
      ⟨List.forall_mem_map.mpr (inside unwinding c rt host before), Run.forall_mem_follow.mpr ?_⟩⟩
    intro answer left host₁ called
    obtain ⟨moves, rfl⟩ := moving unwinding c rt host answer left host₁ called
    exact ih answer (kept_after kept before moves)
  | scope body next first ih =>
    have entered := kept .enterScope rt before
    refine List.forall_mem_cons.mpr ⟨before, List.forall_mem_append.mpr
      ⟨List.forall_mem_map.mpr (first entered), Run.forall_mem_follow.mpr ?_⟩⟩
    intro answer left host₁ inner
    exact ih answer (kept (.leaveScope rt.handles.size answer) left (ended entered inner))
  | holding v body next first ih =>
    have held := kept (.act (.hold v)) rt before
    refine List.forall_mem_cons.mpr ⟨before, List.forall_mem_append.mpr
      ⟨List.forall_mem_map.mpr (first held), Run.forall_mem_follow.mpr ?_⟩⟩
    intro answer left host₁ inner
    exact ih answer (kept (.letGo rt.handles.size answer) left (ended held inner))
  | ensure body cleanup next first second ih =>
    refine List.forall_mem_append.mpr ⟨first before,
      Run.forall_mem_follow.mpr fun answer left host₁ inner => ?_⟩
    have restored : I (cleanupState (unwinding || answer.isPanic) rt left) := by
      unfold cleanupState
      split
      · exact kept (.restore rt.marks) left (ended before inner)
      · exact ended before inner
    refine List.forall_mem_append.mpr ⟨second restored,
      Run.forall_mem_follow.mpr fun done left₁ host₂ cleaned => ?_⟩
    exact ih (ensured answer done) (ended restored cleaned)

theorem course_keeps (kept : ∀ (move : Move) rt, I rt → I (move.run rt).2)
    (opens : ∀ c rt, I rt → I (rt.openFrame c).2) (code : CodeRef → Code η) (budget : Nat)
    (unwinding : Bool) (c : Call) (rt : Runtime) (host : η) (before : I rt) :
    ∀ m ∈ course code budget unwinding c rt host, I m.rt := by
  induction budget generalizing unwinding c rt host with
  | zero =>
    simp only [course]
    split <;> exact List.forall_mem_singleton.mpr (opens c rt before)
  | succ budget ih =>
    simp only [course]
    split
    next => exact List.forall_mem_singleton.mpr (opens c rt before)
    next room =>
      have entered := kept (.enterCall c) rt before
      rw [enterCall_after, if_neg room] at entered
      exact trace_keeps kept (call_moves code budget) ih _ entered

end Machine

/-! ## The heap under all moves -/

def Move.isAct : Move → Bool
  | act _ => true
  | _ => false

namespace Runtime
variable {rt rt' : Runtime}

/-- Calls and scopes change the stacks when they are entered and left, and nothing else. -/
theorem aside_move {move : Move} (other : move.isAct = false) :
    (move.run rt).2 = { rt with
      frames := (move.run rt).2.frames
      calls := (move.run rt).2.calls
      handles := (move.run rt).2.handles
      scopes := (move.run rt).2.scopes } := by
  have left (rt : Runtime) (c : Call) (mark : Nat) (outcome : Outcome Val) :
      (rt.leaveCall c mark outcome).2 =
        { rt with handles := (rt.leaveCall c mark outcome).2.handles } := by
    cases outcome with
    | value v => exact release_eq rt mark (some v)
    | failure e => exact release_eq rt mark none
    | panic message => rfl
  cases move with
  | act action => cases other
  | enterCall c =>
    rw [Machine.enterCall_after]
    split <;> rfl
  | refuseCall c mark =>
    simp only [Move.run, refuseCall]
    rw [left]
  | closeCall c mark outcome =>
    simp only [Move.run, closeCall]
    rw [left]
    split <;> rfl
  | enterScope => rfl
  | leaveScope mark outcome =>
    simp only [Move.run, Runtime.leaveScope]
    split
    · rfl
    · rw [release_eq]
  | letGo mark outcome =>
    simp only [Move.run, Runtime.letGo]
    split
    · rfl
    · rw [release_eq]
  | restore marks => rfl

theorem heap_move {move : Move} (other : move.isAct = false) : (move.run rt).2.heap = rt.heap := by
  rw [aside_move other]

theorem wellFormed_move (move : Move) (wf : rt.heap.WellFormed) :
    (move.run rt).2.heap.WellFormed := by
  cases move with
  | act action => exact wellFormed_act action wf
  | _ =>
    rw [heap_move rfl]
    exact wf

theorem wellFormed_after (moves : List Move) (wf : rt.heap.WellFormed) :
    (rt.after moves).heap.WellFormed :=
  Machine.kept_after (I := fun rt => rt.heap.WellFormed)
    (fun move _ wf => wellFormed_move move wf) wf moves

theorem wellFormed_trace {η α : Type} (code : CodeRef → Code η) (budget : Nat) (unwinding : Bool)
    (p : Program η α) (host : η) (wf : rt.heap.WellFormed) :
    ∀ m ∈ Machine.trace (Machine.call code budget) (Machine.course code budget) unwinding p rt host,
      m.rt.heap.WellFormed :=
  have kept (move : Move) (rt : Runtime) (wf : rt.heap.WellFormed) : (move.run rt).2.heap.WellFormed :=
    wellFormed_move move wf
  Machine.trace_keeps (I := fun rt => rt.heap.WellFormed) kept (Machine.call_moves code budget)
    (Machine.course_keeps (I := fun rt => rt.heap.WellFormed) kept (fun _ _ => id) code budget) p wf

/-- Whatever program runs on a new runtime, the heap it leaves is well-formed. -/
theorem wellFormed_run {η α : Type} (user : Nat → Code η) (p : Program η α) (config : Config)
    {host host' : η} {outcome : Outcome α}
    (ended : p.run user (boot config) host = .ended outcome rt' host') :
    rt'.heap.WellFormed := by
  obtain ⟨moves, rfl⟩ := Machine.step_moves (Machine.call_moves _ _) p ended
  exact wellFormed_after moves (intact_boot config).sound.heap

end Runtime
end ObjectRuntime
