import ObjectRuntime.Proofs.Respecting

/-! The end of a program. The handlers that wait after the main body are run, the latest first and
each in a scope of its own, and then the main body is concluded. The list they are in is out of
the globals meanwhile: a handle keeps it, and what they register goes into a new one. -/

namespace ObjectRuntime

namespace Runtime

/-- A failure is reported, a value is not. -/
def reported (rt : Runtime) : Outcome Val → Runtime
  | .failure e => { rt with printed := rt.printed ++ e.report }
  | _ => rt

/-- What the outcome of the main body adds in the end. A system exit is no failure to report. -/
def concluded (rt : Runtime) : Outcome Val → Runtime
  | .failure e => if e.isExit then rt else rt.reported (.failure e)
  | _ => rt

/-- The state in which the handlers that wait are run. -/
def detached (rt : Runtime) : Runtime :=
  match rt.handlerList? with
  | some l => rt.detach l
  | none => rt

variable {rt : Runtime} {running : List Ref} {waiting : List Val}

theorem reported_eq (rt : Runtime) (answer : Outcome Val) :
    rt.reported answer = { rt with printed := (rt.reported answer).printed } := by
  cases answer <;> rfl

theorem concluded_eq (rt : Runtime) (answer : Outcome Val) :
    rt.concluded answer = { rt with printed := (rt.concluded answer).printed } := by
  cases answer with
  | failure e =>
    simp only [concluded]
    split <;> rfl
  | _ => rfl

theorem resumes_reported (rt : Runtime) (answer : Outcome Val) :
    rt.Resumes (rt.reported answer) := by
  have print (text : String) : Extends rt { rt with printed := text } :=
    .aside ⟨⟨rfl, rfl, rfl⟩, rfl⟩ ⟨rfl, rfl⟩ rfl
  rw [reported_eq]
  exact (print _).toResumes

theorem Watched.print (watched : rt.Watched running waiting) (text : String) :
    Follows running waiting rt [] { rt with printed := text } :=
  watched.beside ⟨rfl, rfl, rfl⟩ rfl rfl

theorem Watched.reported (watched : rt.Watched running waiting) (answer : Outcome Val) :
    Follows running waiting rt [] (rt.reported answer) := by
  rw [reported_eq]
  exact watched.print _

end Runtime

namespace Machine
variable {η α : Type} {caller : Caller η} {code : CodeRef → Code η} {budget : Nat}
  {running : List Ref} {rt left rt' : Runtime} {host host₁ host' : η}
  {handlers waiting all : List Val} {log : List Event}

/-- The handlers are called one after the other, each in a scope of its own. One that fails is
reported right after its call. -/
inductive Exits (code : CodeRef → Code η) (budget : Nat) (running : List Ref) :
    List Val → Runtime → η → List Event → Runtime → η → Prop
  | none {rt : Runtime} {host : η} : Exits code budget running [] rt host [] rt host
  | calls {handler : Val} {handlers : List Val} {rt left rt' : Runtime} {host host₁ host' : η}
      {first log : List Event} {answer : Outcome Val} (there : rt.heap.Holds handler)
      (called : Respects code budget running (Program.inScope (Program.callValue handler [] none))
        rt host first answer left host₁)
      (rest : Exits code budget running handlers (left.reported answer) host₁ log rt' host') :
      Exits code budget running (handler :: handlers) rt host (first ++ log) rt' host'

/-- When the turn of a handler comes, it ends without a panic and respects the lists. -/
def Behave (code : CodeRef → Code η) (budget : Nat) (running : List Ref) (handlers : List Val)
    (rt : Runtime) (host : η) : Prop :=
  ∀ called handler rest, handlers = called ++ handler :: rest → ∀ log rt₁ host₁,
    Exits code budget running called rt host log rt₁ host₁ → ∃ first answer left host₂,
      Respects code budget running (Program.inScope (Program.callValue handler [] none))
        rt₁ host₁ first answer left host₂

/-- The exit code that the outcome of a main body asks for. -/
inductive ExitsWith : Outcome Val → Int64 → Prop
  | succeeded (v : Val) : ExitsWith (.value v) 0
  | asked {e : Failure} {status : Int64} (exit : e.kind = .systemExit)
      (given : e.status = some status) (low : 0 ≤ status) (high : status ≤ 255) :
      ExitsWith (.failure e) status
  | failed {e : Failure} (unasked : ∀ status, e.kind = .systemExit → e.status = some status →
      ¬ (0 ≤ status ∧ status ≤ 255)) : ExitsWith (.failure e) 1

theorem exitsWith_exitCode (e : Failure) : ExitsWith (.failure e) e.exitCode := by
  unfold Failure.exitCode
  split
  next status exit given =>
    split
    next fits => exact .asked exit given fits.1 fits.2
    next unfit =>
      refine .failed fun status' _ given' => ?_
      cases given.symm.trans given'
      exact unfit
  next other => exact .failed fun status exit given => absurd given (other status exit)

theorem exitCode_of_not_exit {e : Failure} (other : e.isExit = false) : e.exitCode = 1 := by
  unfold Failure.exitCode
  split
  next exit _ => simp [Failure.isExit, exit] at other
  next => rfl

theorem step_inScope {body : Program η Val} {next : Outcome Val → Program η α}
    {answer : Outcome Val}
    (ended : step caller false (Program.inScope body) rt host = .ended answer left host₁) :
    step caller false (.scope body next) rt host = step caller false (next answer) left host₁ := by
  obtain ⟨answer', inner, host', ran, rest⟩ := step_scope ended
  cases rest
  simp only [step, ran]

namespace Exits

/-- The handlers that run are those that the machine runs. -/
theorem ended (exits : Exits code budget running handlers rt host log rt' host') :
    step (call code budget) false (Program.runHandlers handlers) rt host =
      .ended (.value ()) rt' host' := by
  induction exits with
  | none => rfl
  | @calls handler handlers rt left _ host host₁ _ _ _ answer _ called _ ih =>
    refine (step_inScope called.ended).trans ?_
    cases answer with
    | value v => exact ih
    | failure e => exact ih
    | panic message => cases called.calm

theorem resumes (exits : Exits code budget running handlers rt host log rt' host') :
    rt.Resumes rt' := by
  induction exits with
  | none => exact .refl _
  | calls _ called _ ih => exact (called.resumes.trans (Runtime.resumes_reported ..)).trans ih

theorem follows (exits : Exits code budget running handlers rt host log rt' host')
    (watched : rt.Watched running waiting) : Runtime.Follows running waiting rt log rt' := by
  induction exits generalizing waiting with
  | none => exact .refl watched
  | @calls _ _ _ _ _ _ _ _ _ _ answer _ called _ ih =>
    have first := called.follows watched
    have reported := first.trans (first.watched.reported answer)
    rw [List.append_nil] at reported
    exact reported.trans (ih reported.watched)

/-- Handlers that have run behaved when their turn came: a run has one result. -/
theorem behave (exits : Exits code budget running handlers rt host log rt' host') :
    Behave code budget running handlers rt host := by
  induction exits with
  | none => exact fun called handler rest same => by cases called <;> cases same
  | @calls handler handlers _ left _ _ host₁ _ _ _ answer _ called _ ih =>
    intro before handler' rest same log rt₁ host₂ exits
    cases before with
    | nil =>
      cases same
      cases exits
      exact ⟨_, answer, left, host₁, called⟩
    | cons earlier before =>
      cases same
      cases exits with
      | calls _ called' exits =>
        cases called.ended.symm.trans called'.ended
        exact ih before handler' rest rfl _ rt₁ host₂ exits

/-- Every handler gets its turn, and is there when it is called. -/
theorem of_behave {l : Ref} (behave : Behave code budget running handlers rt host)
    (watched : rt.Watched running waiting) (member : l ∈ running) (lists : rt.Lists l all)
    (within : ∀ h ∈ handlers, h ∈ all) :
    ∃ log rt' host', Exits code budget running handlers rt host log rt' host' := by
  induction handlers generalizing rt host waiting with
  | nil => exact ⟨[], rt, host, .none⟩
  | cons handler handlers ih =>
    have there := (lists.there handler (within handler (List.mem_cons_self ..))).2
    obtain ⟨first, answer, left, host₁, called⟩ :=
      behave [] handler handlers rfl [] rt host .none
    have ran := called.follows watched
    have reported := ran.trans (ran.watched.reported answer)
    -- the turn of a later handler comes after this one too
    have behaves : Behave code budget running handlers (left.reported answer) host₁ := by
      rintro called' handler' rest rfl log rt₁ host₂ exits
      exact behave (handler :: called') handler' rest rfl _ rt₁ host₂ (.calls there called exits)
    obtain ⟨log, rt', host', exits⟩ := ih behaves reported.watched (reported.still l member _ lists)
      fun h later => within h (List.mem_cons_of_mem _ later)
    exact ⟨_, rt', host', .calls there called exits⟩

end Exits

/-! ## The exit phase -/

/-- The handlers that wait when the exit phase begins are run, the latest first. Those that wait
when it ends are those that were registered meanwhile and not run. -/
theorem exit_phase (watched : rt.Watched [] waiting)
    (behave : Behave code budget rt.handlerList?.toList waiting.reverse rt.detached host) :
    ∃ log last host', Exits code budget rt.handlerList?.toList waiting.reverse rt.detached host log
        last host' ∧
      last.Watched [] (replay [] log) ∧ rt.Balanced #[] (last.release rt.handles.size none) ∧
      ∀ (α : Type) (next : Unit → Program η α),
        step (call code budget) false (Program.runAtExitHandlers.bind next) rt host =
          step (call code budget) false (next ()) (last.release rt.handles.size none) host' := by
  rw [runAtExitHandlers_eq]
  unfold Runtime.detached at behave ⊢
  cases named : rt.handlerList? with
  | none =>
    rw [named] at behave
    have empty : waiting = [] := by
      rcases watched.waiting with ⟨l, named', -⟩ | ⟨-, none⟩
      · cases named.symm.trans named'
      · exact none
    subst empty
    have released : rt.release rt.handles.size none = rt := by
      simp [Runtime.release]
    refine ⟨[], rt, host, .none, watched, (Runtime.Resumes.refl rt).release none, fun α next => ?_⟩
    rw [released]
    simp only [Program.bind, step, named]
  | some l =>
    rw [named] at behave
    obtain ⟨taken, kept⟩ := watched.detach named
    have lists := kept l waiting (.inl named) (watched.lists named)
    obtain ⟨log, last, host', exits⟩ := Exits.of_behave behave taken (List.mem_cons_self ..) lists
      fun h member => List.mem_reverse.mp member
    have resumes := (rt.resumes_detach l).trans exits.resumes
    refine ⟨log, last, host', exits, (watched.drained named exits.follows).watched, ?_, ?_⟩
    · exact ((Runtime.Extends.hold rt (.array l)).toResumes.trans resumes).release none
    · intro α next
      have drained := step_drain (call code budget) l rt host
      rw [lists.elements, Option.getD_some, exits.ended] at drained
      simp only [Program.bind, step, named, drained]
      rfl

theorem balanced_inScope {body : Program η Val} {answer : Outcome Val}
    (ran : Respects code budget running (Program.inScope body) rt host log answer left host₁) :
    rt.Balanced (if rt.atTopLevel then #[] else answer.kept) left := by
  unfold Program.inScope at ran
  cases ran with
  | scope inner rest =>
    cases rest
    exact inner.resumes.leaveScope inner.calm

/-- After the handlers a main body that ended is concluded. -/
theorem runMain_ended {body : Program η Val} {answer : Outcome Val} {closed : Runtime}
    (ran : Respects code budget [] (Program.inScope body) rt host log answer left host₁)
    (phase : ∀ (α : Type) (next : Unit → Program η α),
      step (call code budget) false (Program.runAtExitHandlers.bind next) left host₁ =
        step (call code budget) false (next ()) closed host') :
    ∃ status, step (call code budget) false (Program.runMain body) rt host =
      .ended (.value status) (closed.concluded answer) host' ∧ ExitsWith answer status := by
  have main : step (call code budget) false (Program.runMain body) rt host = _ :=
    step_inScope ran.ended
  rw [main]
  cases answer with
  | value v => exact ⟨0, phase _ _, .succeeded v⟩
  | failure e =>
    refine ⟨e.exitCode, (phase _ _).trans ?_, exitsWith_exitCode e⟩
    simp only [Runtime.concluded]
    cases exit : e.isExit with
    | true => rfl
    | false =>
      rw [exitCode_of_not_exit exit]
      rfl
  | panic message => cases ran.calm

/-- The handlers that wait after the main body are called once each, the latest first, and one that
fails is reported right after its call; then only those that were registered meanwhile wait. The
exit code is that of the main body, whose failure is reported last, and the stacks end as they
began. -/
theorem handlers_run_once {body : Program η Val} {answer : Outcome Val} {during : List Event}
    (top : rt.atTopLevel = true) (wf : rt.heap.WellFormed) (before : rt.Waiting waiting)
    (ran : Respects code budget [] (Program.inScope body) rt host during answer left host₁)
    (behave : Behave code budget left.handlerList?.toList (replay waiting during).reverse
      left.detached host₁) :
    ∃ exiting last host' status rt', left.Waiting (replay waiting during) ∧
      Exits code budget left.handlerList?.toList (replay waiting during).reverse left.detached host₁
        exiting last host' ∧
      step (call code budget) false (Program.runMain body) rt host =
        .ended (.value status) rt' host' ∧
      ExitsWith answer status ∧
      rt' = (last.release rt.handles.size none).concluded answer ∧
      rt'.Waiting (replay [] exiting) ∧
      rt'.calls = rt.calls ∧ rt'.scopes = rt.scopes ∧ rt'.handles = rt.handles := by
  have entered := balanced_inScope ran
  rw [if_pos top] at entered
  have handles : left.handles = rt.handles := by simpa using entered.exactly
  have watched := (ran.follows ⟨wf, before, by simp, by simp⟩).watched
  obtain ⟨exiting, last, host', exits, after, balanced, steps⟩ := exit_phase watched behave
  rw [handles] at balanced steps
  obtain ⟨status, ended, asked⟩ := runMain_ended ran steps
  have released := after.move (.letGo rt.handles.size (.value ())) rfl (by simp)
  refine ⟨exiting, last, host', status, _, watched.waiting, exits, ended, asked, rfl, ?_⟩
  rw [Runtime.concluded_eq]
  refine ⟨(released.watched.print _).watched.waiting, ?_⟩
  exact ⟨balanced.calls.trans entered.calls, balanced.scopes.trans entered.scopes,
    by simpa [handles] using balanced.exactly⟩

/-! ## A program that leaves handlers behind -/

def blockOf (n : Nat) : Proc :=
  { frame := Runtime.topFrame, code := .user n, arity := -1, lambda := false }

def enlist (n : Nat) : Program η Unit := do
  let p ← Program.perform (.newProc (blockOf n))
  Program.atExit (.proc p)

/-- Two handlers are registered, and the program asks to exit. -/
def leaving : Program (List Nat) Val := do
  enlist 0
  enlist 1
  Program.fail (.exit (some 7))

def lateAnswer : Nat → Outcome Val
  | 0 => .value .nil
  | _ => .failure (.typeError "late")

/-- A handler notes that it runs, and all but the first fail. -/
def lateCode (n : Nat) : Code (List Nat) := fun _ =>
  .host (fun ran => ((), ran ++ [n])) fun _ => .done (lateAnswer n)

def enlisted (rt : Runtime) (l : Ref) (n : Nat) : Runtime :=
  match rt.alloc (.proc (blockOf n)) with
  | (p, rt) => rt.modifyElements l (·.push (.proc p))

theorem respects_enlist {l : Ref} {n : Nat} {next : Unit → Program η α} {outcome : Outcome α}
    (wf : rt.heap.WellFormed) (named : rt.handlerList? = some l)
    (rest : (enlisted rt l n).heap.WellFormed → (enlisted rt l n).handlerList? = some l →
      Respects code budget running (next ()) (enlisted rt l n) host log outcome rt' host') :
    Respects code budget running ((enlist n).bind next) rt host
      (.registers (.proc (rt.alloc (.proc (blockOf n))).1) :: log) outcome rt' host' := by
  have spares : Runtime.Spares none rt (rt.alloc (.proc (blockOf n))).2 := .alloc rt _
  have named' := spares.registry.trans named
  have allows : rt.Allows running (.newProc (blockOf n)) [] := .spares rfl nofun nofun
  refine .act allows (.register named' rfl ?_ (rest ?_ named'))
  · exact ⟨_, Runtime.cell?_alloc_self wf _, rfl⟩
  · exact Heap.wellFormed_modify (spares.heap wf) l _

def leftBy (rt : Runtime) (l : Ref) : Runtime :=
  (enlisted (enlisted rt.enterScope l 0) l 1).leaveScope rt.handles.size
    (.failure (.exit (some 7)))

theorem respects_leaving {l : Ref} (wf : rt.heap.WellFormed) (named : rt.handlerList? = some l) :
    ∃ during, replay [] during = [.proc (rt.enterScope.alloc (.proc (blockOf 0))).1,
        .proc ((enlisted rt.enterScope l 0).alloc (.proc (blockOf 1))).1] ∧
      Respects (CodeRef.code lateCode) 256 [] (Program.inScope leaving) rt [] during
        (.failure (.exit (some 7))) (leftBy rt l) [] := by
  refine ⟨_, ?_, .scope (respects_enlist wf named fun wf named =>
    respects_enlist wf named fun _ _ => .done rfl) (.done rfl)⟩
  rfl

def blockCall (p : Ref) : Call := .proc p [] none

def blockClosed (rt : Runtime) (p : Ref) (n : Nat) : Outcome Val × Runtime :=
  match rt.enterScope.openFrame (blockCall p) with
  | (frame, opened) =>
    (opened.pushCall frame).closeCall (blockCall p) rt.handles.size (lateAnswer n)

def blockLeft (rt : Runtime) (p : Ref) (n : Nat) : Runtime :=
  (blockClosed rt p n).2.leaveScope rt.handles.size (blockClosed rt p n).1

theorem respects_block {p : Ref} {n : Nat} {ran : List Nat} (found : rt.proc? p = some (blockOf n))
    (room : rt.atLimit = false) :
    Respects (CodeRef.code lateCode) (budget + 1) running
      (Program.inScope (Program.callValue (.proc p) [] none)) rt ran [] (blockClosed rt p n).1
      (blockLeft rt p n) (ran ++ [n]) := by
  have calm : (lateAnswer n).isPanic = false := by cases n <;> rfl
  have closed : (blockClosed rt p n).1.isPanic = false := by cases n <;> rfl
  have opened : (rt.enterScope.openFrame (blockCall p)).2.proc? p = some (blockOf n) := found
  have entered : rt.enterScope.proc? p = some (blockOf n) := found
  have called : Respects (CodeRef.code lateCode) (budget + 1) running
      (Program.invoke (blockCall p)) rt.enterScope ran ([] ++ []) (blockClosed rt p n).1
      (blockClosed rt p n).2 (ran ++ [n]) := by
    refine .call room ?_ (.done closed)
    simp only [Machine.body, blockCall, Runtime.callFailure, Runtime.callCode] at opened ⊢
    simp only [opened, Option.map_some, blockOf]
    exact .host (.done calm)
  have valued : Respects (CodeRef.code lateCode) (budget + 1) running
      (Program.callValue (.proc p) [] none) rt.enterScope ran ([] ++ []) (blockClosed rt p n).1
      (blockClosed rt p n).2 (ran ++ [n]) := by
    refine .read ?_
    simp only [Program.bind, entered, blockOf]
    exact called
  exact .scope valued (.done closed)

theorem holds_proc {p : Ref} {proc : Proc} (found : rt.proc? p = some proc) :
    rt.heap.Holds (.proc p) := by
  unfold Runtime.proc? at found
  split at found
  next same => exact ⟨_, same, rfl⟩
  next => cases found

def secondBy (rt : Runtime) (p : Ref) : Runtime :=
  (blockLeft rt p 1).reported (blockClosed rt p 1).1

theorem exits_late {p q : Ref} (late : rt.proc? q = some (blockOf 1)) (room : rt.atLimit = false)
    (quiet : (secondBy rt q).proc? p = some (blockOf 0)) (room' : (secondBy rt q).atLimit = false) :
    ∃ last, Exits (CodeRef.code lateCode) 256 running [.proc q, .proc p] rt [] [] last [1, 0] :=
  ⟨_, .calls (holds_proc late) (respects_block late room)
    (.calls (holds_proc quiet) (respects_block quiet room') .none)⟩

theorem leaving_runs_its_handlers : ∃ rt',
    step (call (CodeRef.code lateCode) 256) false (Program.runMain leaving) (Runtime.boot {}) [] =
      .ended (.value 7) rt' [1, 0] ∧ rt'.handles = #[] := by
  have wf : (Runtime.boot {}).heap.WellFormed := (Runtime.intact_boot {}).sound.heap
  have top : (Runtime.boot {}).atTopLevel = true := by decide +kernel
  have named : (Runtime.boot {}).handlerList? = some ⟨36, 0⟩ := by decide +kernel
  have elements : (Runtime.boot {}).elements? ⟨36, 0⟩ = some #[] := by decide +kernel
  have before : (Runtime.boot {}).Waiting [] := .inl ⟨_, named, elements, by simp⟩
  obtain ⟨during, waiting, ran⟩ := respects_leaving wf named
  have handlers : replay [] during = [.proc ⟨38, 0⟩, .proc ⟨39, 0⟩] :=
    waiting.trans (by decide +kernel)
  have listed : (leftBy (Runtime.boot {}) ⟨36, 0⟩).handlerList? = some ⟨36, 0⟩ := by decide +kernel
  obtain ⟨final, exits⟩ : ∃ final, Exits (CodeRef.code lateCode) 256 [⟨36, 0⟩]
      [.proc ⟨39, 0⟩, .proc ⟨38, 0⟩] (leftBy (Runtime.boot {}) ⟨36, 0⟩).detached [] [] final
        [1, 0] :=
    exits_late (by decide +kernel) (by decide +kernel) (by decide +kernel) (by decide +kernel)
  have behave : Behave (CodeRef.code lateCode) 256
      (leftBy (Runtime.boot {}) ⟨36, 0⟩).handlerList?.toList (replay [] during).reverse
      (leftBy (Runtime.boot {}) ⟨36, 0⟩).detached [] := by
    rw [listed, handlers]
    exact exits.behave
  obtain ⟨exiting, last, host', status, rt', -, exits', ended, asked, -, -, -, -, released⟩ :=
    handlers_run_once top wf before ran behave
  rw [listed, handlers] at exits'
  cases exits.ended.symm.trans exits'.ended
  cases asked with
  | asked _ given =>
    cases given
    exact ⟨rt', ended, released.trans (by decide +kernel)⟩
  | failed unasked => exact absurd ⟨by decide, by decide⟩ (unasked 7 rfl rfl)

end Machine
end ObjectRuntime
