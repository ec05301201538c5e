import ObjectRuntime.Proofs.Depth
import ObjectRuntime.Proofs.Returning
import ObjectRuntime.Proofs.Surroundings

/-! The recursion limit. However bodies call themselves and each other, no more calls ever run than
the limit allows. Each nested call leaves less room below the limit, so that what calls bodies that
return returns itself. -/

namespace ObjectRuntime

namespace Runtime
variable {rt : Runtime}

/-! ## The number of running calls -/

structure Within (rt : Runtime) (limit : Nat) : Prop where
  recursion : rt.recursionLimit = limit
  calls : rt.calls.size ≤ limit

theorem atLimit_iff {c : Call} :
    (rt.openFrame c).2.atLimit = true ↔ rt.recursionLimit ≤ rt.calls.size := decide_eq_true_iff

theorem calls_release (rt : Runtime) (mark : Nat) (keep : Option Val) :
    (rt.release mark keep).calls = rt.calls := by
  rw [release_eq]

theorem calls_leaveCall (rt : Runtime) (c : Call) (mark : Nat) (outcome : Outcome Val) :
    (rt.leaveCall c mark outcome).2.calls = rt.calls := by
  cases outcome with
  | value v => exact calls_release rt mark (some v)
  | failure e => exact calls_release rt mark none
  | panic message => rfl

theorem calls_act {α : Type} (action : Action α) (rt : Runtime) :
    (action.run rt).2.calls = rt.calls := by
  by_cases loose : action.letsGo = true ∧ rt.atTopLevel = true
  · cases action with
    | releaseTopLevel =>
      simp only [Action.run, releaseTopLevel, loose.2, if_true]
      exact calls_release rt 0 none
    | _ => cases loose.1
  · exact (Extends.act action rt (by simpa using loose)).calls

theorem limit_move (move : Move) (rt : Runtime) :
    (move.run rt).2.recursionLimit = rt.recursionLimit := by
  cases other : move.isAct with
  | false => rw [aside_move other]
  | true =>
    cases move with
    | act action => exact limit_act action rt
    | _ => cases other

theorem Within.openFrame {limit : Nat} (within : rt.Within limit) (c : Call) :
    (rt.openFrame c).2.Within limit := ⟨within.recursion, within.calls⟩

/-- Only a call that is let in adds to the calls, and at the limit none is. -/
theorem Within.move {limit : Nat} (within : rt.Within limit) (move : Move) :
    (move.run rt).2.Within limit := by
  obtain ⟨rfl, within⟩ := within
  refine ⟨limit_move move rt, ?_⟩
  cases move with
  | act action => exact (calls_act action rt).symm ▸ within
  | enterCall c =>
    rw [Machine.enterCall_after]
    split
    next => exact within
    next room =>
      have below : rt.calls.size < rt.recursionLimit :=
        not_le.mp fun full => room (atLimit_iff.mpr full)
      exact (Array.size_push _).trans_le below
  | refuseCall c mark => simpa [Move.run, refuseCall, calls_leaveCall] using within
  | closeCall c mark outcome =>
    simp only [Move.run, closeCall, calls_leaveCall]
    split
    next => exact within
    next => exact (Array.size_pop.trans_le (Nat.sub_le ..)).trans within
  | enterScope => exact within
  | leaveScope mark outcome =>
    simp only [Move.run, Runtime.leaveScope]
    split
    next => exact within
    next => simpa only [calls_release] using within
  | letGo mark outcome =>
    simp only [Move.run, Runtime.letGo]
    split
    next => exact within
    next => simpa only [calls_release] using within
  | restore marks =>
    have fewer : (rt.calls.take marks.calls).size ≤ rt.calls.size := by
      rw [Array.take_eq_extract, Array.size_extract]
      omega
    exact fewer.trans within

end Runtime

namespace Machine
variable {η : Type}

/-- At no moment of a call do more calls run than the limit allows. -/
theorem course_within (code : CodeRef → Code η) {limit : Nat} (budget : Nat) (unwinding : Bool)
    (c : Call) (rt : Runtime) (host : η) (before : rt.Within limit) :
    ∀ m ∈ course code budget unwinding c rt host, m.rt.Within limit :=
  course_keeps (I := fun rt => rt.Within limit) (fun move _ before => before.move move)
    (fun c _ before => before.openFrame c) code budget unwinding c rt host before

end Machine

/-! ## Room below the limit -/

namespace Runtime
variable {rt rt' : Runtime} {budget : Nat}

/-- So many calls can be nested here at most. -/
def Affords (rt : Runtime) (budget : Nat) : Prop := rt.recursionLimit ≤ rt.calls.size + budget

theorem StandsOn.affords (stands : StandsOn rt rt') (affords : rt.Affords budget) :
    rt'.Affords budget := by
  have deeper := stands.size_le
  have limit := stands.limit
  unfold Affords at affords ⊢
  omega

/-- Every search for a constant comes to an end. -/
def Resolves (rt : Runtime) : Prop := ∀ m name, (rt.findConst m name).1.isSome

theorem Resolves.answers (resolves : rt.Resolves) {α : Type} (action : Action α) :
    action.Returns (action.run rt).1 := by
  cases action with
  | findConst m name => exact resolves m name
  | _ => trivial

/-- Constants are resolved in every state with the heap of one whose modules are nested. -/
theorem resolves_of_nested {rt rt' : Runtime} (nested : rt.Nested) (sound : rt.Sound)
    (same : rt'.heap = rt.heap) : rt'.Resolves := by
  intro m name
  obtain ⟨around, linear⟩ := nested m
  have outer : rt'.outer = rt.outer := by
    funext m
    simp only [outer, module?, same]
  have ends := searchLexical_ends name (rt'.heap.slots.size + 1) (outer ▸ linear)
    (same ▸ sound.around_le linear)
  unfold Runtime.findConst
  split
  next => rfl
  next endless => exact absurd endless ends
  next => rfl

end Runtime

namespace Machine
variable {η α : Type} {calm : Prop} {P : Runtime → Prop} {budget : Nat}

/-- A call that can be nested at these moments answers. -/
def Answers (caller : Caller η) (within : Course η) (calm : Prop) (P : Runtime → Prop)
    (budget : Nat) : Prop :=
  ∀ unwinding c rt host, rt.Affords budget → (∀ m ∈ within unwinding c rt host, P m.rt) →
    ∃ answer left host', caller unwinding c rt host = .ended answer left host' ∧ answer.Allowed calm

theorem step_ensured {caller : Caller η} {unwinding : Bool} {rt left left₁ : Runtime}
    {host host₁ host₂ : η} {body : Program η Val} {cleanup : Program η Unit}
    {next : Outcome Val → Program η α} {answer : Outcome Val} {done : Outcome Unit}
    (inner : step caller unwinding body rt host = .ended answer left host₁)
    (cleaned : step caller (unwinding || answer.isPanic) cleanup
      (cleanupState (unwinding || answer.isPanic) rt left) host₁ = .ended done left₁ host₂) :
    step caller unwinding (.ensure body cleanup next) rt host =
      step caller unwinding (next (ensured answer done)) left₁ host₂ := by
  unfold cleanupState at cleaned
  simp only [step, inner, cleaned]
  cases done <;> rfl

theorem closeCall_isPanic (rt : Runtime) (c : Call) (mark : Nat) (outcome : Outcome Val) :
    (rt.closeCall c mark outcome).1.isPanic = outcome.isPanic := by
  cases outcome <;> rfl

/-- A program that returns ends when the calls it makes answer. -/
theorem step_answers {caller : Caller η} {within : Course η} (resolves : ∀ rt, P rt → rt.Resolves)
    (keeping : ∀ unwinding c rt host answer left host',
      caller unwinding c rt host = .ended answer left host' → Runtime.Retains rt left False)
    (answering : Answers caller within calm P budget) {p : Program η α} (returns : p.Returns calm)
    {unwinding : Bool} {rt : Runtime} {host : η} (affords : rt.Affords budget)
    (moments : ∀ m ∈ trace caller within unwinding p rt host, P m.rt) :
    ∃ outcome rt' host', step caller unwinding p rt host = .ended outcome rt' host' ∧
      outcome.Allowed calm := by
  induction p generalizing unwinding rt host with
  | done outcome => exact ⟨outcome, rt, host, rfl, returns⟩
  | endless => exact returns.elim
  | read next ih => exact ih rt (returns rt) affords moments
  | host f next ih => exact ih (f host).1 (returns (f host).1) affords moments
  | act action next ih =>
    obtain ⟨here, later⟩ := List.forall_mem_cons.mp moments
    have answer := (resolves rt here).answers action
    have onward := (Runtime.Retains.act action rt).affords affords
    exact ih _ (returns _ answer) onward later
  | call c next ih =>
    simp only [trace, List.forall_mem_cons, List.forall_mem_append, List.forall_mem_map] at moments
    obtain ⟨-, inside, later⟩ := moments
    obtain ⟨answer, left, host₁, called, allowed⟩ := answering unwinding c rt host affords inside
    have onward := (keeping _ _ _ _ _ _ _ called).affords affords
    simp only [called, Run.follow] at later
    simp only [step, called]
    exact ih answer (returns answer allowed) onward later
  | scope body next first ih =>
    simp only [trace, List.forall_mem_cons, List.forall_mem_append, List.forall_mem_map] at moments
    obtain ⟨-, inside, later⟩ := moments
    have entered : rt.enterScope.Affords budget := affords
    obtain ⟨answer, left, host₁, ended, allowed⟩ := first returns.1 entered inside
    have onward := ((step_retains keeping body ended).leaveScope answer).affords affords
    simp only [ended, Run.follow] at later
    simp only [step, ended]
    exact ih answer (returns.2 answer allowed) onward later
  | holding v body next first ih =>
    simp only [trace, List.forall_mem_cons, List.forall_mem_append, List.forall_mem_map] at moments
    obtain ⟨-, inside, later⟩ := moments
    have held := (Runtime.Retains.hold rt v True).affords affords
    obtain ⟨answer, left, host₁, ended, allowed⟩ := first returns.1 held inside
    have onward := ((step_retains keeping body ended).letGo answer).affords affords
    simp only [ended, Run.follow] at later
    simp only [step, ended]
    exact ih answer (returns.2 answer allowed) onward later
  | ensure body cleanup next first second ih =>
    simp only [trace, List.forall_mem_append] at moments
    obtain ⟨inside, later⟩ := moments
    obtain ⟨answer, left, host₁, ended, allowed⟩ := first returns.1 affords inside
    simp only [ended, Run.follow, List.forall_mem_append] at later
    obtain ⟨cleaning, later⟩ := later
    have unwound :=
      ((step_retains keeping body ended).cleanup (unwinding || answer.isPanic)).affords affords
    obtain ⟨done, left₁, host₂, cleaned, calmly⟩ := second returns.2.1 unwound cleaning
    have onward := (step_retains keeping cleanup cleaned).affords unwound
    simp only [cleaned] at later
    have both : (ensured answer done).Allowed calm := by
      cases done with
      | panic message => exact calmly
      | _ => exact allowed
    rw [step_ensured ended cleaned]
    exact ih (ensured answer done) (returns.2.2 _ both) onward later

/-- Calls answer, however they are nested, when the bodies that they run return. -/
theorem call_answers {code : CodeRef → Code η} (resolves : ∀ rt, P rt → rt.Resolves)
    (bodies : ∀ (rt : Runtime) c, P ((rt.openFrame c).2.pushCall (rt.openFrame c).1) →
      (body code (rt.openFrame c).2 (rt.openFrame c).1 c).Returns calm) (budget : Nat) :
    Answers (call code budget) (course code budget) calm P budget := by
  induction budget with
  | zero =>
    intro unwinding c rt host affords moments
    have full : (rt.openFrame c).2.atLimit = true := Runtime.atLimit_iff.mpr affords
    exact ⟨_, _, _, call_full full, fun _ => rfl⟩
  | succ budget ih =>
    intro unwinding c rt host affords moments
    cases room : (rt.openFrame c).2.atLimit with
    | true => exact ⟨_, _, _, call_full room, fun _ => rfl⟩
    | false =>
      simp only [course, room, Bool.false_eq_true, if_false] at moments
      obtain ⟨panics, later, begins⟩ := trace_begins (call code budget) (course code budget)
        unwinding (body code (rt.openFrame c).2 (rt.openFrame c).1 c)
        ((rt.openFrame c).2.pushCall (rt.openFrame c).1) host
      have here : P ((rt.openFrame c).2.pushCall (rt.openFrame c).1) :=
        moments ⟨0, _, panics⟩ (begins ▸ List.mem_cons_self)
      have deeper : ((rt.openFrame c).2.pushCall (rt.openFrame c).1).Affords budget := by
        unfold Runtime.Affords at affords ⊢
        simp only [Runtime.pushCall, Runtime.openFrame, Array.size_push]
        omega
      obtain ⟨outcome, left, host₁, ended, allowed⟩ :=
        step_answers resolves (call_retains code budget) ih (bodies rt c here) deeper moments
      refine ⟨_, _, _, call_ended room ended, fun careful => ?_⟩
      rw [closeCall_isPanic]
      exact allowed careful

end Machine

/-! ## Runs -/

variable {η α : Type}

/-- No way through the program is endless. -/
abbrev Program.Finite (p : Program η α) : Prop := p.Returns False

/-- No way through the program is endless, or ends in a panic of its own. -/
abbrev Program.Calm (p : Program η α) : Prop := p.Returns True

/-- The states that a program passes through when it is run from here. -/
def Program.moments (user : Nat → Code η) (p : Program η α) (rt : Runtime) (host : η) :
    List Moment :=
  Machine.trace (Machine.call (CodeRef.code user) rt.recursionLimit)
    (Machine.course (CodeRef.code user) rt.recursionLimit) false p rt host

namespace Runtime
variable {rt : Runtime} {user : Nat → Code η}

def activation (rt : Runtime) (frame : Nat) : Activation :=
  let f := rt.frames.store.getD frame default
  ⟨frame, f.self, f.args, f.block⟩

/-- The bodies of the methods that are running are calm, and so are those of all procs. -/
structure Calm (rt : Runtime) (user : Nat → Code η) : Prop where
  methods : ∀ frame ∈ rt.calls, ∀ m code, (rt.frames.store.getD frame default).method = some m →
    m.body = .native code ∨ m.body = .closure code → (code.code user (rt.activation frame)).Calm
  procs : ∀ r p a, rt.proc? r = some p → (p.code.code user a).Calm

theorem frame_openFrame (rt : Runtime) (c : Call) :
    (rt.openFrame c).2.frames.store.getD (rt.openFrame c).1 default = rt.callFrame c := by
  simp [openFrame, Frames.push]

theorem Calm.body {c : Call} (calm : ((rt.openFrame c).2.pushCall (rt.openFrame c).1).Calm user) :
    (Machine.body (CodeRef.code user) (rt.openFrame c).2 (rt.openFrame c).1 c).Calm := by
  have running : (rt.openFrame c).1 ∈ ((rt.openFrame c).2.pushCall (rt.openFrame c).1).calls :=
    Array.mem_push_self
  unfold Machine.body
  split
  next => exact .fail _
  next =>
    split
    next code runs =>
      cases c with
      | proc p args block =>
        obtain ⟨p, found, rfl⟩ := Option.map_eq_some_iff.mp runs
        exact calm.procs _ p _ found
      | method m receiver args block =>
        have framed : (rt.callFrame (.method m receiver args block)).method = some m := by
          simp only [callFrame]
          split <;> rfl
        rw [← frame_openFrame] at framed
        cases body : m.body with
        | proc p =>
          simp only [callCode, body] at runs
          obtain ⟨p, found, rfl⟩ := Option.map_eq_some_iff.mp runs
          exact calm.procs _ p _ found
        | native ref =>
          simp only [callCode, body, Option.some.injEq] at runs
          exact runs ▸ calm.methods _ running m ref framed (.inl body)
        | closure ref =>
          simp only [callCode, body, Option.some.injEq] at runs
          exact runs ▸ calm.methods _ running m ref framed (.inr body)
    next => exact .value Val.nil

end Runtime

theorem Machine.finite_body {user : Nat → Code η} (finite : ∀ n a, (user n a).Finite) (rt : Runtime)
    (frame : Nat) (c : Call) : (body (CodeRef.code user) rt frame c).Finite := by
  unfold body
  split
  next => exact .fail _
  next =>
    split
    next code _ =>
      cases code with
      | builtin b => exact b.returns _ False.elim
      | user n => exact finite n _
    next => exact .value Val.nil

/-- However bodies call themselves and each other: when all of them are finite, then whatever is, as
sends, conversions and the run of the at-exit handlers are, ends, as long as constants are resolved,
and at no moment do more calls run than the recursion limit allows. Where the bodies are calm it
ends with a value or with a failure. -/
theorem Program.ends_within_limit (user : Nat → Code η) (finite : ∀ n a, (user n a).Finite)
    {p : Program η α} (returns : p.Finite) {rt : Runtime} (host : η)
    (within : rt.calls.size ≤ rt.recursionLimit)
    (resolves : ∀ m ∈ p.moments user rt host, m.rt.Resolves) :
    ∃ outcome rt' host', p.run user rt host = .ended outcome rt' host' ∧
      (∀ m ∈ p.moments user rt host, m.rt.calls.size ≤ rt.recursionLimit) ∧
      (p.Calm → (∀ m ∈ p.moments user rt host, m.rt.Calm user) →
        (∃ a, outcome = .value a) ∨ ∃ e, outcome = .failure e) := by
  have affords : rt.Affords rt.recursionLimit := Nat.le_add_left ..
  have keeping := Machine.call_retains (CodeRef.code user) rt.recursionLimit
  have answering := Machine.call_answers (P := Runtime.Resolves) (fun _ => id)
    (fun rt c _ => Machine.finite_body finite (rt.openFrame c).2 (rt.openFrame c).1 c)
  obtain ⟨outcome, rt', host', ended, -⟩ := Machine.step_answers (fun _ => id) keeping
    (answering rt.recursionLimit) returns affords resolves
  refine ⟨outcome, rt', host', ended, fun m member => ?_, fun calm careful => ?_⟩
  · have within : m.rt.Within rt.recursionLimit := Machine.trace_keeps
      (fun move rt before => before.move move) (Machine.call_moves _ _)
      (Machine.course_within _ _) p ⟨rfl, within⟩ m member
    exact within.calls
  · have answering := Machine.call_answers (P := fun rt => rt.Resolves ∧ rt.Calm user)
      (fun _ => And.left) (fun _ _ here => here.2.body)
    obtain ⟨outcome', rt₁, host₁, ended', allowed⟩ := Machine.step_answers (fun _ => And.left)
      keeping (answering rt.recursionLimit) calm affords
      fun m member => ⟨resolves m member, careful m member⟩
    obtain ⟨rfl, -, -⟩ := Run.ended.inj (ended.symm.trans ended')
    cases outcome with
    | value a => exact .inl ⟨a, rfl⟩
    | failure e => exact .inr ⟨e, rfl⟩
    | panic message => cases allowed trivial

/-! ## A method that calls itself -/

def descent : Method := ⟨100, .new, CoreClass.object.ref, .closure (.user 0), 0⟩

def descending : Call := .method descent .nil [] none

def descend : Nat → Code Unit := fun _ _ => Program.invoke descending

/-- The heap is still this one, and that method is all that is running. -/
structure Runtime.Descends (heap : Heap) (rt : Runtime) : Prop where
  heap : rt.heap = heap
  running : ∀ frame ∈ rt.calls, ∃ f, rt.frames.store[frame]? = some f ∧ f.method = some descent

/-- Moments of that method, and the end of its run: it fails, since the stack is too deep. -/
structure Falls (heap : Heap) (moments : List Moment) (run : Run Unit Val) : Prop where
  moments : ∀ m ∈ moments, m.rt.Descends heap
  ends : ∀ answer left host, run = .ended answer left host →
    left.Descends heap ∧ ∃ e, answer = .failure e ∧ e.kind = .systemStackError

namespace Runtime.Descends
variable {rt : Runtime} {heap : Heap}

theorem openFrame (descends : rt.Descends heap) (c : Call) : (rt.openFrame c).2.Descends heap := by
  refine ⟨descends.heap, fun frame member => ?_⟩
  obtain ⟨f, found, runs⟩ := descends.running frame member
  obtain ⟨bound, rfl⟩ := Array.getElem?_eq_some_iff.mp found
  exact ⟨_, Array.getElem?_push_lt bound, runs⟩

theorem pushCall (descends : rt.Descends heap) :
    ((rt.openFrame descending).2.pushCall (rt.openFrame descending).1).Descends heap := by
  refine ⟨descends.heap, fun frame member => ?_⟩
  rcases Array.mem_push.mp member with old | rfl
  · exact (descends.openFrame descending).running frame old
  · exact ⟨rt.callFrame descending, Array.getElem?_push_size, rfl⟩

theorem leaveCall (descends : rt.Descends heap) (c : Call) (mark : Nat) (outcome : Outcome Val) :
    (rt.leaveCall c mark outcome).2.Descends heap := by
  have released (keep : Option Val) : (rt.release mark keep).Descends heap := by
    rw [release_eq]
    exact ⟨descends.heap, descends.running⟩
  cases outcome with
  | value v => exact released (some v)
  | failure e => exact released none
  | panic message => exact descends

theorem closeCall (descends : rt.Descends heap) (c : Call) (mark : Nat) (outcome : Outcome Val) :
    (rt.closeCall c mark outcome).2.Descends heap := by
  unfold Runtime.closeCall
  refine leaveCall ?_ c mark outcome
  split
  · exact descends
  · refine ⟨descends.heap, fun frame member => descends.running frame ?_⟩
    rw [popCall, ← Array.mem_toList_iff, Array.toList_pop] at member
    exact Array.mem_toList_iff.mp ((List.dropLast_sublist _).mem member)

theorem trace {budget : Nat} (descends : rt.Descends heap)
    (falls : Falls heap (Machine.course (CodeRef.code descend) budget false descending rt ())
      (Machine.call (CodeRef.code descend) budget false descending rt ())) :
    Falls heap
      (Machine.trace (Machine.call (CodeRef.code descend) budget)
        (Machine.course (CodeRef.code descend) budget) false (.invoke descending) rt ())
      (Machine.step (Machine.call (CodeRef.code descend) budget) false (.invoke descending) rt ())
    where
  moments := by
    refine List.forall_mem_cons.mpr ⟨descends, List.forall_mem_append.mpr
      ⟨List.forall_mem_map.mpr falls.moments, fun m member => ?_⟩⟩
    obtain ⟨answer, left, host, called, last⟩ := Run.mem_follow.mp member
    rw [List.mem_singleton.mp last]
    exact (falls.ends answer left host called).1
  ends answer left host ended := by
    obtain ⟨answer, left, host, called, done⟩ := Machine.step_call ended
    cases done
    exact falls.ends answer left host called

theorem refused (descends : rt.Descends heap) :
    Falls heap [⟨0, (rt.openFrame descending).2, false⟩]
      (.ended ((rt.openFrame descending).2.refuseCall descending rt.handles.size).1
        ((rt.openFrame descending).2.refuseCall descending rt.handles.size).2 ()) where
  moments := List.forall_mem_singleton.mpr (descends.openFrame descending)
  ends answer left host ended := by
    cases ended
    exact ⟨(descends.openFrame descending).leaveCall .., _, rfl, rfl⟩

theorem course (budget : Nat) (descends : rt.Descends heap) :
    Falls heap (Machine.course (CodeRef.code descend) budget false descending rt ())
      (Machine.call (CodeRef.code descend) budget false descending rt ()) := by
  induction budget generalizing rt with
  | zero =>
    simp only [Machine.course, Machine.call]
    split
    · exact descends.refused
    · exact ⟨descends.refused.moments, fun answer left host ended => by cases ended⟩
  | succ budget ih =>
    have inner := descends.pushCall.trace (ih descends.pushCall)
    simp only [Machine.course, Machine.call]
    split
    · exact descends.refused
    · refine ⟨inner.moments, fun answer left host ended => ?_⟩
      split at ended
      next outcome left _ ran =>
        cases ended
        obtain ⟨kept, e, rfl, deep⟩ := inner.ends outcome left () ran
        exact ⟨kept.closeCall .., _, rfl, deep⟩
      next => cases ended
      next => cases ended

theorem calm (descends : rt.Descends heap) (procless : ∀ r p, heap.cell? r ≠ some (.proc p)) :
    rt.Calm descend where
  methods frame member m code runs native := by
    obtain ⟨f, found, same⟩ := descends.running frame member
    have this : m = descent := by
      rw [Array.getD_eq_getD_getElem?, found, Option.getD_some, same] at runs
      exact (Option.some.inj runs).symm
    subst this
    rcases native with native | native
    · cases native
    · cases native
      exact .invoke descending
  procs r p a found := by
    unfold Runtime.proc? at found
    split at found
    next p' there => exact absurd (descends.heap ▸ there) (procless r p')
    next => cases found

end Runtime.Descends

def shallow : Runtime := Runtime.boot { recursionLimit := 3 }

theorem descending_ends :
    (∀ n a, (descend n a).Finite) ∧ Program.Calm (η := Unit) (.invoke descending) ∧
    (∀ m ∈ Program.moments descend (.invoke descending) shallow (),
      m.rt.Resolves ∧ m.rt.Calm descend) ∧
    ∃ e rt' host',
      Program.run descend (.invoke descending) shallow () = .ended (.failure e) rt' host' ∧
      e.kind = .systemStackError ∧
      ∀ m ∈ Program.moments descend (.invoke descending) shallow (), m.rt.calls.size ≤ 3 := by
  have finite (n : Nat) (a : Activation) : (descend n a).Finite := .invoke descending
  have calm : Program.Calm (η := Unit) (.invoke descending) := .invoke descending
  have idle : shallow.calls = #[] ∧ shallow.recursionLimit = 3 ∧
      shallow.heap.slots.all (fun s => s.cell.all (·.kind != .proc)) := by decide +kernel
  obtain ⟨calls, limit, procless⟩ := idle
  have start : shallow.Descends shallow.heap := ⟨rfl, by simp [calls]⟩
  have falls := start.trace (start.course shallow.recursionLimit)
  have moments (m : Moment) (member : m ∈ Program.moments descend (.invoke descending) shallow ()) :
      m.rt.Resolves ∧ m.rt.Calm descend := by
    have descends := falls.moments m member
    refine ⟨Runtime.resolves_of_nested (Runtime.nested_boot _) (Runtime.intact_boot _).sound
      descends.heap, descends.calm fun r q found => ?_⟩
    obtain ⟨s, there, -, cell⟩ := (Heap.cell?_eq_some_iff ..).mp found
    obtain ⟨bound, rfl⟩ := Array.getElem?_eq_some_iff.mp there
    have plain := Array.all_eq_true.mp procless _ bound
    rw [cell] at plain
    cases plain
  obtain ⟨outcome, rt', host', ended, within, calmly⟩ := Program.ends_within_limit descend finite
    (finite 0 ⟨0, .nil, [], none⟩) () (by simp [calls]) fun m member => (moments m member).1
  have deep := (falls.ends outcome rt' host' ended).2
  rcases calmly calm fun m member => (moments m member).2 with ⟨v, rfl⟩ | ⟨e, rfl⟩
  · obtain ⟨e, same, -⟩ := deep
    cases same
  · obtain ⟨e', same, deep⟩ := deep
    cases same
    exact ⟨finite, calm, moments, e, rt', host', ended, deep, limit ▸ within⟩

end ObjectRuntime
