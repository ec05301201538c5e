import ObjectRuntime.Proofs.Balance
import ObjectRuntime.Proofs.Booting

/-! Sends. A send, a super send or the call of a value is the one call it leads to, and
balanced as that is. When no method answers it fails, and all that it may leave behind is
the text that the receiver's inspect method answered. -/

namespace ObjectRuntime

/-- What calls a method that is yet to be found, or calls a value. -/
inductive Sending
  | message (receiver : Val) (name : Sym) (args : List Val) (block : Option Val)
  | super (frame : Nat) (self : Val) (args : List Val) (block : Option Val)
  | value (callable : Val) (args : List Val) (block : Option Val)

namespace Sending

def program {η : Type} : Sending → Program η Val
  | message receiver name args block => Program.send receiver name args block
  | super frame self args block => Program.superSend frame self args block
  | value callable args block => Program.callValue callable args block

def unknown (rt : Runtime) (receiver : Val) (name : Sym) : Bool :=
  match rt.findMethod (rt.classOf receiver) name none none with
  | (some _, _) => false
  | (none, rt) => (rt.findMethod (rt.classOf receiver) .methodMissing none none).1.isNone

def unanswered (rt : Runtime) : Sending → Bool
  | message receiver name _ _ => unknown rt receiver name
  | super frame self _ _ =>
    match rt.frames.currentMethod frame with
    | none => false
    | some current =>
      (rt.findMethod (rt.classOf self) current.name (some current) none).1.isNone
  | value (.cell .proc _) _ _ | value (.cell .bound _) _ _ => false
  | value callable _ _ => unknown rt callable .call

end Sending

namespace Machine
variable {η : Type} {caller : Caller η} {within : Course η} {rt rt' : Runtime} {host host' : η}

theorem size_handleOf (keep : Option Val) : (handleOf keep).size ≤ 1 := by
  cases keep with
  | none => simp [handleOf]
  | some v => by_cases immediate : v.isImmediate <;> simp [handleOf, immediate]

theorem balanced_of_forget {left : Runtime} {taken : Array Val} (same : left.forget = rt.forget)
    (balanced : left.Balanced taken rt') : rt.Balanced taken rt' where
  toResumes := (Runtime.Extends.of_forget same).toResumes.trans balanced.toResumes
  exactly := by
    rw [balanced.exactly, show left.handles = rt.handles from congrArg (fun rt => rt.handles) same]

theorem balanced_refl (rt : Runtime) : rt.Balanced #[] rt := ⟨.refl rt, by simp⟩

theorem balanced_invoke (tidy : Tidy caller within) {c : Call} {outcome : Outcome Val}
    (quiet : Quiet (trace caller within false (.call c .done) rt host))
    (ended : step caller false (.call c .done) rt host = .ended outcome rt' host') :
    rt.Balanced outcome.kept rt' := by
  obtain ⟨answer, left, host₁, called, done⟩ := step_call ended
  obtain ⟨inner, -⟩ := quiet.of_cons.of_append
  cases done
  exact tidy.balanced c rt host outcome rt' host' inner.of_deeper called

theorem step_asks {α β : Type} {unwinding : Bool} (f : Runtime → β) (next : β → Program η α) :
    step caller unwinding (Program.asks f >>= next) rt host =
      step caller unwinding (next (f rt)) rt host := rfl

theorem trace_asks {α β : Type} (f : Runtime → β) (next : β → Program η α) :
    trace caller within false (Program.asks f >>= next) rt host =
      trace caller within false (next (f rt)) rt host := rfl

theorem step_perform {α β : Type} {unwinding : Bool} (action : Action β)
    (next : β → Program η α) :
    step caller unwinding (Program.perform action >>= next) rt host =
      step caller unwinding (next (action.run rt).1) (action.run rt).2 host := rfl

theorem trace_perform {α β : Type} (action : Action β) (next : β → Program η α) :
    trace caller within false (Program.perform action >>= next) rt host = ⟨0, rt, false⟩ ::
      trace caller within false (next (action.run rt).1) (action.run rt).2 host := rfl

theorem step_findFor {α : Type} {unwinding : Bool} (v : Val) (name : Sym)
    (next : Option Method → Program η α) :
    step caller unwinding (Program.findFor v name >>= next) rt host =
      step caller unwinding (next (rt.findMethod (rt.classOf v) name none none).1)
        (rt.findMethod (rt.classOf v) name none none).2 host := rfl

theorem trace_findFor {α : Type} (v : Val) (name : Sym) (next : Option Method → Program η α) :
    trace caller within false (Program.findFor v name >>= next) rt host = ⟨0, rt, false⟩ ::
      trace caller within false (next (rt.findMethod (rt.classOf v) name none none).1)
        (rt.findMethod (rt.classOf v) name none none).2 host := rfl

def describe (v : Val) : Option Method → Program η String
  | none => Program.asks (·.defaultInspect v)
  | some m => (Program.callMethod m v [] none >>= Program.answeredText).rescue fun _ =>
      Program.asks (·.defaultInspect v)

theorem inspectText_bind {α : Type} (v : Val) (f : String → Program η α) :
    Program.inspectText v >>= f =
      Program.findFor v .inspect >>= fun answer => describe v answer >>= f := by
  rfl

theorem balanced_inspectText (tidy : Tidy caller within) (v : Val) {f : String → Program η Val}
    {outcome : Outcome Val}
    (quiet : Quiet (trace caller within false (Program.inspectText v >>= f) rt host))
    (ended : step caller false (Program.inspectText v >>= f) rt host = .ended outcome rt' host') :
    ∃ taken left text host₁, taken.size ≤ 1 ∧ rt.Balanced taken left ∧
      step caller false (f text) left host₁ = .ended outcome rt' host' := by
  have same := Runtime.findMethod_forget rt (rt.classOf v) .inspect none none
  rw [inspectText_bind, step_findFor] at ended
  rw [inspectText_bind, trace_findFor] at quiet
  generalize rt.findMethod (rt.classOf v) .inspect none none = p at same quiet ended
  obtain ⟨answer, left⟩ := p
  cases answer with
  | none => exact ⟨#[], left, _, host, by simp, balanced_of_forget same (balanced_refl left), ended⟩
  | some m =>
    obtain ⟨answer, left₁, host₁, called, rest⟩ := step_call ended
    obtain ⟨inner, -⟩ := quiet.of_cons.of_cons.of_append
    have balanced := tidy.balanced _ left host answer left₁ host₁ inner.of_deeper called
    refine ⟨answer.kept, left₁, ?_⟩
    have described {text : String}
        (rest : step caller false (f text) left₁ host₁ = .ended outcome rt' host') :
        ∃ text host₁, answer.kept.size ≤ 1 ∧ rt.Balanced answer.kept left₁ ∧
          step caller false (f text) left₁ host₁ = .ended outcome rt' host' :=
      ⟨text, host₁, size_handleOf _, balanced_of_forget same balanced, rest⟩
    cases answer with
    | value a =>
      cases a with
      | cell kind r => cases kind <;> exact described rest
      | _ => exact described rest
    | failure e => exact described rest
    | panic message =>
      have calm := calm_of_quiet quiet.of_cons ended
      cases rest
      cases calm

/-- What a send leaves behind: when no method answers it fails, with one handle at most. -/
def Leaves (rt : Runtime) (unanswered : Bool) (outcome : Outcome Val) (rt' : Runtime) : Prop :=
  if unanswered then
    (∃ e, outcome = .failure e) ∧ ∃ taken : Array Val, taken.size ≤ 1 ∧ rt.Balanced taken rt'
  else rt.Balanced outcome.kept rt'

theorem leaves_send (tidy : Tidy caller within) {receiver : Val} {name : Sym} {args : List Val}
    {block : Option Val} {outcome : Outcome Val}
    (quiet : Quiet (trace caller within false (Program.send receiver name args block) rt host))
    (ended : step caller false (Program.send receiver name args block) rt host =
      .ended outcome rt' host') :
    Leaves rt (Sending.unknown rt receiver name) outcome rt' := by
  have same := Runtime.findMethod_forget rt (rt.classOf receiver) name none none
  rw [Program.send, step_findFor] at ended
  rw [Program.send, trace_findFor] at quiet
  unfold Sending.unknown
  generalize rt.findMethod (rt.classOf receiver) name none none = p at same quiet ended ⊢
  obtain ⟨answer, left⟩ := p
  cases answer with
  | some m => exact balanced_of_forget same (balanced_invoke tidy quiet.of_cons ended)
  | none =>
    simp only at quiet ended ⊢
    have same' := Runtime.findMethod_forget left (left.classOf receiver) .methodMissing none none
    rw [step_findFor] at ended
    rw [trace_findFor] at quiet
    generalize left.findMethod (left.classOf receiver) .methodMissing none none = p
      at same' quiet ended ⊢
    obtain ⟨answer, left₁⟩ := p
    have same'' := same'.trans same
    cases answer with
    | some hook =>
      exact balanced_of_forget same'' (balanced_invoke tidy quiet.of_cons.of_cons ended)
    | none =>
      obtain ⟨taken, left₂, text, host₁, few, balanced, rest⟩ :=
        balanced_inspectText tidy receiver quiet.of_cons.of_cons ended
      cases rest
      exact ⟨⟨_, rfl⟩, taken, few, balanced_of_forget same'' balanced⟩

theorem leaves_superSend (tidy : Tidy caller within) {frame : Nat} {self : Val} {args : List Val}
    {block : Option Val} {outcome : Outcome Val}
    (quiet : Quiet (trace caller within false (Program.superSend frame self args block) rt host))
    (ended : step caller false (Program.superSend frame self args block) rt host =
      .ended outcome rt' host') :
    Leaves rt ((Sending.super frame self args block).unanswered rt) outcome rt' := by
  rw [Program.superSend, step_asks] at ended
  rw [Program.superSend, trace_asks] at quiet
  simp only [Sending.unanswered]
  cases running : rt.frames.currentMethod frame with
  | none =>
    rw [running] at ended
    cases ended
    exact balanced_refl rt
  | some current =>
    simp only [running] at quiet ended ⊢
    rw [step_asks] at ended
    rw [trace_asks] at quiet
    have same := Runtime.findMethod_forget rt (rt.classOf self) current.name (some current) none
    rw [step_perform] at ended
    rw [trace_perform] at quiet
    simp only [Action.run] at quiet ended
    generalize rt.findMethod (rt.classOf self) current.name (some current) none = p
      at same quiet ended ⊢
    obtain ⟨answer, left⟩ := p
    cases answer with
    | some next => exact balanced_of_forget same (balanced_invoke tidy quiet.of_cons ended)
    | none =>
      simp only at quiet ended
      rw [step_asks] at ended
      rw [trace_asks] at quiet
      obtain ⟨taken, left₁, text, host₁, few, balanced, rest⟩ :=
        balanced_inspectText tidy self quiet.of_cons ended
      cases rest
      exact ⟨⟨_, rfl⟩, taken, few, balanced_of_forget same balanced⟩

theorem balanced_callProc (tidy : Tidy caller within) {proc : Ref} {args : List Val}
    {block : Option Val} {outcome : Outcome Val}
    (quiet : Quiet (trace caller within false (Program.callProc proc args block) rt host))
    (ended : step caller false (Program.callProc proc args block) rt host =
      .ended outcome rt' host') : rt.Balanced outcome.kept rt' := by
  rw [Program.callProc, step_asks] at ended
  rw [Program.callProc, trace_asks] at quiet
  cases found : rt.proc? proc with
  | none =>
    rw [found] at quiet ended
    exact balanced_invoke tidy quiet ended
  | some p =>
    obtain ⟨frame, code, arity, lambda⟩ := p
    cases lambda with
    | false =>
      rw [found] at quiet ended
      exact balanced_invoke tidy quiet ended
    | true =>
      simp only [found] at quiet ended
      -- a lambda checks its arguments before anything is called
      cases misfit : Runtime.arityFailure arity args.length with
      | none =>
        rw [misfit] at quiet ended
        exact balanced_invoke tidy quiet ended
      | some e =>
        rw [misfit] at ended
        cases ended
        exact balanced_refl rt

theorem leaves_callValue (tidy : Tidy caller within) {callable : Val} {args : List Val}
    {block : Option Val} {outcome : Outcome Val}
    (quiet : Quiet (trace caller within false (Program.callValue callable args block) rt host))
    (ended : step caller false (Program.callValue callable args block) rt host =
      .ended outcome rt' host') :
    Leaves rt ((Sending.value callable args block).unanswered rt) outcome rt' := by
  cases callable with
  | cell kind r =>
    cases kind with
    | proc => exact balanced_callProc tidy quiet ended
    | bound =>
      simp only [Program.callValue] at quiet ended
      rw [step_asks] at ended
      rw [trace_asks] at quiet
      cases found : rt.bound? r with
      | none =>
        rw [found] at ended
        cases ended
        exact balanced_refl rt
      | some bound =>
        rw [found] at quiet ended
        exact balanced_invoke tidy quiet ended
    | _ => exact leaves_send tidy quiet ended
  | _ => exact leaves_send tidy quiet ended

theorem leaves_program (tidy : Tidy caller within) {s : Sending} {outcome : Outcome Val}
    (quiet : Quiet (trace caller within false s.program rt host))
    (ended : step caller false s.program rt host = .ended outcome rt' host') :
    Leaves rt (s.unanswered rt) outcome rt' := by
  cases s with
  | message receiver name args block => exact leaves_send tidy quiet ended
  | super frame self args block => exact leaves_superSend tidy quiet ended
  | value callable args block => exact leaves_callValue tidy quiet ended

/-! ## The balance of the stacks -/

variable (code : CodeRef → Code η)

/-- Where nothing panics, a call leaves the calls and scopes as they were, and its result on the
handles; a scope does when something encloses it, and what is sent does as the call it leads to.
What is made while a call, a scope or a held value inside of these is the innermost one stays there
until it is left. -/
theorem stacks_balanced (budget : Nat) (rt : Runtime) (host : η) (wf : rt.heap.WellFormed) :
    (∀ c outcome rt' host', call code budget false c rt host = .ended outcome rt' host' →
      Quiet (course code budget false c rt host) →
        rt.Balanced outcome.kept rt' ∧ Lasting (course code budget false c rt host)) ∧
    (∀ body outcome rt' host',
      step (call code budget) false (Program.inScope body) rt host = .ended outcome rt' host' →
      Quiet (trace (call code budget) (course code budget) false body rt.enterScope host) →
        rt.Balanced (if rt.atTopLevel then #[] else outcome.kept) rt' ∧
          Lasting (trace (call code budget) (course code budget) false body rt.enterScope host)) ∧
    (∀ (s : Sending) outcome rt' host',
      step (call code budget) false s.program rt host = .ended outcome rt' host' →
      Quiet (trace (call code budget) (course code budget) false s.program rt host) →
        if s.unanswered rt then
          (∃ e, outcome = .failure e) ∧ ∃ taken : Array Val, taken.size ≤ 1 ∧ rt.Balanced taken rt'
        else rt.Balanced outcome.kept rt') ∧
    (rt.atTopLevel = false → ∀ (v : Val) (body : Program η Unit),
      Quiet (trace (call code budget) (course code budget) false body (rt.hold v) host) →
        Lasting (trace (call code budget) (course code budget) false body (rt.hold v) host)) := by
  have tidy := tidy_call code budget
  refine ⟨fun c outcome rt' host' ended quiet => ?_, fun body outcome rt' host' ended quiet => ?_,
    fun s outcome rt' host' ended quiet => leaves_program tidy quiet ended,
    fun inside v body quiet => ?_⟩
  · obtain ⟨-, opened, guards, steady⟩ := tidy.steady c rt host quiet
    exact ⟨tidy.balanced c rt host outcome rt' host' quiet ended, steady.lasting (guards.heap wf)⟩
  · have entered : rt.enterScope.atTopLevel = false := by
      simp [Runtime.atTopLevel, Runtime.enterScope]
    have settled := settles tidy body entered quiet
    obtain ⟨answer, left, host₁, ran, done⟩ := step_scope ended
    have calm := calm_of_quiet quiet ran
    cases done
    exact ⟨(settled.resumes _ _ _ ran).leaveScope calm, settled.steady.lasting wf⟩
  · have held := Runtime.Extends.hold rt v
    exact (settles tidy body (held.atTopLevel.trans inside) quiet).steady.lasting (held.heap wf)

/-- A scope that makes an array and answers with it. -/
def making : Program Unit Val := do
  return .array (← Program.perform (.newArray CoreClass.array.ref []))

def builtinCode : CodeRef → Code Unit := CodeRef.code fun _ _ => .done (.value .nil)

theorem step_making (rt : Runtime) :
    step (call builtinCode 256) false (Program.inScope making) rt () = .ended
      (.value (.array (rt.enterScope.alloc (.array CoreClass.array.ref #[])).1))
      ((rt.enterScope.alloc (.array CoreClass.array.ref #[])).2.leaveScope rt.handles.size
        (.value (.array (rt.enterScope.alloc (.array CoreClass.array.ref #[])).1))) () := rfl

theorem quiet_making (rt : Runtime) :
    Quiet (trace (call builtinCode 256) (course builtinCode 256) false making rt ()) := by
  intro m member
  rcases List.mem_cons.mp member with rfl | rest
  · rfl
  · rw [List.mem_singleton.mp rest]
    rfl

theorem scope_of_making_balanced : (Runtime.boot {}).heap.WellFormed ∧
    ∃ v rt', step (call builtinCode 256) false (Program.inScope making) (Runtime.boot {}) () =
      .ended (.value v) rt' () ∧ (Runtime.boot {}).Balanced #[] rt' := by
  have wf := (Runtime.intact_boot {}).sound.heap
  have top : (Runtime.boot {}).atTopLevel = true := by decide +kernel
  have scope := (stacks_balanced builtinCode 256 (Runtime.boot {}) () wf).2.1
  generalize Runtime.boot {} = rt at scope wf top ⊢
  have balanced := (scope making _ _ _ (step_making rt) (quiet_making _)).1
  rw [if_pos top] at balanced
  exact ⟨wf, _, _, step_making rt, balanced⟩

/-- A scope that runs the at-exit handlers, drops the list made for the next ones, and collects. -/
def dropping : Program Unit Val := do
  Program.runAtExitHandlers
  Program.setGlobal .atExitHandlers .nil
  let _ ← Program.perform .collect
  return .nil

def droppingStates : List Runtime :=
  (trace (call builtinCode 256) (course builtinCode 256) false dropping
    (Runtime.boot {}).enterScope ()).map (·.rt)

def failedWith : Run Unit Val → Option (Array Val)
  | .ended (.failure _) rt _ => some rt.handles
  | _ => none

theorem not_lasting {states : List Runtime} {r : Ref} {earlier later : List Bool}
    (lives : states.map (·.heap.isLive r) = earlier ++ false :: true :: later)
    (lost : false ∈ later) : ¬ Lasting (states.map (Moment.mk 0 · false)) := by
  intro lasting
  obtain ⟨before, rest, rfl, -, rest'⟩ := List.map_eq_append_iff.mp lives
  obtain ⟨rt, rest, rfl, dead, rest'⟩ := List.map_eq_cons_iff.mp rest'
  obtain ⟨rt', after, rfl, live, rfl⟩ := List.map_eq_cons_iff.mp rest'
  obtain ⟨rt'', member, gone⟩ := List.mem_map.mp lost
  have kept := lasting (before.map (Moment.mk 0 · false)) ⟨0, rt, false⟩ ⟨0, rt', false⟩
    (after.map (Moment.mk 0 · false)) (by simp) rfl rfl r live (by simp [dead])
    ⟨0, rt'', false⟩ (List.mem_map_of_mem member)
  rw [gone] at kept
  cases kept

/-- What an at-exit run makes is not kept by the scope it runs in, which is the innermost one all
the while. A send that no method answers leaves the text of its receiver behind. -/
theorem at_exit_list_is_lost :
    ((∀ rt ∈ droppingStates, rt.calls = #[] ∧ rt.scopes = 1) ∧
      ¬ Lasting (droppingStates.map (Moment.mk 0 · false))) ∧
    (Runtime.boot {}).handles = #[] ∧
    failedWith (step (call builtinCode 256) false (Program.send (.int 5) .methodMissing)
      (Runtime.boot {}) ()) = some #[.string ⟨38, 0⟩] := by
  have lives : droppingStates.map (·.heap.isLive ⟨38, 0⟩) =
      [false] ++ false :: true :: [true, true, true, false] := by
    decide +kernel
  refine ⟨⟨by decide +kernel, not_lasting lives (by simp)⟩, by decide +kernel⟩

end Machine
end ObjectRuntime
