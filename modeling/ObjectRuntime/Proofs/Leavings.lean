import ObjectRuntime.Proofs.Depth
import ObjectRuntime.Proofs.Garbage
import ObjectRuntime.Proofs.Sends

/-! What calls and scopes leave on the handles. A call that ends without a panic leaves just its
result, whatever went on inside, and whether or not anything encloses the call. A scope outside of
all calls and scopes leaves nothing. -/

namespace ObjectRuntime

namespace Runtime
variable {rt left : Runtime} {outcome : Outcome Val}

theorem HoldsOn.release (held : HoldsOn rt left) (keep : Option Val) :
    (left.release rt.handles.size keep).handles = rt.handles ++ handleOf keep := by
  obtain ⟨more, same⟩ := held
  rw [handles_release, same]
  simp

theorem HoldsOn.closeCall (held : HoldsOn rt left) (c : Call) (calm : outcome.isPanic = false) :
    (left.closeCall c rt.handles.size outcome).2.handles = rt.handles ++ outcome.kept := by
  have popped : HoldsOn rt left.popCall := held
  unfold Runtime.closeCall
  rw [calm]
  cases outcome with
  | value v => exact popped.release (some v)
  | failure e => exact popped.release none
  | panic message => cases calm

theorem HoldsOn.leaveScope (held : HoldsOn rt left) (calm : outcome.isPanic = false) :
    (left.leaveScope rt.handles.size outcome).handles = rt.handles ++
      if (left.leaveScope rt.handles.size outcome).atTopLevel then #[] else outcome.kept := by
  have left' : HoldsOn rt { left with scopes := left.scopes - 1 } := held
  simp only [Runtime.leaveScope, calm, Bool.false_eq_true, if_false]
  generalize { left with scopes := left.scopes - 1 } = outer at left'
  have outside (keep : Option Val) :
      (outer.release rt.handles.size keep).atTopLevel = outer.atTopLevel := by
    rw [release_eq]
    rfl
  rw [outside, left'.release]
  cases outer.atTopLevel <;> rfl

end Runtime

namespace Machine
variable {η : Type} (code : CodeRef → Code η) {budget : Nat} {unwinding : Bool} {rt rt' : Runtime}
  {host host' : η} {outcome : Outcome Val}

theorem handles_call {c : Call}
    (ended : call code budget unwinding c rt host = .ended outcome rt' host')
    (calm : outcome.isPanic = false) : rt'.handles = rt.handles ++ outcome.kept := by
  cases callEnds_of_ended ended with
  | refused => exact (Runtime.balanced_refuseCall rt c).exactly
  | @ran budget answer left _ _ ran =>
    have retains := step_retains (call_retains code budget) _ ran
    have held : Runtime.HoldsOn rt left :=
      retains.inside (by simp [Runtime.atTopLevel, Runtime.pushCall])
    have quiet : answer.isPanic = false := by cases answer <;> exact calm
    rw [Runtime.kept_closeCall]
    exact held.closeCall c quiet

theorem handles_invoke {c : Call}
    (ended : step (call code budget) unwinding (.call c .done) rt host = .ended outcome rt' host')
    (calm : outcome.isPanic = false) : rt'.handles = rt.handles ++ outcome.kept := by
  obtain ⟨answer, left, host₁, called, rest⟩ := step_call ended
  cases rest
  exact handles_call code called calm

theorem handles_inScope {body : Program η Val}
    (ended : step (call code budget) unwinding (Program.inScope body) rt host =
      .ended outcome rt' host')
    (calm : outcome.isPanic = false) :
    rt'.handles = rt.handles ++ if rt'.atTopLevel then #[] else outcome.kept := by
  obtain ⟨answer, left, host₁, inner, rest⟩ := step_scope ended
  cases rest
  have retains := step_retains (call_retains code budget) _ inner
  have held : Runtime.HoldsOn rt left :=
    retains.inside (by simp [Runtime.atTopLevel, Runtime.enterScope])
  exact held.leaveScope calm

/-! ## Sendings -/

/-- What a sending comes to, in a state that differs in what is remembered only: one call, an answer
without one, or a failure that tells of a value. The flag says that no method answers. -/
inductive Comes (p : Program η Val) (rt left : Runtime) : Bool → Prop
  | call (c : Call) (same : ∀ caller unwinding host,
      step caller unwinding p rt host = step caller unwinding (.call c .done) left host) :
      Comes p rt left false
  | answer (outcome : Outcome Val) (immediate : outcome.kept = #[]) (same : ∀ caller unwinding host,
      step caller unwinding p rt host = .ended outcome left host) : Comes p rt left false
  | failure (v : Val) (tell : String → Program η Val)
      (fails : ∀ text (caller : Caller η) unwinding rt host,
        ∃ e, step caller unwinding (tell text) rt host = .ended (.failure e) rt host)
      (same : ∀ caller unwinding host, step caller unwinding p rt host =
        step caller unwinding (Program.inspectText v >>= tell) left host) : Comes p rt left true

theorem comes_send (receiver : Val) (name : Sym) (args : List Val) (block : Option Val) :
    ∃ left, left.forget = rt.forget ∧ Comes (Program.send receiver name args block : Program η Val) rt left
      (Sending.unknown rt receiver name) := by
  have same := Runtime.findMethod_forget rt (rt.classOf receiver) name none none
  unfold Sending.unknown
  cases found : rt.findMethod (rt.classOf receiver) name none none with
  | mk answer left =>
    rw [found] at same
    cases answer with
    | some m =>
      refine ⟨left, same, .call (.method m receiver args block) fun caller unwinding host => ?_⟩
      rw [Program.send, step_findFor, found]
      rfl
    | none =>
      have same' := Runtime.findMethod_forget left (left.classOf receiver) .methodMissing none none
      cases found' : left.findMethod (left.classOf receiver) .methodMissing none none with
      | mk answer left₁ =>
        rw [found'] at same'
        cases answer with
        | some hook =>
          refine ⟨left₁, same'.trans same, ?_⟩
          simp only [found', Option.isNone_some]
          refine .call (.method hook receiver (.sym name :: args) block) fun caller unwinding host => ?_
          rw [Program.send, step_findFor, found]
          simp only
          rw [step_findFor, found']
          rfl
        | none =>
          refine ⟨left₁, same'.trans same, ?_⟩
          simp only [found', Option.isNone_none]
          exact .failure receiver (fun text => Program.asks (·.symName name) >>= fun name =>
            Program.fail (.noMethodError s!"undefined method `{name}' for {text}"))
            (fun _ _ _ _ _ => ⟨_, rfl⟩) fun caller unwinding host => by
              rw [Program.send, step_findFor, found]
              simp only
              rw [step_findFor, found']

theorem comes_superSend (frame : Nat) (self : Val) (args : List Val) (block : Option Val) :
    ∃ left, left.forget = rt.forget ∧
      Comes (Program.superSend frame self args block : Program η Val) rt left
        ((Sending.super frame self args block).unanswered rt) := by
  simp only [Sending.unanswered]
  cases running : rt.frames.currentMethod frame with
  | none =>
    exact ⟨rt, rfl, .answer _ rfl fun caller unwinding host => by
      rw [Program.superSend, step_asks, running]
      rfl⟩
  | some current =>
    have same := Runtime.findMethod_forget rt (rt.classOf self) current.name (some current) none
    cases found : rt.findMethod (rt.classOf self) current.name (some current) none with
    | mk answer left =>
      rw [found] at same
      cases answer with
      | some next =>
        refine ⟨left, same, ?_⟩
        simp only [found, Option.isNone_some]
        refine .call (.method next self args block) fun caller unwinding host => ?_
        rw [Program.superSend, step_asks, running]
        simp only
        rw [step_asks, step_perform, Action.run, found]
        rfl
      | none =>
        refine ⟨left, same, ?_⟩
        simp only [found, Option.isNone_none]
        exact .failure self (fun text => Program.fail (.noMethodError
          s!"super: no superclass method `{left.symName current.name}' for {text}"))
          (fun _ _ _ _ _ => ⟨_, rfl⟩) fun caller unwinding host => by
            rw [Program.superSend, step_asks, running]
            simp only
            rw [step_asks, step_perform, Action.run, found]
            rfl

theorem comes_callProc (proc : Ref) (args : List Val) (block : Option Val) :
    Comes (Program.callProc proc args block : Program η Val) rt rt false := by
  have invoked (same : ∀ (caller : Caller η) unwinding host,
      step caller unwinding (Program.callProc proc args block) rt host =
        step caller unwinding (Program.invoke (.proc proc args block)) rt host) :
      Comes (Program.callProc proc args block : Program η Val) rt rt false := .call _ same
  cases found : rt.proc? proc with
  | none => exact invoked fun caller unwinding host => by rw [Program.callProc, step_asks, found]
  | some p =>
    obtain ⟨frame, code, arity, lambda⟩ := p
    cases lambda with
    | false => exact invoked fun caller unwinding host => by rw [Program.callProc, step_asks, found]
    | true =>
      -- a lambda checks its arguments before anything is called
      cases misfit : Runtime.arityFailure arity args.length with
      | none =>
        exact invoked fun caller unwinding host => by
          rw [Program.callProc, step_asks, found]
          simp only [misfit]
      | some e =>
        exact .answer (.failure e) rfl fun caller unwinding host => by
          rw [Program.callProc, step_asks, found]
          simp only [misfit]
          rfl

theorem comes_program (s : Sending) (rt : Runtime) :
    ∃ left, left.forget = rt.forget ∧ Comes (s.program : Program η Val) rt left (s.unanswered rt) := by
  cases s with
  | message receiver name args block => exact comes_send receiver name args block
  | super frame self args block => exact comes_superSend frame self args block
  | value callable args block =>
    cases callable with
    | cell kind r =>
      cases kind with
      | proc => exact ⟨rt, rfl, comes_callProc r args block⟩
      | bound =>
        refine ⟨rt, rfl, ?_⟩
        cases found : rt.bound? r with
        | none =>
          exact .answer (.value .nil) rfl fun caller unwinding host => by
            rw [Sending.program, Program.callValue, step_asks, found]
            rfl
        | some bound =>
          exact .call (.method bound.2 bound.1 args block) fun caller unwinding host => by
            rw [Sending.program, Program.callValue, step_asks, found]
            rfl
      | _ => exact comes_send _ .call args block
    | _ => exact comes_send _ .call args block

/-- Telling of a value calls its inspect method at most. -/
theorem handles_inspectText {v : Val} {tell : String → Program η Val}
    (fails : ∀ text (caller : Caller η) unwinding rt host,
      ∃ e, step caller unwinding (tell text) rt host = .ended (.failure e) rt host)
    (ended : step (call code budget) unwinding (Program.inspectText v >>= tell) rt host =
      .ended outcome rt' host')
    (calm : outcome.isPanic = false) :
    (∃ e, outcome = .failure e) ∧
      ∃ taken : Array Val, taken.size ≤ 1 ∧ rt'.handles = rt.handles ++ taken := by
  have told {taken : Array Val} {left : Runtime} {text : String} {host₁ : η} (few : taken.size ≤ 1)
      (handles : left.handles = rt.handles ++ taken)
      (rest : step (call code budget) unwinding (tell text) left host₁ = .ended outcome rt' host') :
      (∃ e, outcome = .failure e) ∧
        ∃ taken : Array Val, taken.size ≤ 1 ∧ rt'.handles = rt.handles ++ taken := by
    obtain ⟨e, failed⟩ := fails text (call code budget) unwinding left host₁
    rw [failed] at rest
    cases rest
    exact ⟨⟨e, rfl⟩, taken, few, handles⟩
  have same := Runtime.findMethod_forget rt (rt.classOf v) .inspect none none
  rw [inspectText_bind, step_findFor] at ended
  generalize rt.findMethod (rt.classOf v) .inspect none none = p at same ended
  obtain ⟨answer, left⟩ := p
  have before : left.handles = rt.handles := congrArg (fun rt => rt.handles) same
  cases answer with
  | none => exact told (by simp : (#[] : Array Val).size ≤ 1) (by simpa using before) ended
  | some m =>
    obtain ⟨answer, left₁, host₁, called, rest⟩ := step_call ended
    have took (quiet : answer.isPanic = false) : left₁.handles = rt.handles ++ answer.kept :=
      (handles_call code called quiet).trans (by rw [before])
    cases answer with
    | value a =>
      have few := size_handleOf (some a)
      cases a with
      | cell kind r => cases kind <;> exact told few (took rfl) rest
      | _ => exact told few (took rfl) rest
    | failure e => exact told (size_handleOf none) (took rfl) rest
    | panic message =>
      cases rest
      cases calm

theorem handles_sending (s : Sending)
    (ended : step (call code budget) unwinding s.program rt host = .ended outcome rt' host')
    (calm : outcome.isPanic = false) :
    if s.unanswered rt then
      (∃ e, outcome = .failure e) ∧
        ∃ taken : Array Val, taken.size ≤ 1 ∧ rt'.handles = rt.handles ++ taken
    else rt'.handles = rt.handles ++ outcome.kept := by
  obtain ⟨left, same, comes⟩ : ∃ left, left.forget = rt.forget ∧
      Comes (s.program : Program η Val) rt left (s.unanswered rt) := comes_program s rt
  have before : left.handles = rt.handles := congrArg (fun rt => rt.handles) same
  generalize s.unanswered rt = unanswered at comes
  cases comes with
  | call c same =>
    rw [same] at ended
    rw [← before]
    exact handles_invoke code ended calm
  | answer answer immediate same =>
    rw [same] at ended
    cases ended
    simp [before, immediate]
  | failure v tell fails same =>
    rw [same] at ended
    rw [← before]
    exact handles_inspectText code fails ended calm

/-! ## Series -/

/-- Programs that run one after the other, none of them to a panic, with their results dropped. -/
inductive Series (caller : Caller η) : List (Program η Val) → Runtime → η → Runtime → η → Prop
  | nil (rt : Runtime) (host : η) : Series caller [] rt host rt host
  | cons {p : Program η Val} {rest : List (Program η Val)} {outcome : Outcome Val}
      {rt left rt' : Runtime} {host host₁ host' : η}
      (ended : step caller false p rt host = .ended outcome left host₁)
      (calm : outcome.isPanic = false) (later : Series caller rest left host₁ rt' host') :
      Series caller (p :: rest) rt host rt' host'

namespace Series

theorem standsOn {ps : List (Program η Val)}
    (series : Series (call code budget) ps rt host rt' host') : rt.StandsOn rt' := by
  induction series with
  | nil rt host => exact .refl rt
  | cons ended calm later ih =>
    exact (step_retains (call_retains code budget) _ ended).toStandsOn.trans ih

theorem wellFormed {ps : List (Program η Val)}
    (series : Series (call code budget) ps rt host rt' host') (wf : rt.heap.WellFormed) :
    rt'.heap.WellFormed := by
  induction series with
  | nil rt host => exact wf
  | cons ended calm later ih =>
    obtain ⟨moves, rfl⟩ := step_moves (call_moves code budget) _ ended
    exact ih (Runtime.wellFormed_after moves wf)

/-- Each send of a series leaves one handle at most. -/
theorem handles_sendings {sendings : List Sending}
    (series : Series (call code budget) (sendings.map Sending.program) rt host rt' host') :
    ∃ taken : Array Val, taken.size ≤ sendings.length ∧ rt'.handles = rt.handles ++ taken := by
  generalize programs : sendings.map Sending.program = ps at series
  induction series generalizing sendings with
  | nil rt host =>
    cases List.map_eq_nil_iff.mp programs
    exact ⟨#[], by simp, by simp⟩
  | @cons p rest outcome rt left rt' host host₁ host' ended calm later ih =>
    obtain ⟨s, sendings, rfl, rfl, rfl⟩ := List.map_eq_cons_iff.mp programs
    obtain ⟨taken, few, same⟩ := ih rfl
    have first : ∃ first : Array Val, first.size ≤ 1 ∧ left.handles = rt.handles ++ first := by
      have left := handles_sending code s ended calm
      split at left
      · exact left.2
      · exact ⟨outcome.kept, size_handleOf _, left⟩
    obtain ⟨first, one, held⟩ := first
    refine ⟨first ++ taken, ?_, by rw [same, held, Array.append_assoc]⟩
    rw [Array.size_append, List.length_cons]
    omega

theorem handles_scopes {bodies : List (Program η Val)}
    (series : Series (call code budget) (bodies.map Program.inScope) rt host rt' host')
    (top : rt'.atTopLevel = true) : rt'.handles = rt.handles := by
  generalize programs : bodies.map Program.inScope = ps at series
  induction series generalizing bodies with
  | nil rt host => rfl
  | cons ended calm later ih =>
    obtain ⟨body, bodies, rfl, rfl, rfl⟩ := List.map_eq_cons_iff.mp programs
    have outside := (later.standsOn code).atTopLevel top
    have left := handles_inScope code ended calm
    rw [if_pos outside, Array.append_empty] at left
    exact (ih top rfl).trans left

end Series

/-- However a call goes, if it does not panic then it leaves its result on the handles, unless that
is immediate, and a call at the top level does so too. What no method answers fails, and leaves one
handle at most. The results of calls thus pile up, one handle for each, but in scopes of their own
they do not: when nothing else refers to them, a collection leaves the population that it would
have left before. -/
theorem leavings_of_calls (budget : Nat) (rt : Runtime) (host : η) (wf : rt.heap.WellFormed) :
    (∀ unwinding (s : Sending) outcome rt' host',
      step (call code budget) unwinding s.program rt host = .ended outcome rt' host' →
      outcome.isPanic = false →
        if s.unanswered rt then
          (∃ e, outcome = .failure e) ∧
            ∃ taken : Array Val, taken.size ≤ 1 ∧ rt'.handles = rt.handles ++ taken
        else rt'.handles = rt.handles ++ outcome.kept) ∧
    (∀ unwinding m receiver args block outcome rt' host',
      step (call code budget) unwinding (Program.callMethod m receiver args block) rt host =
        .ended outcome rt' host' →
      outcome.isPanic = false → rt'.handles = rt.handles ++ outcome.kept) ∧
    (∀ (sendings : List Sending) rt' host',
      Series (call code budget) (sendings.map Sending.program) rt host rt' host' →
        ∃ taken : Array Val, taken.size ≤ sendings.length ∧ rt'.handles = rt.handles ++ taken) ∧
    ∀ (bodies : List (Program η Val)) rt' host',
      Series (call code budget) (bodies.map Program.inScope) rt host rt' host' →
      rt'.atTopLevel = true →
        rt'.handles = rt.handles ∧
          ((∀ r, Runtime.Survives { rt' with handles := rt.handles } r ↔ rt.Survives r) →
            rt'.collect.heap.live = rt.collect.heap.live) := by
  refine ⟨fun unwinding s outcome rt' host' ended calm => handles_sending code s ended calm,
    fun unwinding m receiver args block outcome rt' host' ended calm =>
      handles_invoke code ended calm,
    fun sendings rt' host' series => series.handles_sendings code,
    fun bodies rt' host' series top => ?_⟩
  have handles := series.handles_scopes code top
  refine ⟨handles, fun same => ?_⟩
  rw [← handles] at same
  exact Runtime.population_congr wf (series.wellFormed code wf) same

def answered : Run Unit Val → Option (Val × Runtime)
  | .ended (.value v) rt _ => some (v, rt)
  | _ => none

theorem ended_of_answered {run : Run Unit Val} {v : Val} {rt : Runtime}
    (ended : answered run = some (v, rt)) : run = .ended (.value v) rt () := by
  unfold answered at ended
  split at ended
  · cases ended
    rfl
  · cases ended

def makingObject : Sending := .message (.module CoreClass.object.ref) .new [] none

/-- A scope that made an array, outside of everything, left. -/
def madeArray (rt : Runtime) : Runtime :=
  match rt.enterScope.alloc (.array CoreClass.array.ref #[]) with
  | (r, left) => left.leaveScope rt.handles.size (.value (.array r))

theorem survives_madeArray {rt : Runtime} (sound : rt.Sound) (room : rt.heap.full = false) (r : Ref) :
    Runtime.Survives { madeArray rt with handles := rt.handles } r ↔ rt.Survives r := by
  have still : rt.enterScope.room = rt.enterScope := by
    simp [Runtime.room, Runtime.enterScope, room]
  have same : { madeArray rt with handles := rt.handles } =
      { (rt.place (.array CoreClass.array.ref #[])).2 with handles := rt.handles } := by
    rw [madeArray, Runtime.alloc_eq, still]
    simp only [Runtime.leaveScope, Outcome.isPanic, Bool.false_eq_true, if_false]
    rw [Runtime.release_eq]
    rfl
  rw [same]
  exact Runtime.survives_unheld sound _ r

/-- An object that is made at the top level stays on the handles; an array made in a scope of its own
does not. -/
theorem making_leaves :
    (∃ v rt', step (call builtinCode 256) false makingObject.program (Runtime.boot {}) () =
      .ended (.value v) rt' () ∧ rt'.handles = (Runtime.boot {}).handles ++ #[v]) ∧
    ∃ rt', Series (call builtinCode 256) [Program.inScope making] (Runtime.boot {}) () rt' () ∧
      rt'.atTopLevel = true ∧ rt'.handles = (Runtime.boot {}).handles ∧
        rt'.collect.heap.live = (Runtime.boot {}).collect.heap.live := by
  have sound := (Runtime.intact_boot {}).sound
  obtain ⟨sent, -, -, enclosed⟩ := leavings_of_calls builtinCode 256 (Runtime.boot {}) () sound.heap
  constructor
  · have answers : (answered (step (call builtinCode 256) false makingObject.program
        (Runtime.boot {}) ())).map Prod.fst = some (.object ⟨38, 0⟩) := by decide +kernel
    have known : makingObject.unanswered (Runtime.boot {}) = false := by decide +kernel
    generalize Runtime.boot {} = rt at sent answers known ⊢
    obtain ⟨⟨v, rt'⟩, ended, same⟩ := Option.map_eq_some_iff.mp answers
    cases same
    have left := sent false makingObject _ _ _ (ended_of_answered ended) rfl
    rw [known] at left
    exact ⟨_, rt', ended_of_answered ended, left⟩
  · have room : (Runtime.boot {}).heap.full = false := by decide +kernel
    have outside : (madeArray (Runtime.boot {})).atTopLevel = true := by decide +kernel
    generalize Runtime.boot {} = rt at sound enclosed room outside ⊢
    have series : Series (call builtinCode 256) ([making].map Program.inScope) rt ()
        (madeArray rt) () := .cons (step_making rt) rfl (.nil _ _)
    obtain ⟨handles, population⟩ := enclosed _ _ _ series outside
    exact ⟨_, series, outside, handles, population (survives_madeArray sound room)⟩

/-- What a call at the top level answers is on the handles after it, although nothing encloses the
call, and so it is kept until the handles are released. -/
theorem discarded_result_is_kept :
    ((Runtime.boot {}).atTopLevel = true ∧ (Runtime.boot {}).handles = #[]) ∧
    (answered (step (call builtinCode 256) false makingObject.program (Runtime.boot {}) ())).map
      (fun (v, rt) => (v, rt.handles, rt.heap.isLive ⟨38, 0⟩, rt.releaseTopLevel.1)) =
        some (.object ⟨38, 0⟩, #[.object ⟨38, 0⟩], true, 1) := by
  decide +kernel

end Machine
end ObjectRuntime
