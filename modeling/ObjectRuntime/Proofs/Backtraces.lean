import ObjectRuntime.Dispatch
import ObjectRuntime.Proofs.Abandoning
import ObjectRuntime.Proofs.Positions
import ObjectRuntime.Proofs.Supers

/-! Backtraces. A failure that leaves a call gains the label of that call, and nothing else of it
changes. What it has gained when it comes out of nested calls are their labels, innermost first, and
its report prints them from the outermost to the innermost. -/

namespace ObjectRuntime

/-! ## Reports -/

namespace Failure

theorem traceLines_eq (i : Nat) (labels : List String) : traceLines i labels =
    ((labels.zipIdx i).reverse.map fun (label, i) => s!"        {i}: from {label}\n") := by
  induction labels generalizing i with
  | nil => rfl
  | cons label rest ih => rw [traceLines, ih, List.zipIdx_cons, List.reverse_cons, List.map_append]; rfl

/-- The failure with the labels of further calls that it left. -/
def leaving (e : Failure) (labels : List String) : Failure :=
  { e with backtrace := e.backtrace ++ labels }

theorem leave_leaving (e : Failure) (labels : List String) (label : String) :
    (e.leaving labels).leave label = e.leaving (labels ++ [label]) := by
  simp [leaving, leave]

/-- What is printed of the labels behind the innermost one: each on a line with its distance from
there, the outermost first. -/
def outerLines (outer : List String) : List String :=
  (outer.zipIdx 1).reverse.map fun (label, i) => s!"        {i}: from {label}\n"

theorem report_eq (e : Failure) : e.report =
    match e.backtrace with
    | [] => e.display ++ "\n"
    | innermost :: outer =>
      "Traceback (most recent call last):\n" ++ String.join (outerLines outer) ++ innermost ++
        ": " ++ e.display ++ "\n" := by
  unfold report
  cases e.backtrace with
  | nil => rfl
  | cons innermost outer => simp only [traceLines_eq, outerLines]

end Failure

/-! ## Labels -/

/-- What a call is listed as: a method under the name that it was defined with, behind the module
whose singleton class owns it, or else behind its owner. -/
inductive IsLabel (rt : Runtime) : Call → String → Prop
  | singleton {m : Method} {owner : Module} {r : Ref} (receiver : Val) (args : List Val)
      (block : Option Val) (found : rt.module? m.owner = some owner)
      (kind : owner.kind = .singleton) (attached : owner.attached = some (.module r)) :
      IsLabel rt (.method m receiver args block)
        s!"in `{rt.moduleName r}.{rt.symName m.name}'"
  | method {m : Method} (receiver : Val) (args : List Val) (block : Option Val)
      (other : ∀ owner r, rt.module? m.owner = some owner → owner.kind = .singleton →
        owner.attached ≠ some (.module r)) :
      IsLabel rt (.method m receiver args block)
        s!"in `{rt.moduleName m.owner}#{rt.symName m.name}'"
  | proc (p : Ref) (args : List Val) (block : Option Val) :
      IsLabel rt (.proc p args block) "in `block'"

theorem isLabel_callLabel (rt : Runtime) (c : Call) : IsLabel rt c (rt.callLabel c) := by
  cases c with
  | proc p args block => exact .proc p args block
  | method m receiver args block =>
    simp only [Runtime.callLabel, Runtime.methodLabel]
    split
    next found => exact .singleton receiver args block found rfl rfl
    next other =>
      refine .method receiver args block fun owner r found kind attached => ?_
      obtain ⟨_, _, _, _, _, _, _, _, _, _, _, _⟩ := owner
      cases kind
      cases attached
      exact other _ _ _ _ _ _ _ _ _ _ _ found

/-- A call has one label. -/
theorem isLabel_iff {rt : Runtime} {c : Call} {label : String} :
    IsLabel rt c label ↔ rt.callLabel c = label := by
  constructor
  · intro labelled
    cases labelled with
    | @singleton m owner r receiver args block found kind attached =>
      obtain ⟨_, _, _, _, _, _, _, _, _, _, _, _⟩ := owner
      cases kind
      cases attached
      simp only [Runtime.callLabel, Runtime.methodLabel, found]
    | @method m receiver args block other =>
      simp only [Runtime.callLabel, Runtime.methodLabel]
      split
      next found => exact absurd rfl (other _ _ found rfl)
      next => rfl
    | proc => rfl
  · rintro rfl
    exact isLabel_callLabel rt c

theorem IsLabel.congr {rt rt' : Runtime} {c : Call} {label : String} (labelled : IsLabel rt c label)
    (heap : rt'.heap = rt.heap) (symbols : rt'.symbols = rt.symbols) : IsLabel rt' c label := by
  rw [isLabel_iff] at labelled ⊢
  rw [← labelled]
  cases c with
  | proc => rfl
  | method m =>
    simp only [Runtime.callLabel, Runtime.methodLabel, Runtime.moduleName, Runtime.module?,
      Runtime.symName, heap, symbols]

/-! ## Aliases and lambdas -/

namespace Runtime
variable {rt : Runtime} {m : Ref} {name : Sym} {method : Method}

/-- A lookup in a module starts with its own table. -/
theorem findMethod_own (intact : rt.Intact) (entry : rt.method? m name = some method) :
    (rt.findMethod m name none none).1 = some method := by
  obtain ⟨mod, found, -⟩ := Option.bind_eq_some_iff.mp entry
  obtain ⟨⟨above, linear, answer⟩, -⟩ :=
    findMethod_spec intact.sound intact.faithful (holds_of_module found) name none none
  obtain ⟨rest, rfl⟩ := linear.head
  rw [answer, plainSearch, firstEntry, entry]
  rfl

/-- An alias finds the method that it was made for. -/
theorem findMethod_alias (intact : rt.Intact) {newName oldName : Sym}
    (live : rt.heap.Holds (.module m)) (made : (rt.aliasMethod m newName oldName).1 = .ok ()) :
    ∃ method, (rt.findMethod m oldName none none).1 = some method ∧
      ((rt.aliasMethod m newName oldName).2.findMethod m newName none none).1 = some method := by
  have intact' := intact.aliasMethod newName oldName live
  obtain ⟨-, same, -⟩ := findMethod_spec intact.sound intact.faithful live oldName none none
  unfold aliasMethod at made intact' ⊢
  generalize rt.findMethod m oldName none none = looked at made intact' same ⊢
  obtain ⟨found, rt'⟩ := looked
  cases found with
  | none => cases made
  | some method =>
    obtain ⟨mod, here⟩ := module_of_holds ((holds_of_forget same _).mpr live)
    refine ⟨method, rfl, findMethod_own intact' ?_⟩
    change ((rt'.modifyModule m _).module? m).bind _ = _
    rw [module?_modifyModule, if_pos rfl, here]
    exact Table.get?_insert_self ..

end Runtime

/-! ## Nested calls -/

/-- Where a call is made. -/
structure Site (η : Type) where
  unwinding : Bool
  call : Call
  rt : Runtime
  host : η

namespace Machine
variable {η α : Type}

/-- A program makes the call, which fails, and hands the failure on: it ends with that failure,
whatever it does after the call. Where the call is made in the body of an ensure, the cleanup does
not panic. -/
inductive HandsOn (caller : Caller η) (e : Failure) (site : Site η) :
    {α : Type} → Bool → Program η α → Runtime → η → Runtime → η → Prop
  | call {α : Type} {next : Outcome Val → Program η α} {mid left : Runtime} {host₁ host' : η}
      (failed : caller site.unwinding site.call site.rt site.host = .ended (.failure e) mid host₁)
      (on : step caller site.unwinding (next (.failure e)) mid host₁ = .ended (.failure e) left host') :
      HandsOn caller e site site.unwinding (.call site.call next) site.rt site.host left host'
  | goes {α : Type} {unwinding : Bool} {p q : Program η α} {rt mid left : Runtime} {host host₁ host' : η}
      (goes : Goes caller unwinding p rt host q mid host₁)
      (hands : HandsOn caller e site unwinding q mid host₁ left host') :
      HandsOn caller e site unwinding p rt host left host'
  | scope {α : Type} {unwinding : Bool} {body : Program η Val} {next : Outcome Val → Program η α}
      {rt mid left : Runtime} {host host₁ host' : η}
      (hands : HandsOn caller e site unwinding body rt.enterScope host mid host₁)
      (on : step caller unwinding (next (.failure e))
        (mid.leaveScope rt.handles.size (.failure e)) host₁ = .ended (.failure e) left host') :
      HandsOn caller e site unwinding (.scope body next) rt host left host'
  | holding {α : Type} {unwinding : Bool} {v : Val} {body : Program η Unit}
      {next : Outcome Unit → Program η α} {rt mid left : Runtime} {host host₁ host' : η}
      (hands : HandsOn caller e site unwinding body (rt.hold v) host mid host₁)
      (on : step caller unwinding (next (.failure e))
        (mid.letGo rt.handles.size (.failure e)) host₁ = .ended (.failure e) left host') :
      HandsOn caller e site unwinding (.holding v body next) rt host left host'
  | ensure {α : Type} {unwinding : Bool} {body : Program η Val} {cleanup : Program η Unit}
      {next : Outcome Val → Program η α} {rt mid mid' left : Runtime} {host host₁ host₂ host' : η}
      {done : Outcome Unit}
      (hands : HandsOn caller e site unwinding body rt host mid host₁)
      (cleaned : step caller unwinding cleanup (cleanupState unwinding rt mid) host₁ =
        .ended done mid' host₂) (calm : done.isPanic = false)
      (on : step caller unwinding (next (.failure e)) mid' host₂ = .ended (.failure e) left host') :
      HandsOn caller e site unwinding (.ensure body cleanup next) rt host left host'

namespace HandsOn
variable {caller : Caller η} {e : Failure} {site : Site η} {unwinding : Bool} {p : Program η α}
  {rt left : Runtime} {host host' : η}

theorem step_eq (hands : HandsOn caller e site unwinding p rt host left host') :
    step caller unwinding p rt host = .ended (.failure e) left host' := by
  induction hands with
  | call failed on => simp only [step, failed, on]
  | goes goes _ ih => exact goes.step_eq.trans ih
  | scope _ on ih => simp only [step, ih, on]
  | holding _ on ih => simp only [step, ih, on]
  | @ensure _ unwinding _ _ _ _ _ _ _ _ _ _ _ done _ cleaned calm on ih =>
    unfold cleanupState at cleaned
    simp only [step, ih, Outcome.isPanic, Bool.or_false, cleaned]
    cases done with
    | panic message => cases calm
    | _ => exact on

theorem failed (hands : HandsOn caller e site unwinding p rt host left host') :
    ∃ mid host₁, caller site.unwinding site.call site.rt site.host = .ended (.failure e) mid host₁ := by
  induction hands with
  | call failed => exact ⟨_, _, failed⟩
  | goes _ _ ih | scope _ _ ih | holding _ _ ih | ensure _ _ _ _ ih => exact ih

end HandsOn

/-- A failure unwinds a call, and in it the calls that are nested on its way; their labels are listed
innermost first. The innermost one is refused at the recursion limit, or with its number of arguments,
or the failure leaves its body. -/
inductive Unwinds (code : CodeRef → Code η) (raised : Failure) :
    Nat → Bool → Call → Runtime → η → List String → Prop
  | refused {budget : Nat} {unwinding : Bool} {c : Call} {rt : Runtime} {host : η} {label : String}
      (full : (rt.openFrame c).2.atLimit = true)
      (deep : raised = { kind := .systemStackError, message := "stack level too deep" })
      (labelled : IsLabel rt c label) : Unwinds code raised budget unwinding c rt host [label]
  | misfit {budget : Nat} {unwinding : Bool} {c : Call} {rt : Runtime} {host : η} {label : String}
      (room : (rt.openFrame c).2.atLimit = false) (misfit : Runtime.callFailure c = some raised)
      (labelled : IsLabel rt c label) : Unwinds code raised (budget + 1) unwinding c rt host [label]
  | raised {budget : Nat} {unwinding : Bool} {c : Call} {rt left : Runtime} {host host' : η}
      {label : String} (room : (rt.openFrame c).2.atLimit = false)
      (ran : step (call code budget) unwinding (body code (rt.openFrame c).2 (rt.openFrame c).1 c)
        ((rt.openFrame c).2.pushCall (rt.openFrame c).1) host = .ended (.failure raised) left host')
      (labelled : IsLabel left c label) : Unwinds code raised (budget + 1) unwinding c rt host [label]
  | through {budget : Nat} {unwinding : Bool} {c : Call} {rt left : Runtime} {host host' : η}
      {label : String} {labels : List String} {site : Site η} {e : Failure}
      (room : (rt.openFrame c).2.atLimit = false)
      (inner : Unwinds code raised budget site.unwinding site.call site.rt site.host labels)
      (hands : HandsOn (call code budget) e site unwinding
        (body code (rt.openFrame c).2 (rt.openFrame c).1 c)
        ((rt.openFrame c).2.pushCall (rt.openFrame c).1) host left host')
      (labelled : IsLabel left c label) :
      Unwinds code raised (budget + 1) unwinding c rt host (labels ++ [label])

section
variable {code : CodeRef → Code η} {budget : Nat} {unwinding : Bool} {c : Call} {rt left : Runtime}
  {host host' : η} {raised e : Failure} {label : String} {labels : List String}

theorem call_refused (full : (rt.openFrame c).2.atLimit = true) (labelled : IsLabel rt c label) :
    call code budget unwinding c rt host =
      .ended (.failure (Failure.leave { kind := .systemStackError, message := "stack level too deep" }
        label)) ((rt.openFrame c).2.refuseCall c rt.handles.size).2 host := by
  obtain rfl := isLabel_iff.mp labelled
  exact call_full full

/-- A failure gains the label of the call that it leaves. -/
theorem call_failed (room : (rt.openFrame c).2.atLimit = false)
    (ran : step (call code budget) unwinding (body code (rt.openFrame c).2 (rt.openFrame c).1 c)
      ((rt.openFrame c).2.pushCall (rt.openFrame c).1) host = .ended (.failure e) left host')
    (labelled : IsLabel left c label) :
    call code (budget + 1) unwinding c rt host =
      .ended (.failure (e.leave label)) (left.closeCall c rt.handles.size (.failure e)).2 host' := by
  obtain rfl := isLabel_iff.mp labelled
  exact call_ended room ran

/-- What comes out of the outermost call has gained the labels of all of them. -/
theorem Unwinds.call_eq (unwinds : Unwinds code raised budget unwinding c rt host labels) :
    ∃ left host', call code budget unwinding c rt host =
      .ended (.failure (raised.leaving labels)) left host' := by
  induction unwinds with
  | refused full deep labelled =>
    exact ⟨_, _, (call_refused full labelled).trans (by rw [deep]; rfl)⟩
  | @misfit budget unwinding c rt host label room misfit labelled =>
    let start := (rt.openFrame c).2.pushCall (rt.openFrame c).1
    have ran : step (call code budget) unwinding (body code (rt.openFrame c).2 (rt.openFrame c).1 c)
        start host = .ended (.failure raised) start host := by
      rw [body, misfit]
      rfl
    exact ⟨_, host, call_failed room ran (labelled.congr rfl rfl)⟩
  | raised room ran labelled => exact ⟨_, _, call_failed room ran labelled⟩
  | through room _ hands labelled ih =>
    obtain ⟨mid, host₁, failed⟩ := hands.failed
    obtain ⟨mid', host₂, failed'⟩ := ih
    obtain ⟨same, -⟩ := Run.ended.inj (failed.symm.trans failed')
    obtain rfl := Outcome.failure.inj same
    have ended := call_failed room hands.step_eq labelled
    rw [Failure.leave_leaving] at ended
    exact ⟨_, _, ended⟩

/-- No call fails otherwise. -/
theorem unwinds_of_failed (failed : call code budget unwinding c rt host =
      .ended (.failure e) left host') :
    ∃ raised label, Unwinds code raised budget unwinding c rt host [label] ∧
      e = raised.leaving [label] := by
  generalize answered : Outcome.failure e = answer at failed
  cases callEnds_of_ended failed with
  | refused full =>
    obtain rfl := Outcome.failure.inj answered
    exact ⟨_, _, .refused full rfl (isLabel_callLabel rt c), rfl⟩
  | @ran _ outcome mid _ room ran =>
    cases outcome with
    | failure raised =>
      obtain rfl := Outcome.failure.inj answered
      exact ⟨raised, _, .raised room ran (isLabel_callLabel mid c), rfl⟩
    | _ => cases answered

/-- A lambda that is given the wrong number of arguments is not called. -/
theorem step_misfit_lambda {caller : Caller η} {p : Ref} {proc : Proc} {args : List Val}
    (found : rt.proc? p = some proc) (lambda : proc.lambda = true)
    (misfit : Runtime.arityFailure proc.arity args.length = some e) (block : Option Val) :
    step caller unwinding (Program.callProc p args block) rt host = .ended (.failure e) rt host ∧
      e.backtrace = [] := by
  obtain ⟨frame, code, arity, _⟩ := proc
  obtain rfl : _ = true := lambda
  refine ⟨?_, ?_⟩
  · rw [Program.callProc, step_asks, found]
    simp only [misfit]
    rfl
  · simp only [Runtime.arityFailure] at misfit
    split at misfit <;> split at misfit <;> cases misfit <;> rfl

end

/-- When a failure comes out of nested calls, it is the one that was raised with the label of each
call behind its labels, innermost first. As many calls are running as when the outermost one began,
and those that were abandoned in it and left on the stack. No call fails otherwise. A lambda that is
given the wrong number of arguments is not listed; what is called through an alias is the method that
it was made for. The report prints the labels outermost first, the innermost one with the message. -/
theorem backtrace_lists_calls (code : CodeRef → Code η) :
    (∀ raised budget unwinding c rt host labels,
      Unwinds code raised budget unwinding c rt host labels →
      ∃ left host', call code budget unwinding c rt host =
          .ended (.failure (raised.leaving labels)) left host' ∧
        left.calls.size = rt.calls.size + callAbandoned code budget unwinding c rt host) ∧
    (∀ budget unwinding c rt host e left host',
      call code budget unwinding c rt host = .ended (.failure e) left host' →
      ∃ raised label, Unwinds code raised budget unwinding c rt host [label] ∧
        e = raised.leaving [label]) ∧
    (∀ (caller : Caller η) unwinding p proc args block rt host e, rt.proc? p = some proc →
      proc.lambda = true → Runtime.arityFailure proc.arity args.length = some e →
      step caller unwinding (Program.callProc p args block) rt host = .ended (.failure e) rt host ∧
        e.backtrace = []) ∧
    (∀ (rt : Runtime) m newName oldName, rt.Intact → rt.heap.Holds (.module m) →
      (rt.aliasMethod m newName oldName).1 = .ok () →
      ∃ method, (rt.findMethod m oldName none none).1 = some method ∧
        ((rt.aliasMethod m newName oldName).2.findMethod m newName none none).1 = some method) ∧
    ∀ e : Failure, e.report =
      match e.backtrace with
      | [] => e.display ++ "\n"
      | innermost :: outer =>
        "Traceback (most recent call last):\n" ++ String.join (Failure.outerLines outer) ++
          innermost ++ ": " ++ e.display ++ "\n" := by
  refine ⟨?_, fun _ _ _ _ _ _ _ _ => unwinds_of_failed, ?_, ?_, Failure.report_eq⟩
  · intro raised budget unwinding c rt host labels unwinds
    obtain ⟨left, host', ended⟩ := unwinds.call_eq
    exact ⟨left, host', ended, call_deepens code budget unwinding c rt host _ left host' ended⟩
  · intro caller unwinding p proc args block rt host e found lambda misfit
    exact step_misfit_lambda found lambda misfit block
  · intro rt m newName oldName intact live made
    exact Runtime.findMethod_alias intact live made

def failing : Method :=
  { id := 28, name := .call, owner := CoreClass.object.ref, body := .native (.user 0), arity := 0 }

def relaying : Method :=
  { id := 29, name := .inspect, owner := CoreClass.object.ref, body := .native (.user 1), arity := 0 }

/-- One method fails, and the other calls it in an ensure. -/
def relays : CodeRef → Code Unit
  | .user 0, _ => .fail (.typeError "oops")
  | _, _ => .withCleanup (.invoke (.method failing .nil [] none)) (.done (.value ()))

/-- Where the body of the other one starts. -/
def relaying.start (rt : Runtime) : Runtime :=
  let opened := rt.openFrame (.method relaying .nil [] none)
  opened.2.pushCall opened.1

/-- Where the method that fails is called. -/
def relaying.site (rt : Runtime) : Site Unit :=
  ⟨false, .method failing .nil [] none, relaying.start rt, ()⟩

theorem unwinds_relaying (rt : Runtime)
    (room : (rt.openFrame (.method relaying .nil [] none)).2.atLimit = false)
    (room' : ((relaying.site rt).rt.openFrame (relaying.site rt).call).2.atLimit = false)
    (listed : IsLabel rt (.method failing .nil [] none) "in `Object#call'")
    (listed' : IsLabel rt (.method relaying .nil [] none) "in `Object#inspect'") :
    Unwinds relays (.typeError "oops") 2 false (.method relaying .nil [] none) rt ()
      ["in `Object#call'", "in `Object#inspect'"] := by
  have inner : Unwinds relays (.typeError "oops") 1 (relaying.site rt).unwinding
      (relaying.site rt).call (relaying.site rt).rt (relaying.site rt).host ["in `Object#call'"] :=
    .raised room' rfl (listed.congr rfl rfl)
  have failed : call relays 1 false (relaying.site rt).call (relaying.site rt).rt () =
      .ended (.failure (Failure.leave (.typeError "oops") "in `Object#call'")) _ () :=
    call_failed room' rfl (listed.congr rfl rfl)
  have hands : HandsOn (call relays 1) _ (relaying.site rt) false
      (.withCleanup (.invoke (.method failing .nil [] none)) (.done (.value ())))
      (relaying.start rt) () _ () :=
    .ensure (.call failed rfl) rfl rfl rfl
  exact .through room inner hands (listed'.congr rfl rfl)

/-- The failure that a run ends with, and how many calls are running then. -/
def failedAt : Run Unit Val → Option (Failure × Nat)
  | .ended (.failure e) rt _ => some (e, rt.calls.size)
  | _ => none

theorem relayed_failure_is_listed :
    ∃ left, call relays 2 false (.method relaying .nil [] none) (Runtime.boot {}) () =
        .ended (.failure { Failure.typeError "oops" with
          backtrace := ["in `Object#call'", "in `Object#inspect'"] }) left () ∧
      left.calls.size = (Runtime.boot {}).calls.size ∧
      callAbandoned relays 2 false (.method relaying .nil [] none) (Runtime.boot {}) () = 0 := by
  have unwinds := unwinds_relaying (Runtime.boot {}) (by decide +kernel) (by decide +kernel)
    (isLabel_iff.mpr (by decide +kernel)) (isLabel_iff.mpr (by decide +kernel))
  have facts : (failedAt (call relays 2 false (.method relaying .nil [] none) (Runtime.boot {}) ())).map
      (·.2) = some (Runtime.boot {}).calls.size := by decide +kernel
  obtain ⟨left, host', ended, deep⟩ := (backtrace_lists_calls relays).1 _ _ _ _ _ _ _ unwinds
  rw [ended] at facts
  have same : left.calls.size = (Runtime.boot {}).calls.size := Option.some.inj facts
  exact ⟨left, ended, same, Nat.add_eq_left.mp (deep.symm.trans same)⟩

/-- One method panics, and the other calls it, catches the panic and fails. -/
def shrugs : CodeRef → Code Unit
  | .user 0, _ => .panic "boom"
  | _, _ => do
    let _ ← (Program.invoke (.method failing .nil [] none)).attempt
    Program.fail (.typeError "oops")

/-- A panic that is caught in a call, with no ensure on its way, leaves the call that it abandoned on
the stack. -/
theorem caught_panic_stays_deep :
    ∃ raised label left, Unwinds shrugs raised 2 false (.method relaying .nil [] none)
        (Runtime.boot {}) () [label] ∧
      call shrugs 2 false (.method relaying .nil [] none) (Runtime.boot {}) () =
        .ended (.failure (raised.leaving [label])) left () ∧
      raised.leaving [label] = { Failure.typeError "oops" with backtrace := ["in `Object#inspect'"] } ∧
      left.calls.size = (Runtime.boot {}).calls.size + 1 ∧
      callAbandoned shrugs 2 false (.method relaying .nil [] none) (Runtime.boot {}) () = 1 := by
  have facts : failedAt (call shrugs 2 false (.method relaying .nil [] none) (Runtime.boot {}) ()) =
      some ({ Failure.typeError "oops" with backtrace := ["in `Object#inspect'"] },
        (Runtime.boot {}).calls.size + 1) := by decide +kernel
  unfold failedAt at facts
  split at facts
  next e left host' ended =>
    obtain ⟨raised, label, unwinds, rfl⟩ := unwinds_of_failed ended
    obtain ⟨same, deeper⟩ := Prod.mk.inj (Option.some.inj facts)
    have deepens := call_deepens shrugs 2 false _ _ () _ left host' ended
    exact ⟨raised, label, left, unwinds, ended, same, deeper,
      Nat.add_left_cancel (deepens.symm.trans deeper)⟩
  next => cases facts

end Machine
end ObjectRuntime
