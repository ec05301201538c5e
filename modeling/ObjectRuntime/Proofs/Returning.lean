import ObjectRuntime.Proofs.Sends

/-! Programs that return. Every way through such a program is finite, and where it is to be calm it
panics only where something that it calls does. Sends, conversions, the end of a program and the
builtin methods return, whatever the bodies are that they call. -/

namespace ObjectRuntime

/-- The answers that an action gives. The search for a constant may go round and never answer. -/
def Action.Returns {α : Type} : Action α → α → Prop
  | .findConst _ _, answer => answer.isSome
  | _, _ => True

def Outcome.Allowed {α : Type} (calm : Prop) (outcome : Outcome α) : Prop :=
  calm → outcome.isPanic = false

variable {η α β : Type} {calm : Prop}

/-- The program ends after finitely many steps, whatever the runtime is that it reads and whatever
its actions and calls answer. A calm one that no call answers with a panic does not panic. -/
def Program.Returns (calm : Prop) {α : Type} : Program η α → Prop
  | .done outcome => outcome.Allowed calm
  | .endless => False
  | .read next => ∀ rt, (next rt).Returns calm
  | .act action next => ∀ answer, action.Returns answer → (next answer).Returns calm
  | .host _ next => ∀ answer, (next answer).Returns calm
  | .call _ next => ∀ outcome, outcome.Allowed calm → (next outcome).Returns calm
  | .scope body next =>
    body.Returns calm ∧ ∀ outcome, outcome.Allowed calm → (next outcome).Returns calm
  | .ensure body cleanup next =>
    body.Returns calm ∧ cleanup.Returns calm ∧
      ∀ outcome, outcome.Allowed calm → (next outcome).Returns calm
  | .holding _ body next =>
    body.Returns calm ∧ ∀ outcome, outcome.Allowed calm → (next outcome).Returns calm

namespace Program.Returns
variable {p : Program η α}

/-! ## Ways to put programs together -/

theorem value (a : α) : (done (.value a) : Program η α).Returns calm := fun _ => rfl

theorem fail (e : Failure) : (fail e : Program η α).Returns calm := fun _ => rfl

/-- What follows an attempt is told of panics only where those are allowed. -/
theorem attempt {f : Outcome α → Program η β} (returns : p.Returns calm)
    (next : ∀ outcome, outcome.Allowed calm → (f outcome).Returns calm) :
    (p.attempt >>= f).Returns calm := by
  change (p.attempt.bind f).Returns calm
  induction p with
  | done outcome => exact next outcome returns
  | endless => exact returns
  | read rest ih => exact fun rt => ih rt (returns rt) next
  | act action rest ih => exact fun answer answers => ih answer (returns answer answers) next
  | host step rest ih => exact fun answer => ih answer (returns answer) next
  | call c rest ih => exact fun outcome allowed => ih outcome (returns outcome allowed) next
  | scope body rest _ ih =>
    exact ⟨returns.1, fun outcome allowed => ih outcome (returns.2 outcome allowed) next⟩
  | holding v body rest _ ih =>
    exact ⟨returns.1, fun outcome allowed => ih outcome (returns.2 outcome allowed) next⟩
  | ensure body cleanup rest _ _ ih =>
    exact ⟨returns.1, returns.2.1,
      fun outcome allowed => ih outcome (returns.2.2 outcome allowed) next⟩

theorem bind {f : α → Program η β} (returns : p.Returns calm) (next : ∀ a, (f a).Returns calm) :
    (p >>= f).Returns calm := by
  change (p.bind f).Returns calm
  rw [bind_eq_attempt]
  refine returns.attempt fun outcome allowed => ?_
  cases outcome with
  | value a => exact next a
  | failure e => exact fail e
  | panic message => exact allowed

theorem rescue {handler : Failure → Program η α} (returns : p.Returns calm)
    (handled : ∀ e, (handler e).Returns calm) : (p.rescue handler).Returns calm :=
  returns.attempt fun outcome allowed => by
    cases outcome with
    | failure e => exact handled e
    | _ => exact allowed

theorem ignoringFailure (returns : p.Returns calm) : p.ignoringFailure.Returns calm :=
  returns.attempt fun outcome allowed => by
    cases outcome with
    | panic message => exact allowed
    | _ => exact value ()

theorem asks (f : Runtime → α) : (asks f : Program η α).Returns calm := fun rt => value (f rt)

theorem perform (action : Action α) : (perform action : Program η α).Returns calm :=
  fun answer _ => value answer

theorem ofExcept (answer : Except Failure α) : (ofExcept answer : Program η α).Returns calm := by
  cases answer with
  | ok a => exact value a
  | error e => exact fail e

theorem demand (action : Action (Except Failure α)) : (demand action : Program η α).Returns calm :=
  fun answer _ => ofExcept answer

theorem check (f : Runtime → Except Failure α) : (check f : Program η α).Returns calm :=
  fun rt => ofExcept (f rt)

theorem invoke (c : Call) : (invoke c : Program η Val).Returns calm := fun _ => id

theorem inScope {body : Program η Val} (returns : body.Returns calm) :
    (inScope body).Returns calm := ⟨returns, fun _ => id⟩

theorem withCleanup {body : Program η Val} {cleanup : Program η Unit} (returns : body.Returns calm)
    (cleans : cleanup.Returns calm) : (withCleanup body cleanup).Returns calm :=
  ⟨returns, cleans, fun _ => id⟩

theorem mapM {f : α → Program η β} (returns : ∀ a, (f a).Returns calm) (as : List α) :
    (as.mapM f).Returns calm := by
  have onto (bs : List β) : (List.mapM.loop f as bs).Returns calm := by
    induction as generalizing bs with
    | nil => exact value bs.reverse
    | cons a as ih => exact (returns a).bind fun b => ih (b :: bs)
  exact onto []

end Program.Returns

namespace Program

/-! ## Sends -/

theorem returns_findFor (v : Val) (name : Sym) : (findFor v name : Program η _).Returns calm :=
  fun _ m _ => .value m

theorem returns_respondsTo (v : Val) (name : Sym) :
    (respondsTo v name : Program η _).Returns calm :=
  (returns_findFor v name).bind fun m => .value m.isSome

theorem returns_inspectText (v : Val) : (inspectText v : Program η _).Returns calm := by
  refine (returns_findFor v .inspect).bind fun answer => ?_
  cases answer with
  | none => exact .asks _
  | some m =>
    have asked : (callMethod m v [] none >>= answeredText : Program η _).Returns calm :=
      (Returns.invoke _).bind fun answer => .asks _
    exact asked.rescue fun _ => .asks _

theorem returns_send (receiver : Val) (name : Sym) (args : List Val) (block : Option Val) :
    (send receiver name args block : Program η _).Returns calm := by
  refine (returns_findFor receiver name).bind fun answer => ?_
  cases answer with
  | some m => exact .invoke _
  | none =>
    refine (returns_findFor receiver .methodMissing).bind fun hook => ?_
    cases hook with
    | some hook => exact .invoke _
    | none =>
      exact (returns_inspectText receiver).bind fun text => (Returns.asks _).bind fun name =>
        .fail _

theorem returns_inspect (v : Val) : (inspect v : Program η _).Returns calm :=
  (returns_send v .inspect [] none).bind fun _ => .asks _

theorem returns_superSend (frame : Nat) (self : Val) (args : List Val) (block : Option Val) :
    (superSend frame self args block : Program η _).Returns calm := by
  refine (Returns.asks _).bind fun running => ?_
  cases running with
  | none => exact .fail _
  | some current =>
    refine (Returns.asks _).bind fun cls => (Returns.perform _).bind fun next => ?_
    cases next with
    | some next => exact .invoke _
    | none =>
      exact (Returns.asks _).bind fun name => (returns_inspectText self).bind fun text => .fail _

theorem returns_callProc (proc : Ref) (args : List Val) (block : Option Val) :
    (callProc proc args block : Program η _).Returns calm := by
  refine (Returns.asks _).bind fun found => ?_
  split
  · split
    · exact .fail _
    · exact .invoke _
  · exact .invoke _

theorem returns_callValue (callable : Val) (args : List Val) (block : Option Val) :
    (callValue callable args block : Program η _).Returns calm := by
  unfold callValue
  split
  · exact returns_callProc _ args block
  · refine (Returns.asks _).bind fun found => ?_
    cases found with
    | some found => exact .invoke _
    | none => exact .value Val.nil
  · exact returns_send _ .call args block

/-! ## Conversions -/

theorem returns_toArray (v : Val) (strict : Bool) :
    (toArray v strict : Program η _).Returns calm := by
  unfold toArray
  split
  · exact .value _
  · refine (returns_findFor _ .toAry).bind fun answer => ?_
    cases answer with
    | none => exact .perform _
    | some m =>
      refine (returns_send _ .toAry [] none).bind fun answer => ?_
      split
      · exact .value _
      · exact .perform _
      · split
        · exact (Returns.asks _).bind fun cls => (Returns.asks _).bind fun gives => .fail _
        · exact .perform _

theorem returns_coerce (lhs rhs : Val) : (coerce lhs rhs : Program η _).Returns calm := by
  refine (returns_findFor lhs .coerce).bind fun answer => ?_
  cases answer with
  | none => exact .value _
  | some m =>
    refine (returns_send lhs .coerce [rhs] none).bind fun answer => ?_
    split
    · refine (Returns.asks _).bind fun elements => ?_
      split
      · exact .value _
      · exact .fail _
    · exact .fail _

/-! ## The end of a program -/

theorem returns_atExit (handler : Val) : (atExit handler : Program η _).Returns calm := by
  unfold atExit
  split
  · refine (Returns.asks _).bind fun registered => ?_
    split
    · exact .perform _
    · exact (Returns.perform _).bind fun r => (Returns.perform _).bind fun _ => .perform _
  · exact (Returns.asks _).bind fun cls => .fail _

theorem returns_runHandlers (handlers : List Val) :
    (runHandlers handlers : Program η _).Returns calm := by
  induction handlers with
  | nil => exact .value ()
  | cons handler rest ih =>
    refine (returns_callValue handler [] none).inScope.attempt fun outcome allowed => ?_
    cases outcome with
    | value v => exact ih
    | failure e => exact (Returns.perform _).bind fun _ => ih
    | panic message => exact Returns.bind (p := panic message) allowed fun _ => ih

theorem returns_runAtExitHandlers : (runAtExitHandlers : Program η _).Returns calm := by
  refine (Returns.asks _).bind fun registered => ?_
  split
  · refine ⟨?_, fun _ => id⟩
    exact (Returns.perform _).bind fun fresh => (Returns.perform _).bind fun _ =>
      (Returns.asks _).bind fun handlers => returns_runHandlers _
  · exact .value ()

theorem returns_runMain {body : Program η Val} (returns : body.Returns calm) :
    (runMain body).Returns calm := by
  refine returns.inScope.attempt fun outcome allowed => ?_
  cases outcome with
  | value v => exact returns_runAtExitHandlers.bind fun _ => .value 0
  | failure e =>
    refine returns_runAtExitHandlers.bind fun _ => ?_
    split
    · exact .value _
    · exact (Returns.perform _).bind fun _ => .value 1
  | panic message => exact allowed

/-! ## Builtin methods -/

theorem returns_nameArgument (v : Val) : (nameArgument v : Program η _).Returns calm := by
  unfold nameArgument
  split
  · exact .value _
  · exact (Returns.asks _).bind fun text => .perform _
  · exact (returns_inspectText _).bind fun text => .fail _

theorem returns_constArgument (v : Val) : (constArgument v : Program η _).Returns calm := by
  refine (returns_nameArgument v).bind fun s => (Returns.asks _).bind fun name => ?_
  split
  · split
    · exact .value _
    · exact .fail _
  · exact .fail _

theorem returns_moduleArgument (v : Val) (expected : String) :
    (moduleArgument v expected : Program η _).Returns calm := by
  unfold moduleArgument
  split
  · exact .value _
  · exact (Returns.asks _).bind fun given => .fail _

theorem returns_findConst (m : Ref) (name : Sym) :
    (findConst m name : Program η _).Returns calm := by
  intro answer answers
  cases answer with
  | some answer => exact .ofExcept answer
  | none => cases answers

theorem returns_argument (a : Activation) (index : Nat) (given : calm → index < a.args.length) :
    (argument a index : Program η _).Returns calm := by
  unfold argument
  split
  · exact .value _
  next missing =>
    intro careful
    have := given careful
    simp at missing
    omega

theorem returns_classNew (a : Activation) : (classNew a : Program η _).Returns calm := by
  refine (Returns.check _).bind fun cls => ?_
  split
  · have made (sup : Ref) :
        ((do return .module (← demand (.subclass sup none none))) : Program η Val).Returns calm :=
      (Returns.demand _).bind fun made => .value _
    refine (Returns.ofExcept _).bind fun _ => ?_
    cases a.args with
    | nil => exact (Returns.value _).bind made
    | cons v rest => exact (returns_moduleArgument v "Class").bind made
  · have initialized (v : Val) :
        ((do let _ ← send v .initializer a.args a.block; return v) : Program η Val).Returns calm :=
      (returns_send v .initializer a.args a.block).bind fun _ => .value v
    refine (Returns.asks _).bind fun isSingleton => ?_
    dsimp only
    split
    · exact Returns.fail (.typeError "can't create instance of singleton class")
    · refine (Returns.asks _).bind fun tag => ?_
      split
      · exact (Returns.perform _).bind fun r => initialized (.object r)
      · exact (Returns.perform _).bind fun r => initialized (.array r)
      · exact (Returns.perform _).bind fun r => initialized (.table r)
      · exact (Returns.perform _).bind fun r => initialized (.string r)
      · exact (Returns.asks _).bind fun name => (Returns.fail _).bind initialized

theorem returns_includeAll (m : Ref) (others : List Ref) :
    (includeAll m others : Program η _).Returns calm := by
  induction others with
  | nil => exact .value ()
  | cons other rest ih => exact (Returns.demand _).bind fun _ => ih

theorem returns_moduleInclude (a : Activation) : (moduleInclude a : Program η _).Returns calm :=
  (Returns.check _).bind fun m => (Returns.mapM (returns_moduleArgument · "Module") a.args).bind
    fun others => (returns_includeAll m others.reverse).bind fun _ => .value a.self

theorem returns_moduleName (a : Activation) : (moduleName a : Program η _).Returns calm := by
  refine (Returns.check _).bind fun m => (Returns.asks _).bind fun found => ?_
  split
  · exact .value Val.nil
  · exact (Returns.perform _).bind fun r => .value (Val.string r)
  · exact .value Val.nil

theorem returns_moduleConstGet (a : Activation) (given : calm → 0 < a.args.length) :
    (moduleConstGet a : Program η _).Returns calm :=
  (Returns.check _).bind fun m => (returns_argument a 0 given).bind fun v =>
    (returns_constArgument v).bind fun name => returns_findConst m name

theorem returns_moduleConstSet (a : Activation) (given : calm → 1 < a.args.length) :
    (moduleConstSet a : Program η _).Returns calm := by
  have first (careful : calm) : 0 < a.args.length := by have := given careful; omega
  exact (Returns.check _).bind fun m => (returns_argument a 0 first).bind fun v =>
    (returns_constArgument v).bind fun name => (returns_argument a 1 given).bind fun w =>
      (Returns.perform _).bind fun _ => .value w

theorem returns_moduleDefineMethod (a : Activation) (given : calm → 0 < a.args.length) :
    (moduleDefineMethod a : Program η _).Returns calm := by
  refine (Returns.ofExcept _).bind fun _ => (Returns.check _).bind fun m =>
    (returns_argument a 0 given).bind fun v => (returns_nameArgument v).bind fun name => ?_
  have defined (b : Body × Int) : ((do
      let _ ← perform (.defineMethod m name b.1 b.2)
      return .sym name) : Program η Val).Returns calm :=
    (Returns.perform _).bind fun _ => .value (Val.sym name)
  extract_lets given next
  clear_value given
  split
  · exact (Returns.asks _).bind fun arity => defined (_, arity)
  · refine (Returns.asks _).bind fun found => ?_
    split
    next lent => exact defined (lent.body, lent.arity)
    next => exact (Returns.fail _).bind defined
  · exact (Returns.asks _).bind fun name => (Returns.fail _).bind defined
  · exact (Returns.fail _).bind defined

theorem returns_kernelRespondTo (a : Activation) (given : calm → 0 < a.args.length) :
    (kernelRespondTo a : Program η _).Returns calm :=
  (Returns.ofExcept _).bind fun _ => (returns_argument a 0 given).bind fun v =>
    (returns_nameArgument v).bind fun name => (returns_respondsTo a.self name).bind fun responds =>
      .value (Val.bool responds)

theorem returns_kernelIsA (a : Activation) (given : calm → 0 < a.args.length) :
    (kernelIsA a : Program η _).Returns calm := by
  refine (returns_argument a 0 given).bind fun v => ?_
  split
  · exact (Returns.perform _).bind fun answer => .value (Val.bool answer)
  · exact .fail _

theorem returns_kernelMethod (a : Activation) (given : calm → 0 < a.args.length) :
    (kernelMethod a : Program η _).Returns calm := by
  refine (returns_argument a 0 given).bind fun v => (returns_nameArgument v).bind fun name =>
    (returns_findFor a.self name).bind fun found => ?_
  cases found with
  | some m => exact (Returns.perform _).bind fun r => .value (Val.bound r)
  | none =>
    exact (returns_inspectText a.self).bind fun text => (Returns.asks _).bind fun name => .fail _

theorem returns_kernelAtExit (a : Activation) : (kernelAtExit a : Program η _).Returns calm := by
  unfold kernelAtExit
  split
  · exact (returns_atExit _).bind fun _ => .value _
  · exact .fail _

theorem returns_methodOf (a : Activation) : (methodOf a : Program η _).Returns calm :=
  (Returns.check _).bind fun _ => .asks _

theorem returns_coerced (lhs : Val) (op : Sym) (rhs : Val) (target : String) :
    (coerced lhs op rhs target : Program η _).Returns calm := by
  refine (returns_respondsTo rhs .coerce).bind fun responds => ?_
  split
  · exact (returns_coerce rhs lhs).bind fun (lhs, rhs) => returns_send lhs op [rhs] none
  · exact (Returns.asks _).bind fun name => .fail _

theorem returns_integerAdd (a : Activation) (given : calm → 0 < a.args.length) :
    (integerAdd a : Program η _).Returns calm := by
  refine (Returns.check _).bind fun lhs => (returns_argument a 0 given).bind fun v => ?_
  split
  · split
    · exact .value _
    · exact (Returns.perform _).bind fun r => .value (Val.float r)
  · exact (Returns.check _).bind fun rhs => (Returns.perform _).bind fun r => .value (Val.float r)
  · exact returns_coerced a.self .add _ "Integer"

theorem returns_integerCoerce (a : Activation) (given : calm → 0 < a.args.length) :
    (integerCoerce a : Program η _).Returns calm := by
  refine (returns_argument a 0 given).bind fun v => ?_
  split
  · exact (Returns.perform _).bind fun r => .value (Val.array r)
  · exact (Returns.check _).bind fun lhs => (Returns.check _).bind fun rhs =>
      (Returns.perform _).bind fun x => (Returns.perform _).bind fun y =>
        (Returns.perform _).bind fun r => .value (Val.array r)
  · exact (Returns.asks _).bind fun name => .fail _

theorem returns_floatSum (lhs : Float) (rhs : Val) :
    (floatSum lhs rhs : Program η _).Returns calm :=
  (Returns.check _).bind fun _ => (Returns.perform _).bind fun r => .value (Val.float r)

theorem returns_floatAdd (a : Activation) (given : calm → 0 < a.args.length) :
    (floatAdd a : Program η _).Returns calm := by
  refine (Returns.check _).bind fun lhs => (returns_argument a 0 given).bind fun v => ?_
  split
  · exact returns_floatSum lhs _
  · exact returns_floatSum lhs _
  · exact returns_coerced a.self .add _ "Float"

theorem returns_floatCoerce (a : Activation) (given : calm → 0 < a.args.length) :
    (floatCoerce a : Program η _).Returns calm := by
  refine (returns_argument a 0 given).bind fun v => ?_
  split
  · exact (Returns.perform _).bind fun x => (Returns.perform _).bind fun r => .value (Val.array r)
  · exact (Returns.perform _).bind fun r => .value (Val.array r)
  · exact (Returns.asks _).bind fun name => .fail _

end Program

theorem Runtime.le_of_fits {arity : Int} {given : Nat} (fits : arityFailure arity given = none) :
    max arity (-(arity + 1)) ≤ given := by
  simp only [arityFailure] at fits
  split at fits
  · split at fits
    · omega
    · cases fits
  · split at fits
    · omega
    · cases fits

/-- A builtin method returns. It does not panic when it is given as many arguments as it takes. -/
theorem Builtin.returns (b : Builtin) (a : Activation)
    (fits : calm → Runtime.arityFailure b.signature.2.2 a.args.length = none) :
    (b.code a : Program η Val).Returns calm := by
  have given (index : Nat) (taken : index < max b.signature.2.2 (-(b.signature.2.2 + 1)))
      (careful : calm) : index < a.args.length := by
    have := Runtime.le_of_fits (fits careful)
    omega
  cases b with
  | objectInitialize => exact .value Val.nil
  | objectEq =>
    exact (Program.returns_argument a 0 (given 0 (by decide))).bind fun v => .value (Val.bool _)
  | classNew => exact Program.returns_classNew a
  | classSuperclass => exact (Program.Returns.check _).bind fun cls => .asks _
  | moduleInclude => exact Program.returns_moduleInclude a
  | moduleAncestors =>
    exact (Program.Returns.check _).bind fun m => (Program.Returns.perform _).bind fun above =>
      (Program.Returns.perform _).bind fun r => .value (Val.array r)
  | moduleName => exact Program.returns_moduleName a
  | moduleConstGet => exact Program.returns_moduleConstGet a (given 0 (by decide))
  | moduleConstSet => exact Program.returns_moduleConstSet a (given 1 (by decide))
  | moduleDefineMethod => exact Program.returns_moduleDefineMethod a (given 0 (by decide))
  | kernelClass => exact .asks _
  | kernelInspect =>
    exact (Program.Returns.asks _).bind fun text => (Program.Returns.perform _).bind fun r =>
      .value (Val.string r)
  | kernelRespondTo => exact Program.returns_kernelRespondTo a (given 0 (by decide))
  | kernelIsA => exact Program.returns_kernelIsA a (given 0 (by decide))
  | kernelMethod => exact Program.returns_kernelMethod a (given 0 (by decide))
  | kernelSingletonClass => exact (Program.Returns.demand _).bind fun m => .value (Val.module m)
  | kernelAtExit => exact Program.returns_kernelAtExit a
  | kernelExit => exact (Program.Returns.ofExcept _).bind fun _ => .fail _
  | methodCall => exact Program.returns_callValue a.self a.args a.block
  | methodOwner => exact (Program.returns_methodOf a).bind fun m => .value _
  | methodArity => exact (Program.returns_methodOf a).bind fun m => .value (Val.int _)
  | procCall =>
    exact (Program.Returns.check _).bind fun r => Program.returns_callProc r a.args a.block
  | integerAdd => exact Program.returns_integerAdd a (given 0 (by decide))
  | integerCoerce => exact Program.returns_integerCoerce a (given 0 (by decide))
  | floatAdd => exact Program.returns_floatAdd a (given 0 (by decide))
  | floatCoerce => exact Program.returns_floatCoerce a (given 0 (by decide))
  | mainInspect => exact (Program.Returns.perform _).bind fun r => .value (Val.string r)

/-! ## What is asked of a runtime from outside -/

theorem Sending.returns (s : Sending) : (s.program : Program η Val).Returns calm := by
  cases s with
  | message receiver name args block => exact Program.returns_send receiver name args block
  | super frame self args block => exact Program.returns_superSend frame self args block
  | value callable args block => exact Program.returns_callValue callable args block

end ObjectRuntime
