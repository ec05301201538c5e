import ObjectRuntime.Proofs.Moments

/-! Where a run has come to. A program goes on as what is left of it when it has read, stepped, or had
what it called or encloses answer; what is left of it runs as the program does. -/

namespace ObjectRuntime.Machine
variable {η α β : Type}

/-- The program goes on as another one, which is what is left of it, in the state it has come to. -/
inductive Goes (caller : Caller η) (unwinding : Bool) :
    Program η α → Runtime → η → Program η α → Runtime → η → Prop
  | read (next : Runtime → Program η α) (rt : Runtime) (host : η) :
      Goes caller unwinding (.read next) rt host (next rt) rt host
  | act {γ : Type} (action : Action γ) (next : γ → Program η α) (rt : Runtime) (host : η) :
      Goes caller unwinding (.act action next) rt host (next (action.run rt).1) (action.run rt).2 host
  | host {γ : Type} (f : η → γ × η) (next : γ → Program η α) (rt : Runtime) (host : η) :
      Goes caller unwinding (.host f next) rt host (next (f host).1) rt (f host).2
  | call {c : Call} {rt left : Runtime} {host host' : η} {answer : Outcome Val}
      (called : caller unwinding c rt host = .ended answer left host')
      (next : Outcome Val → Program η α) :
      Goes caller unwinding (.call c next) rt host (next answer) left host'
  | scope {body : Program η Val} {rt left : Runtime} {host host' : η} {answer : Outcome Val}
      (ran : step caller unwinding body rt.enterScope host = .ended answer left host')
      (next : Outcome Val → Program η α) :
      Goes caller unwinding (.scope body next) rt host (next answer)
        (left.leaveScope rt.handles.size answer) host'
  | holding {v : Val} {body : Program η Unit} {rt left : Runtime} {host host' : η}
      {answer : Outcome Unit}
      (ran : step caller unwinding body (rt.hold v) host = .ended answer left host')
      (next : Outcome Unit → Program η α) :
      Goes caller unwinding (.holding v body next) rt host (next answer)
        (left.letGo rt.handles.size answer) host'
  | ensure {body : Program η Val} {cleanup : Program η Unit} {rt left left' : Runtime}
      {host host' host'' : η} {answer : Outcome Val} {done : Outcome Unit}
      (ran : step caller unwinding body rt host = .ended answer left host')
      (cleaned : step caller (unwinding || answer.isPanic) cleanup
        (cleanupState (unwinding || answer.isPanic) rt left) host' = .ended done left' host'')
      (next : Outcome Val → Program η α) :
      Goes caller unwinding (.ensure body cleanup next) rt host (next (ensured answer done)) left' host''

variable {caller : Caller η} {unwinding : Bool} {p q : Program η α} {rt left : Runtime} {host host' : η}

theorem Goes.step_eq (goes : Goes caller unwinding p rt host q left host') :
    step caller unwinding p rt host = step caller unwinding q left host' := by
  cases goes with
  | read | act | host => rfl
  | call called next => rw [step, called]
  | scope ran next => simp only [step, ran]
  | holding ran next => simp only [step, ran]
  | @ensure _ _ _ _ _ _ _ _ _ done ran cleaned next =>
    unfold cleanupState at cleaned
    simp only [step, ran, cleaned]
    cases done <;> rfl

/-- What follows a program follows what is left of it. -/
theorem Goes.bind (goes : Goes caller unwinding p rt host q left host') (f : α → Program η β) :
    Goes caller unwinding (p.bind f) rt host (q.bind f) left host' := by
  cases goes with
  | read next => exact .read (fun rt => (next rt).bind f) ..
  | act action next => exact .act action (fun b => (next b).bind f) ..
  | host g next => exact .host g (fun b => (next b).bind f) ..
  | call called next => exact .call called fun o => (next o).bind f
  | scope ran next => exact .scope ran fun o => (next o).bind f
  | holding ran next => exact .holding ran fun o => (next o).bind f
  | ensure ran cleaned next => exact .ensure ran cleaned fun o => (next o).bind f

/-- What a program passes through comes before what is left of it. -/
theorem Goes.trace_eq (goes : Goes caller unwinding p rt host q left host') (within : Course η) :
    ∃ before, trace caller within unwinding p rt host =
      before ++ trace caller within unwinding q left host' := by
  cases goes with
  | read | host => exact ⟨[], rfl⟩
  | act => exact ⟨[⟨0, rt, false⟩], rfl⟩
  | call called next => exact ⟨_, by rw [trace, called, ← List.cons_append]; rfl⟩
  | scope ran next => exact ⟨_, by rw [trace, ran, ← List.cons_append]; rfl⟩
  | holding ran next => exact ⟨_, by rw [trace, ran, ← List.cons_append]; rfl⟩
  | ensure ran cleaned next =>
    rw [trace, ran]
    simp only [Run.follow, cleaned]
    exact ⟨_, (List.append_assoc ..).symm⟩

/-- The program goes on as another one, in any number of steps. -/
inductive GoesOn (caller : Caller η) (unwinding : Bool) :
    Program η α → Runtime → η → Program η α → Runtime → η → Prop
  | refl (p : Program η α) (rt : Runtime) (host : η) : GoesOn caller unwinding p rt host p rt host
  | head {p p' q : Program η α} {rt rt' left : Runtime} {host host₁ host' : η}
      (goes : Goes caller unwinding p rt host p' rt' host₁)
      (on : GoesOn caller unwinding p' rt' host₁ q left host') :
      GoesOn caller unwinding p rt host q left host'

namespace GoesOn

theorem trans {p' : Program η α} {rt' : Runtime} {host₁ : η}
    (first : GoesOn caller unwinding p rt host p' rt' host₁)
    (second : GoesOn caller unwinding p' rt' host₁ q left host') :
    GoesOn caller unwinding p rt host q left host' := by
  induction first with
  | refl => exact second
  | head goes _ ih => exact .head goes (ih second)

theorem bind (on : GoesOn caller unwinding p rt host q left host') (f : α → Program η β) :
    GoesOn caller unwinding (p.bind f) rt host (q.bind f) left host' := by
  induction on with
  | refl => exact .refl ..
  | head goes _ ih => exact .head (goes.bind f) ih

theorem step_eq (on : GoesOn caller unwinding p rt host q left host') :
    step caller unwinding p rt host = step caller unwinding q left host' := by
  induction on with
  | refl => rfl
  | head goes _ ih => exact goes.step_eq.trans ih

end GoesOn

/-- A program that ends goes on to its end. -/
theorem goesOn_of_ended {outcome : Outcome α}
    (ended : step caller unwinding p rt host = .ended outcome left host') :
    GoesOn caller unwinding p rt host (.done outcome) left host' := by
  induction p generalizing rt host with
  | done o =>
    cases ended
    exact .refl ..
  | endless => cases ended
  | read next ih => exact .head (.read next rt host) (ih rt ended)
  | host f next ih => exact .head (.host f next rt host) (ih (f host).1 ended)
  | act action next ih => exact .head (.act action next rt host) (ih (action.run rt).1 ended)
  | call c next ih =>
    obtain ⟨answer, mid, host₁, called, rest⟩ := step_call ended
    exact .head (.call called next) (ih answer rest)
  | scope body next _ ih =>
    obtain ⟨answer, mid, host₁, ran, rest⟩ := step_scope ended
    exact .head (.scope ran next) (ih answer rest)
  | holding v body next _ ih =>
    obtain ⟨answer, mid, host₁, ran, rest⟩ := step_holding ended
    exact .head (.holding ran next) (ih answer rest)
  | ensure body cleanup next _ _ ih =>
    obtain ⟨answer, mid, host₁, done, mid', host₂, ran, cleaned, rest⟩ := step_ensure ended
    exact .head (.ensure ran cleaned next) (ih (ensured answer done) rest)

/-! ## Inside of cleanups -/

/-- Something unwinds when a body ended: a panic of its own, or one that was under way. -/
def unwinds (unwinding : Bool) : Run η Val → Bool
  | .ended answer _ _ => unwinding || answer.isPanic
  | _ => false

/-- What follows a cleanup, to the end of the program. -/
def behindCleanup (caller : Caller η) (within : Course η) (unwinding : Bool)
    (next : Outcome Val → Program η α) (answer : Outcome Val) (cleaned : Run η Unit) : List Moment :=
  cleaned.follow fun done left host =>
    trace caller within unwinding (next (ensured answer done)) left host

/-- What follows a body with a cleanup, to the end of the program, if nothing unwinds. -/
def behindBody (caller : Caller η) (within : Course η) (unwinding : Bool) (cleanup : Program η Unit)
    (next : Outcome Val → Program η α) (ran : Run η Val) : List Moment :=
  if unwinds unwinding ran then []
  else ran.follow fun answer left host =>
    trace caller within unwinding cleanup left host ++
      behindCleanup caller within unwinding next answer (step caller unwinding cleanup left host)

theorem trace_ensure (within : Course η) {body : Program η Val} {answer : Outcome Val}
    (ran : step caller unwinding body rt host = .ended answer left host')
    (cleanup : Program η Unit) (next : Outcome Val → Program η α) :
    let unwound := unwinding || answer.isPanic
    let start := cleanupState unwound rt left
    trace caller within unwinding (.ensure body cleanup next) rt host =
      trace caller within unwinding body rt host ++
        (trace caller within unwound cleanup start host' ++
          behindCleanup caller within unwinding next answer (step caller unwound cleanup start host')) := by
  rw [trace, ran]
  rfl

theorem trace_behindBody (caller : Caller η) (within : Course η) (unwinding : Bool)
    (body : Program η Val) (cleanup : Program η Unit) (next : Outcome Val → Program η α) (rt : Runtime) (host : η) :
    let ran := step caller unwinding body rt host
    ∃ more, trace caller within unwinding (.ensure body cleanup next) rt host =
      trace caller within unwinding body rt host ++
        (behindBody caller within unwinding cleanup next ran ++ more) ∧
      (unwinds unwinding ran = false → more = []) := by
  intro ran
  cases ended : ran with
  | ended answer left host₁ =>
    rw [trace_ensure within ended, behindBody]
    cases unwound : unwinds unwinding (.ended answer left host₁) with
    | true => exact ⟨_, by rw [if_pos rfl, List.nil_append], fun never => nomatch never⟩
    | false =>
      obtain ⟨rfl, calm⟩ := Bool.or_eq_false_iff.mp unwound
      exact ⟨[], by simp only [calm, List.append_nil]; rfl, fun _ => rfl⟩
  | _ => exact ⟨[], by rw [trace, show step caller unwinding body rt host = _ from ended]; rfl, fun _ => rfl⟩

/-- A program arrives at another one: it goes on as it, or does so in the body of an ensure or in its
cleanup, but in no call, scope or held value. Of the moments that follow the other one, those are
`later` that come before an ensure unwinds whose body it is in; all to the end of the program if none
does. -/
inductive Arrives (caller : Caller η) (within : Course η) {β : Type} (inner : Bool)
    (q : Program η β) (there : Runtime) (host' : η) :
    {α : Type} → Bool → Program η α → Runtime → η → List Moment → Bool → Prop
  | here : Arrives caller within inner q there host' inner q there host' [] true
  | goes {α : Type} {unwinding : Bool} {p p' : Program η α} {rt rt' : Runtime} {host host₁ : η}
      {later : List Moment} {whole : Bool}
      (goes : Goes caller unwinding p rt host p' rt' host₁)
      (arrives : Arrives caller within inner q there host' unwinding p' rt' host₁ later whole) :
      Arrives caller within inner q there host' unwinding p rt host later whole
  | body {α : Type} {unwinding : Bool} {body : Program η Val} {cleanup : Program η Unit}
      {rt : Runtime} {host : η} {later : List Moment} {whole : Bool}
      (arrives : Arrives caller within inner q there host' unwinding body rt host later whole)
      (next : Outcome Val → Program η α) :
      Arrives caller within inner q there host' unwinding (.ensure body cleanup next) rt host
        (later ++ if whole then
          behindBody caller within unwinding cleanup next (step caller unwinding body rt host) else [])
        (whole && !unwinds unwinding (step caller unwinding body rt host))
  | cleanup {α : Type} {unwinding : Bool} {body : Program η Val} {cleanup : Program η Unit}
      {rt left : Runtime} {host host₁ : η} {answer : Outcome Val} {later : List Moment} {whole : Bool}
      (ran : step caller unwinding body rt host = .ended answer left host₁)
      (arrives : Arrives caller within inner q there host' (unwinding || answer.isPanic) cleanup
        (cleanupState (unwinding || answer.isPanic) rt left) host₁ later whole)
      (next : Outcome Val → Program η α) :
      Arrives caller within inner q there host' unwinding (.ensure body cleanup next) rt host
        (later ++ if whole then behindCleanup caller within unwinding next answer
          (step caller (unwinding || answer.isPanic) cleanup
            (cleanupState (unwinding || answer.isPanic) rt left) host₁) else [])
        whole

namespace Arrives
variable {γ δ : Type} {within : Course η} {inner whole : Bool} {later : List Moment}
  {q : Program η γ} {q' : Program η δ} {there there' : Runtime} {host₁ host₂ : η}

theorem on {p' : Program η γ} (on : GoesOn caller inner p' there' host₂ q there host₁) :
    Arrives caller within inner q there host₁ inner p' there' host₂ [] true := by
  induction on with
  | refl => exact .here
  | head goes _ ih => exact .goes goes ih

/-- What it arrives at may go on. -/
theorem further {within' : Bool} (first : Arrives caller within within' q' there' host₂ inner q there host₁ [] true)
    (second : Arrives caller within inner q there host₁ unwinding p rt host later whole) :
    Arrives caller within within' q' there' host₂ unwinding p rt host later whole := by
  induction second with
  | here => exact first
  | goes goes _ ih => exact .goes goes ih
  | body _ next ih => exact .body ih next
  | cleanup ran _ next ih => exact .cleanup ran ih next

/-- The moments of the one that is arrived at, and those that are later, follow each other on the
course of the program. -/
theorem trace_eq (arrives : Arrives caller within inner q there host₁ unwinding p rt host later whole) :
    ∃ before more, trace caller within unwinding p rt host =
      before ++ (trace caller within inner q there host₁ ++ later) ++ more ∧
        (whole = true → more = []) := by
  induction arrives with
  | here => exact ⟨[], [], by simp⟩
  | goes goes _ ih =>
    obtain ⟨before, more, same, all⟩ := ih
    obtain ⟨first, same'⟩ := goes.trace_eq within
    exact ⟨first ++ before, more, by simp only [same', same, List.append_assoc], all⟩
  | @body _ unwinding body cleanup rt host later whole _ next ih =>
    obtain ⟨before, more, same, all⟩ := ih
    obtain ⟨more', same', none⟩ :=
      trace_behindBody caller within unwinding body cleanup next rt host
    rw [same', same]
    cases whole with
    | true =>
      obtain rfl := all rfl
      exact ⟨before, more', by simp, fun calm => none (by simpa using calm)⟩
    | false => exact ⟨before, more ++ _, by simp only [List.append_assoc]; rfl, fun never => nomatch never⟩
  | @cleanup _ unwinding body cleanup rt left host host₁ answer later whole ran _ next ih =>
    obtain ⟨before, more, same, all⟩ := ih
    rw [trace_ensure within ran, same]
    refine ⟨trace caller within unwinding body rt host ++ before, ?_⟩
    cases whole with
    | true =>
      obtain rfl := all rfl
      exact ⟨[], by simp, fun _ => rfl⟩
    | false => exact ⟨more ++ _, by simp only [List.append_assoc]; rfl, fun never => nomatch never⟩

end Arrives

end ObjectRuntime.Machine
