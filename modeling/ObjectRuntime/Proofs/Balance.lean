import Mathlib.Data.List.Chain
import ObjectRuntime.Proofs.Moments

/-! The balance of the stacks. A call or a scope in which nothing panics leaves the calls and
scopes as they were, and of the handles taken since it began only its result. What is made
while it is the innermost one stays until it is left. -/

namespace ObjectRuntime

/-! ## Steady courses -/

/-- Every state holds what the first one does, and every state outside of inner calls, scopes and
held values is followed by states that hold what it does. What is made there is held. -/
structure Steady (rt : Runtime) (moments : List Moment) : Prop where
  guarded : ∀ m ∈ moments, Runtime.Guards rt m.rt
  ordered : moments.Pairwise fun m m' => m.depth = 0 → Runtime.Guards m.rt m'.rt
  fresh : moments.IsChain fun m m' => m.depth = 0 → m'.depth = 0 → Runtime.HoldsNew m.rt m'.rt

def Quiet (moments : List Moment) : Prop := ∀ m ∈ moments, m.panics = false

theorem Quiet.of_append {left right : List Moment} (quiet : Quiet (left ++ right)) :
    Quiet left ∧ Quiet right :=
  ⟨fun m member => quiet m (List.mem_append.mpr (.inl member)),
    fun m member => quiet m (List.mem_append.mpr (.inr member))⟩

theorem Quiet.of_cons {m : Moment} {later : List Moment} (quiet : Quiet (m :: later)) :
    Quiet later :=
  fun m' member => quiet m' (List.mem_cons_of_mem _ member)

theorem Quiet.of_deeper {moments : List Moment} (quiet : Quiet (moments.map Moment.deeper)) :
    Quiet moments :=
  fun m member => quiet m.deeper (List.mem_map_of_mem member)

/-- What is made at some moment outside of inner calls, scopes and held values stays there at every
later moment. -/
def Lasting (moments : List Moment) : Prop :=
  ∀ earlier m m' later, moments = earlier ++ m :: m' :: later → m.depth = 0 → m'.depth = 0 →
    ∀ r, m'.rt.heap.isLive r → ¬ m.rt.heap.isLive r → ∀ m'' ∈ later, m''.rt.heap.isLive r

namespace Steady
variable {rt left : Runtime} {moments inner : List Moment}

theorem nil (rt : Runtime) : Steady rt [] :=
  ⟨fun _ member => (nomatch member), .nil, .nil⟩

theorem single (rt : Runtime) (panics : Bool) : Steady rt [⟨0, rt, panics⟩] :=
  ⟨fun _ member => List.mem_singleton.mp member ▸ .refl rt, List.pairwise_singleton .., .singleton _⟩

theorem cons (extension : Runtime.Extends rt left) (rest : Steady left moments)
    (begins : ∃ panics later, moments = ⟨0, left, panics⟩ :: later) (panics : Bool) :
    Steady rt (⟨0, rt, panics⟩ :: moments) where
  guarded m member := by
    rcases List.mem_cons.mp member with rfl | later
    · exact .refl rt
    · exact extension.toGuards.trans (rest.guarded m later)
  ordered := List.pairwise_cons.mpr
    ⟨fun m later _ => extension.toGuards.trans (rest.guarded m later), rest.ordered⟩
  fresh := by
    obtain ⟨_, later, rfl⟩ := begins
    exact rest.fresh.cons_cons fun _ _ => extension.fresh

theorem around (guards : Runtime.Guards rt left) (some : inner ≠ [])
    (deeper : ∀ m ∈ inner, m.depth ≠ 0 ∧ Runtime.Guards rt m.rt) (rest : Steady left moments)
    (panics : Bool) : Steady rt (⟨0, rt, panics⟩ :: (inner ++ moments)) := by
  have guarded (m : Moment) (later : m ∈ inner ++ moments) : Runtime.Guards rt m.rt := by
    rcases List.mem_append.mp later with inside | behind
    · exact (deeper m inside).2
    · exact guards.trans (rest.guarded m behind)
  -- nothing is asked of the states inside
  have away {P : Prop} (m : Moment) (inside : m ∈ inner) (outside : m.depth = 0) : P :=
    absurd outside (deeper m inside).1
  refine ⟨fun m member => ?_, ?_, ?_⟩
  · rcases List.mem_cons.mp member with rfl | later
    · exact .refl rt
    · exact guarded m later
  · have ordered : inner.Pairwise fun m m' => m.depth = 0 → Runtime.Guards m.rt m'.rt :=
      List.pairwise_of_forall_mem_list fun m inside _ _ => away m inside
    refine List.pairwise_cons.mpr ⟨fun m later _ => guarded m later, ?_⟩
    exact List.pairwise_append.mpr ⟨ordered, rest.ordered, fun m inside _ _ => away m inside⟩
  · have within : inner.Pairwise fun m m' =>
        m.depth = 0 → m'.depth = 0 → Runtime.HoldsNew m.rt m'.rt :=
      List.pairwise_of_forall_mem_list fun m inside _ _ => away m inside
    have joined : (inner ++ moments).IsChain fun m m' =>
        m.depth = 0 → m'.depth = 0 → Runtime.HoldsNew m.rt m'.rt := by
      refine List.isChain_append.mpr ⟨within.isChain, rest.fresh, ?_⟩
      intro m ends m' _
      exact away m (List.mem_of_getLast? ends)
    refine List.isChain_cons.mpr ⟨fun m begins _ => ?_, joined⟩
    rw [List.head?_append_of_ne_nil _ some] at begins
    exact away m (List.mem_of_mem_head? begins)

theorem enter {η α : Type} {run : Run η α} {next : Outcome α → Runtime → η → List Moment}
    (some : inner ≠ []) (deeper : ∀ m ∈ inner, m.depth ≠ 0 ∧ Runtime.Guards rt m.rt)
    (ended : ∀ outcome left host, run = .ended outcome left host →
      ∃ resumed, Runtime.Guards rt resumed ∧ Steady resumed (next outcome left host)) :
    Steady rt (⟨0, rt, false⟩ :: (inner ++ run.follow next)) := by
  cases run with
  | ended outcome left host =>
    obtain ⟨resumed, guards, rest⟩ := ended outcome left host rfl
    exact around guards some deeper rest false
  | _ => exact around (.refl rt) some deeper (.nil rt) false

theorem append (first : Steady rt moments) {init : List Moment} {panics : Bool}
    (ends : moments = init ++ [⟨0, left, panics⟩]) {later : List Moment} (rest : Steady left later)
    (begins : ∃ panics more, later = ⟨0, left, panics⟩ :: more) : Steady rt (moments ++ later) := by
  subst ends
  have guards : Runtime.Guards rt left := first.guarded ⟨0, left, panics⟩ (by simp)
  refine ⟨fun m member => ?_, List.pairwise_append.mpr ⟨first.ordered, rest.ordered, ?_⟩, ?_⟩
  · rcases List.mem_append.mp member with before | behind
    · exact first.guarded m before
    · exact guards.trans (rest.guarded m behind)
  · intro m before m' behind outside
    refine Runtime.Guards.trans ?_ (rest.guarded m' behind)
    rcases List.mem_append.mp before with earlier | last
    · exact (List.pairwise_append.mp first.ordered).2.2 m earlier ⟨0, left, panics⟩ (by simp) outside
    · rw [List.mem_singleton.mp last]
      exact .refl left
  · obtain ⟨_, more, rfl⟩ := begins
    refine List.isChain_append.mpr ⟨first.fresh, rest.fresh, fun m ends m' begins => ?_⟩
    -- the two courses share this state
    simp only [List.getLast?_append, List.getLast?_singleton, Option.some_or, Option.mem_def,
      Option.some.injEq, List.head?_cons] at ends begins
    subst ends begins
    exact fun _ _ _ _ => .inl

theorem follow {η α : Type} {run : Run η α} {next : Outcome α → Runtime → η → List Moment}
    (first : Steady rt moments)
    (ended : ∀ outcome left host, run = .ended outcome left host →
      (∃ init, moments = init ++ [⟨0, left, outcome.isPanic⟩]) ∧
        Steady left (next outcome left host) ∧
        ∃ panics more, next outcome left host = ⟨0, left, panics⟩ :: more) :
    Steady rt (moments ++ run.follow next) := by
  cases run with
  | ended outcome left host =>
    obtain ⟨⟨init, ends⟩, rest, begins⟩ := ended outcome left host rfl
    exact first.append ends rest begins
  | _ => simpa [Run.follow] using first

theorem lasting (steady : Steady rt moments) (wf : rt.heap.WellFormed) : Lasting moments := by
  rintro earlier m m' later rfl outside outside' r made before m'' member
  have ordered := (List.pairwise_append.mp steady.ordered).2.1
  have guards : Runtime.Guards m'.rt m''.rt :=
    (List.pairwise_cons.mp (List.pairwise_cons.mp ordered).2).1 m'' member outside'
  have fresh := (List.isChain_append_cons_cons.mp steady.fresh).2.1 outside outside'
  have formed : m.rt.heap.WellFormed := (steady.guarded m (by simp)).heap wf
  rcases fresh formed r made with already | ⟨k, held⟩
  · exact absurd already before
  · exact guards.kept ((steady.guarded m' (by simp)).heap wf) k r held made

end Steady

/-! ## Letting go -/

def handleOf : Option Val → Array Val
  | some v => if v.isImmediate then #[] else #[v]
  | none => #[]

def Outcome.kept (outcome : Outcome Val) : Array Val := handleOf outcome.value?

namespace Runtime

/-- The same calls and scopes are running, and exactly these handles were taken. -/
structure Balanced (rt : Runtime) (taken : Array Val) (rt' : Runtime) : Prop
    extends Resumes rt rt' where
  exactly : rt'.handles = rt.handles ++ taken

variable {rt left : Runtime}

theorem handles_hold (rt : Runtime) (v : Val) :
    (rt.hold v).handles = rt.handles ++ handleOf (some v) := by
  by_cases immediate : v.isImmediate <;> simp [hold, handleOf, immediate]

theorem hold_eq (rt : Runtime) (v : Val) : rt.hold v = { rt with handles := (rt.hold v).handles } := by
  unfold hold
  split <;> rfl

theorem handles_release (rt : Runtime) (mark : Nat) (keep : Option Val) :
    (rt.release mark keep).handles = rt.handles.take mark ++ handleOf keep := by
  cases keep with
  | none => simp [release, handleOf]
  | some v => exact handles_hold _ v

theorem release_eq (rt : Runtime) (mark : Nat) (keep : Option Val) :
    rt.release mark keep = { rt with handles := (rt.release mark keep).handles } := by
  cases keep with
  | none => rfl
  | some v => exact hold_eq { rt with handles := rt.handles.take mark } v

theorem Resumes.release (resumes : Resumes rt left) (keep : Option Val) :
    Balanced rt (handleOf keep) (left.release rt.handles.size keep) := by
  have handles : (left.release rt.handles.size keep).handles = rt.handles ++ handleOf keep := by
    obtain ⟨taken, same⟩ := resumes.handles
    rw [handles_release, same]
    simp
  refine ⟨?_, handles⟩
  rw [release_eq, handles]
  exact ⟨⟨⟨_, rfl⟩, resumes.heap, resumes.kept⟩, resumes.calls, resumes.scopes, resumes.frames⟩

theorem Resumes.leaveScope (resumes : Resumes rt.enterScope left) {outcome : Outcome Val}
    (calm : outcome.isPanic = false) :
    Balanced rt (if rt.atTopLevel then #[] else outcome.kept)
      (left.leaveScope rt.handles.size outcome) := by
  have resumed : Resumes rt { left with scopes := left.scopes - 1 } := by
    refine ⟨⟨resumes.handles, resumes.heap, resumes.kept⟩, resumes.calls, ?_, resumes.frames⟩
    simp [resumes.scopes, enterScope]
  unfold Runtime.leaveScope
  rw [calm]
  simp only [Bool.false_eq_true, if_false, resumed.atTopLevel]
  have released := resumed.release (if rt.atTopLevel then none else outcome.value?)
  cases top : rt.atTopLevel with
  | true => simpa [top, handleOf] using released
  | false => simpa [top, Outcome.kept] using released

theorem Resumes.letGo {v : Val} (resumes : Resumes (rt.hold v) left) {outcome : Outcome Unit}
    (calm : outcome.isPanic = false) : Resumes rt (left.letGo rt.handles.size outcome) := by
  unfold Runtime.letGo
  rw [calm]
  exact (((Extends.hold rt v).toResumes.trans resumes).release none).toResumes

/-! ## Calls -/

theorem resumes_openFrame (rt : Runtime) (c : Call) : Resumes rt (rt.openFrame c).2 where
  toGuards := .take ⟨rfl, rfl, rfl⟩ ⟨#[], by simp [openFrame]⟩
  calls := rfl
  scopes := rfl
  frames i f slot := by
    refine ⟨f, ?_, rfl⟩
    have bound := (Array.getElem?_eq_some_iff.mp slot).1
    simp [openFrame, Frames.push, Array.getElem?_push_lt bound, ← slot]

theorem guards_pushCall (rt : Runtime) (frame : Nat) : Guards rt (rt.pushCall frame) :=
  .take ⟨rfl, rfl, rfl⟩ ⟨#[], by simp [pushCall]⟩

theorem balanced_refuseCall (rt : Runtime) (c : Call) :
    Balanced rt #[] ((rt.openFrame c).2.refuseCall c rt.handles.size).2 :=
  (resumes_openFrame rt c).release none

theorem kept_closeCall (rt : Runtime) (c : Call) (mark : Nat) (outcome : Outcome Val) :
    (rt.closeCall c mark outcome).1.kept = outcome.kept := by
  cases outcome <;> rfl

theorem Resumes.closeCall {c : Call}
    (resumes : Resumes ((rt.openFrame c).2.pushCall (rt.openFrame c).1) left)
    {outcome : Outcome Val} (calm : outcome.isPanic = false) :
    Balanced rt outcome.kept (left.closeCall c rt.handles.size outcome).2 := by
  have opened := resumes_openFrame rt c
  have popped : Resumes rt left.popCall := by
    have guards := (opened.toGuards.trans (guards_pushCall _ _)).trans resumes.toGuards
    refine ⟨⟨guards.handles, guards.heap, guards.kept⟩, ?_, resumes.scopes, fun i f slot => ?_⟩
    · simp [popCall, resumes.calls, pushCall, openFrame]
    · obtain ⟨f', slot', same⟩ := opened.frames i f slot
      obtain ⟨f'', slot'', same'⟩ := resumes.frames i f' slot'
      exact ⟨f'', slot'', same'.trans same⟩
  unfold Runtime.closeCall
  rw [calm]
  cases outcome with
  | value v => exact popped.release (some v)
  | failure e => exact popped.release none
  | panic message => cases calm

end Runtime

/-! ## Runs -/

namespace Machine
variable {η α : Type} {caller : Caller η} {within : Course η}

/-- Calls in which nothing panics are balanced, and take a steady course. -/
structure Tidy (caller : Caller η) (within : Course η) : Prop where
  steady : ∀ c rt host, Quiet (within false c rt host) → within false c rt host ≠ [] ∧
    ∃ opened, Runtime.Guards rt opened ∧ Steady opened (within false c rt host)
  balanced : ∀ c rt host answer left host', Quiet (within false c rt host) →
    caller false c rt host = .ended answer left host' → rt.Balanced answer.kept left

theorem calm_of_quiet {unwinding : Bool} {p : Program η α} {rt rt' : Runtime} {host host' : η}
    {outcome : Outcome α} (quiet : Quiet (trace caller within unwinding p rt host))
    (ended : step caller unwinding p rt host = .ended outcome rt' host') :
    outcome.isPanic = false := by
  obtain ⟨init, same⟩ := trace_ends within ended
  exact quiet ⟨0, rt', outcome.isPanic⟩ (by simp [same])

theorem deeper_of_steady {rt opened : Runtime} {moments : List Moment}
    (guards : rt.Guards opened) (steady : Steady opened moments) :
    ∀ m ∈ moments.map Moment.deeper, m.depth ≠ 0 ∧ rt.Guards m.rt := by
  intro m member
  obtain ⟨m', inside, rfl⟩ := List.mem_map.mp member
  exact ⟨Nat.succ_ne_zero _, guards.trans (steady.guarded m' inside)⟩

/-- A program takes a steady course, and leaves the calls and scopes that it found. -/
structure Settles (caller : Caller η) (within : Course η) (p : Program η α) (rt : Runtime)
    (host : η) : Prop where
  steady : Steady rt (trace caller within false p rt host)
  resumes : ∀ outcome rt' host', step caller false p rt host = .ended outcome rt' host' →
    rt.Resumes rt'

theorem Settles.enter {β : Type} {p : Program η α} {rt : Runtime} {host : η} {inner : List Moment}
    {run : Run η β} {next : Outcome β → Program η α} (resume : Outcome β → Runtime → Runtime)
    (course : trace caller within false p rt host = ⟨0, rt, false⟩ :: (inner ++
      run.follow fun answer left host =>
        trace caller within false (next answer) (resume answer left) host))
    (leads : ∀ outcome rt' host', step caller false p rt host = .ended outcome rt' host' →
      ∃ answer left host₁, run = .ended answer left host₁ ∧
        step caller false (next answer) (resume answer left) host₁ = .ended outcome rt' host')
    (some : inner ≠ []) (deeper : ∀ m ∈ inner, m.depth ≠ 0 ∧ rt.Guards m.rt)
    (after : ∀ answer left host₁, run = .ended answer left host₁ →
      rt.Resumes (resume answer left) ∧
        Settles caller within (next answer) (resume answer left) host₁) :
    Settles caller within p rt host where
  steady := by
    rw [course]
    refine .enter some deeper fun answer left host₁ ended => ?_
    obtain ⟨resumes, settles⟩ := after answer left host₁ ended
    exact ⟨_, resumes.toGuards, settles.steady⟩
  resumes outcome rt' host' ended := by
    obtain ⟨answer, left, host₁, inner, rest⟩ := leads outcome rt' host' ended
    obtain ⟨resumes, settles⟩ := after answer left host₁ inner
    exact resumes.trans (settles.resumes outcome rt' host' rest)

theorem Settles.ensure {body : Program η Val} {cleanup : Program η Unit}
    {next : Outcome Val → Program η α} {rt : Runtime} {host : η}
    (first : Settles caller within body rt host)
    (after : ∀ answer left host₁, step caller false body rt host = .ended answer left host₁ →
      answer.isPanic = false ∧ Settles caller within cleanup left host₁ ∧
        ∀ done left₁ host₂, step caller false cleanup left host₁ = .ended done left₁ host₂ →
          Settles caller within (next (ensured answer done)) left₁ host₂) :
    Settles caller within (.ensure body cleanup next) rt host where
  steady := by
    refine first.steady.follow fun answer left host₁ ended => ?_
    obtain ⟨calm, second, last⟩ := after answer left host₁ ended
    have ends := trace_ends within ended
    simp only [calm, Bool.or_false, cleanupState, Bool.false_eq_true, if_false] at ends ⊢
    refine ⟨ends, second.steady.follow fun done left₁ host₂ cleaned =>
      ⟨trace_ends within cleaned, (last done left₁ host₂ cleaned).steady, trace_begins ..⟩, ?_⟩
    obtain ⟨panics, rest, same⟩ := trace_begins caller within false cleanup left host₁
    exact ⟨panics, _, by rw [same, List.cons_append]⟩
  resumes outcome rt' host' ended := by
    obtain ⟨answer, left, host₁, done, left₁, host₂, inner, cleaned, rest⟩ := step_ensure ended
    obtain ⟨calm, second, last⟩ := after answer left host₁ inner
    simp only [calm, Bool.or_false, cleanupState, Bool.false_eq_true, if_false] at cleaned
    exact ((first.resumes answer left host₁ inner).trans (second.resumes done left₁ host₂ cleaned)).trans
      ((last done left₁ host₂ cleaned).resumes outcome rt' host' rest)

theorem trace_ne_nil (p : Program η α) (rt : Runtime) (host : η) :
    trace caller within false p rt host ≠ [] := by
  obtain ⟨panics, rest, same⟩ := trace_begins caller within false p rt host
  simp [same]

/-- Inside of a call or a scope, every program that nothing panics in settles. -/
theorem settles (tidy : Tidy caller within) (p : Program η α) {rt : Runtime} {host : η}
    (inside : rt.atTopLevel = false) (quiet : Quiet (trace caller within false p rt host)) :
    Settles caller within p rt host := by
  induction p generalizing rt host with
  | done outcome =>
    refine ⟨.single rt _, fun outcome' rt' host' ended => ?_⟩
    cases ended
    exact .refl rt
  | endless => exact ⟨.single rt _, fun outcome rt' host' ended => by cases ended⟩
  | read next ih =>
    obtain ⟨steady, resumes⟩ := ih rt inside quiet
    exact ⟨steady, resumes⟩
  | host f next ih =>
    obtain ⟨steady, resumes⟩ := ih (f host).1 inside quiet
    exact ⟨steady, resumes⟩
  | act action next ih =>
    have extension := Runtime.Extends.act action rt fun _ => inside
    obtain ⟨steady, resumes⟩ :=
      ih (action.run rt).1 (extension.atTopLevel.trans inside) quiet.of_cons
    exact ⟨.cons extension steady (trace_begins ..) false, fun outcome rt' host' ended =>
      extension.toResumes.trans (resumes outcome rt' host' ended)⟩
  | call c next ih =>
    obtain ⟨inner, rest⟩ := quiet.of_cons.of_append
    obtain ⟨some, opened, guards, steady⟩ := tidy.steady c rt host inner.of_deeper
    refine .enter (fun _ left => left) rfl (fun _ _ _ => step_call) (by simpa using some)
      (deeper_of_steady guards steady) fun answer left host₁ called => ?_
    have resumes := (tidy.balanced c rt host answer left host₁ inner.of_deeper called).toResumes
    rw [called] at rest
    exact ⟨resumes, ih answer (resumes.atTopLevel.trans inside) rest⟩
  | scope body next first ih =>
    obtain ⟨inner, rest⟩ := quiet.of_cons.of_append
    have entered : rt.enterScope.atTopLevel = false := by
      simp [Runtime.atTopLevel, Runtime.enterScope]
    have settles := first entered inner.of_deeper
    have guards : rt.Guards rt.enterScope := .take ⟨rfl, rfl, rfl⟩ ⟨#[], by simp [Runtime.enterScope]⟩
    refine .enter (fun answer left => left.leaveScope rt.handles.size answer) rfl
      (fun _ _ _ => step_scope) (by simpa using trace_ne_nil _ _ _)
      (deeper_of_steady guards settles.steady) fun answer left host₁ ended => ?_
    have calm := calm_of_quiet inner.of_deeper ended
    have resumes := ((settles.resumes answer left host₁ ended).leaveScope calm).toResumes
    rw [ended] at rest
    exact ⟨resumes, ih answer (resumes.atTopLevel.trans inside) rest⟩
  | holding v body next first ih =>
    obtain ⟨inner, rest⟩ := quiet.of_cons.of_append
    have held := Runtime.Extends.hold rt v
    have settles := first (held.atTopLevel.trans inside) inner.of_deeper
    refine .enter (fun answer left => left.letGo rt.handles.size answer) rfl
      (fun _ _ _ => step_holding) (by simpa using trace_ne_nil _ _ _)
      (deeper_of_steady held.toGuards settles.steady) fun answer left host₁ ended => ?_
    have calm := calm_of_quiet inner.of_deeper ended
    have resumes := (settles.resumes answer left host₁ ended).letGo calm
    rw [ended] at rest
    exact ⟨resumes, ih answer (resumes.atTopLevel.trans inside) rest⟩
  | ensure body cleanup next first second ih =>
    obtain ⟨inner, rest⟩ := quiet.of_append
    have settles := first inside inner
    refine settles.ensure fun answer left host₁ ended => ?_
    have calm := calm_of_quiet inner ended
    have resumes := settles.resumes answer left host₁ ended
    rw [ended] at rest
    simp only [Run.follow, calm, Bool.or_false, cleanupState, Bool.false_eq_true, if_false] at rest
    obtain ⟨cleaning, last⟩ := rest.of_append
    have cleaned := second (resumes.atTopLevel.trans inside) cleaning
    refine ⟨calm, cleaned, fun done left₁ host₂ ended' => ?_⟩
    have resumes' := resumes.trans (cleaned.resumes done left₁ host₂ ended')
    rw [ended'] at last
    exact ih (ensured answer done) (resumes'.atTopLevel.trans inside) last

/-! ## Calls -/

variable (code : CodeRef → Code η)

/-- Calls are tidy, whatever code they run. -/
theorem tidy_call (budget : Nat) : Tidy (call code budget) (course code budget) := by
  induction budget with
  | zero =>
    constructor
    · intro c rt host _
      have opened := Runtime.resumes_openFrame rt c
      simp only [course]
      split <;> exact ⟨by simp, _, opened.toGuards, .single ..⟩
    · intro c rt host answer left host' _ ended
      cases callEnds_of_ended ended with
      | refused => exact rt.balanced_refuseCall c
  | succ budget ih =>
    have running (c : Call) (rt : Runtime) :
        ((rt.openFrame c).2.pushCall (rt.openFrame c).1).atTopLevel = false := by
      simp [Runtime.atTopLevel, Runtime.pushCall]
    constructor
    · intro c rt host quiet
      have opened := (Runtime.resumes_openFrame rt c).toGuards
      simp only [course] at quiet ⊢
      split at quiet
      next refused =>
        rw [if_pos refused]
        exact ⟨by simp, _, opened, .single ..⟩
      next room =>
        rw [if_neg room]
        obtain ⟨steady, -⟩ := settles ih _ (running c rt) quiet
        exact ⟨trace_ne_nil _ _ _, _, opened.trans (Runtime.guards_pushCall ..), steady⟩
    · intro c rt host answer left host' quiet ended
      cases callEnds_of_ended ended with
      | refused => exact rt.balanced_refuseCall c
      | @ran _ outcome left _ room ran =>
        simp only [course, room, Bool.false_eq_true, if_false] at quiet
        have calm := calm_of_quiet quiet ran
        have closed := ((settles ih _ (running c rt) quiet).resumes _ _ _ ran).closeCall calm
        rwa [← Runtime.kept_closeCall left c rt.handles.size outcome] at closed

end Machine
end ObjectRuntime
