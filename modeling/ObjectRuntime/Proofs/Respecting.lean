import ObjectRuntime.Proofs.Balance
import ObjectRuntime.Proofs.Registry
import ObjectRuntime.Proofs.Running

/-! Runs that leave the lists of at-exit handlers to registration and to running them. What such
a run registers and takes is its log, and the handlers that wait after it are the replay of the
log on those that waited before it. A list that is being run stays as it is meanwhile. -/

namespace ObjectRuntime

/-- What a run does to the handlers that wait. -/
inductive Event
  | registers (handler : Val)
  | takes

/-- The handlers that wait after a log, given those that waited before it. -/
def replay : List Val → List Event → List Val
  | waiting, [] => waiting
  | waiting, .registers handler :: log => replay (waiting ++ [handler]) log
  | _, .takes :: log => replay [] log

theorem replay_append (waiting : List Val) (first later : List Event) :
    replay waiting (first ++ later) = replay (replay waiting first) later := by
  induction first generalizing waiting with
  | nil => rfl
  | cons e rest ih => cases e <;> exact ih _

namespace Runtime

/-- A step of a run in which the lists `running` are being run. It writes to no list and keeps the
handler global, or it registers a handler that is there, or it founds a list where there is none. -/
inductive Allows (rt : Runtime) (running : List Ref) : {β : Type} → Action β → List Event → Prop
  | spares {β : Type} {action : Action β} (keeps : action.rebinds = false)
      (apart : ∀ r, action.writes? = some r → rt.handlerList? ≠ some r ∧ r ∉ running)
      (inside : action.letsGo = true → rt.atTopLevel = false) : Allows rt running action []
  | registers {l : Ref} {handler : Val} (named : rt.handlerList? = some l)
      (callable : handler.isCallable = true) (there : rt.heap.Holds handler) :
      Allows rt running (.push l handler) [.registers handler]
  | founds {l : Ref} (unnamed : rt.handlerList? = none) (empty : rt.Lists l [])
      (apart : l ∉ running) :
      Allows rt running (.setGlobal .atExitHandlers (.array l)) []

/-- These handlers wait in the list that the global names, or there is no list and none wait. -/
def Waiting (rt : Runtime) (handlers : List Val) : Prop :=
  (∃ l, rt.handlerList? = some l ∧ rt.Lists l handlers) ∨ rt.handlerList? = none ∧ handlers = []

/-- Handlers wait in a list that is not being run, and those that are being run are held. -/
structure Watched (rt : Runtime) (running : List Ref) (waiting : List Val) : Prop where
  heap : rt.heap.WellFormed
  waiting : rt.Waiting waiting
  apart : ∀ l, rt.handlerList? = some l → l ∉ running
  held : ∀ r ∈ running, .array r ∈ rt.handles ∧ ∃ handlers, rt.Lists r handlers

/-- A run with this log: the lists that are being run are as they were. -/
structure Follows (running : List Ref) (waiting : List Val) (rt : Runtime) (log : List Event)
    (rt' : Runtime) : Prop where
  watched : rt'.Watched running (replay waiting log)
  still : ∀ r ∈ running, ∀ handlers, rt.Lists r handlers → rt'.Lists r handlers

/-- The list is held, and a new one takes its place in the global. -/
def detach (rt : Runtime) (l : Ref) : Runtime :=
  match (rt.hold (.array l)).alloc (.array CoreClass.array.ref #[]) with
  | (fresh, rt) => rt.setGlobal .atExitHandlers (.array fresh)

variable {rt rt' rt'' : Runtime} {running : List Ref} {waiting : List Val} {l : Ref}
  {first log : List Event}

theorem Follows.refl (watched : rt.Watched running waiting) : Follows running waiting rt [] rt :=
  ⟨watched, fun _ _ _ => id⟩

theorem Follows.trans (before : Follows running waiting rt first rt')
    (after : Follows running (replay waiting first) rt' log rt'') :
    Follows running waiting rt (first ++ log) rt'' where
  watched := by
    rw [replay_append]
    exact after.watched
  still r member handlers lists :=
    after.still r member handlers (before.still r member handlers lists)

theorem Waiting.keep (before : rt.Waiting waiting) (registry : rt'.handlerList? = rt.handlerList?)
    (list : ∀ l, rt.handlerList? = some l → rt.Lists l waiting → rt'.Lists l waiting) :
    rt'.Waiting waiting := by
  rcases before with ⟨l, named, lists⟩ | ⟨unnamed, none⟩
  · exact .inl ⟨l, registry.trans named, list l named lists⟩
  · exact .inr ⟨registry.trans unnamed, none⟩

theorem Watched.keep (watched : rt.Watched running waiting) (heap : rt'.heap.WellFormed)
    (registry : rt'.handlerList? = rt.handlerList?) (waits : rt'.Waiting (replay waiting log))
    (held : ∀ r ∈ running, .array r ∈ rt'.handles)
    (still : ∀ r ∈ running, ∀ handlers, rt.Lists r handlers → rt'.Lists r handlers) :
    Follows running waiting rt log rt' := by
  refine ⟨⟨heap, waits, fun l named => ?_, fun r member => ?_⟩, still⟩
  · exact watched.apart l (registry.symm.trans named)
  · obtain ⟨-, handlers, lists⟩ := watched.held r member
    exact ⟨held r member, handlers, still r member handlers lists⟩

theorem Watched.aside (watched : rt.Watched running waiting) (same : SameCells rt rt')
    (globals : rt'.globals = rt.globals) (held : ∀ r ∈ running, .array r ∈ rt'.handles) :
    Follows running waiting rt [] rt' := by
  have registry : rt'.handlerList? = rt.handlerList? := by
    simp only [handlerList?, getGlobal, globals]
  exact watched.keep (same.wellFormed watched.heap) registry
    (watched.waiting.keep registry fun l _ lists => lists.aside same) held
    fun r _ handlers lists => lists.aside same

theorem Watched.beside (watched : rt.Watched running waiting) (same : SameCells rt rt')
    (globals : rt'.globals = rt.globals) (handles : rt'.handles = rt.handles) :
    Follows running waiting rt [] rt' :=
  watched.aside same globals fun r member => handles ▸ (watched.held r member).1

/-! ## Steps -/

theorem Allows.resumes {β : Type} {action : Action β} {entry : List Event}
    (allows : rt.Allows running action entry) : rt.Resumes (action.run rt).2 := by
  refine (Extends.act action rt ?_).toResumes
  cases allows with
  | spares _ _ inside => exact inside
  | registers => exact fun same => by cases same
  | founds => exact fun same => by cases same

theorem Lists.push (lists : rt.Lists l waiting) {handler : Val}
    (callable : handler.isCallable = true) (there : rt.heap.Holds handler) :
    (rt.modifyElements l (·.push handler)).Lists l (waiting ++ [handler]) where
  elements := by
    obtain ⟨cls, found⟩ := elements?_eq_some.mp lists.elements
    refine elements?_eq_some.mpr ⟨cls, ?_⟩
    simp [modifyElements, modifyCell, Heap.cell?_modify, found]
  there h member := by
    have kept (v : Val) : (rt.modifyElements l (·.push handler)).heap.Holds v ↔ rt.heap.Holds v :=
      Heap.holds_modify (fun c => by cases c <;> rfl) v
    rw [kept]
    rcases List.mem_append.mp member with old | new
    · exact lists.there h old
    · rw [List.mem_singleton.mp new]
      exact ⟨callable, there⟩

theorem Watched.spare (watched : rt.Watched running waiting) {written : Option Ref}
    (spares : Spares written rt rt') (apart : ∀ r ∈ running, written ≠ some r)
    (waits : rt'.Waiting (replay waiting log)) : Follows running waiting rt log rt' :=
  watched.keep (spares.heap watched.heap) spares.registry waits
    (fun r member => spares.handles _ (watched.held r member).1) fun r member handlers =>
      spares.list watched.heap r handlers (.inr (watched.held r member).1) (apart r member)

theorem Watched.lists (watched : rt.Watched running waiting) (named : rt.handlerList? = some l) :
    rt.Lists l waiting := by
  rcases watched.waiting with ⟨l', named', lists⟩ | ⟨unnamed, -⟩
  · cases named.symm.trans named'
    exact lists
  · cases unnamed.symm.trans named

theorem watched_setGlobal {handlers : List Val} (wf : rt.heap.WellFormed)
    (lists : rt.Lists l handlers) (apart : l ∉ running)
    (held : ∀ r ∈ running, .array r ∈ rt.handles ∧ ∃ handlers, rt.Lists r handlers) :
    (rt.setGlobal .atExitHandlers (.array l)).Watched running handlers := by
  have named : (rt.setGlobal .atExitHandlers (.array l)).handlerList? = some l :=
    handlerList?_eq_some.mpr (Table.get?_insert_self ..)
  refine ⟨wf, .inl ⟨l, named, lists.aside ⟨rfl, rfl, rfl⟩⟩, fun l' named' => ?_, fun r member => ?_⟩
  · cases named.symm.trans named'
    exact apart
  · obtain ⟨held, handlers, lists⟩ := held r member
    exact ⟨held, handlers, lists.aside ⟨rfl, rfl, rfl⟩⟩

/-- Under every step that is allowed the handlers wait that its log says. -/
theorem Watched.act (watched : rt.Watched running waiting) {β : Type} {action : Action β}
    (allows : rt.Allows running action log) : Follows running waiting rt log (action.run rt).2 := by
  cases allows with
  | spares keeps apart inside =>
    have spares : Spares action.writes? rt (action.run rt).2 := spares_act keeps inside
    refine watched.spare spares (fun r member same => (apart r same).2 member)
      (watched.waiting.keep spares.registry fun l named => ?_)
    exact spares.list watched.heap l _ (.inl named) fun same => (apart l same).1 named
  | @registers l handler named callable there =>
    refine watched.spare (spares_act rfl fun same => by cases same) ?_ ?_
    · rintro r member same
      cases same
      exact watched.apart l named member
    · exact .inl ⟨l, named, (watched.lists named).push callable there⟩
  | @founds l unnamed empty apart =>
    rcases watched.waiting with ⟨l', named, -⟩ | ⟨-, rfl⟩
    · cases unnamed.symm.trans named
    · exact ⟨watched_setGlobal watched.heap empty apart watched.held, fun _ _ _ lists =>
        lists.aside ⟨rfl, rfl, rfl⟩⟩

/-! ## Taking the list -/

theorem alloc_apart (wf : rt.heap.WellFormed) (anchored : rt.Anchored l) {handlers : List Val}
    (lists : rt.Lists l handlers) (c : Cell) : (rt.alloc c).1 ≠ l := by
  have room : Spares none rt rt.room := .room rt
  obtain ⟨cls, found⟩ :=
    elements?_eq_some.mp (room.list wf l handlers anchored (by simp) lists).elements
  rintro rfl
  rw [alloc_eq, place_fresh (room.heap wf)] at found
  cases found

/-- A list that is about to be run is held like those that are being run. -/
theorem Watched.hold (watched : rt.Watched running waiting) (named : rt.handlerList? = some l) :
    ∀ r ∈ l :: running, .array r ∈ (rt.hold (.array l)).handles ∧
      ∃ handlers, (rt.hold (.array l)).Lists r handlers := by
  have holds : Spares none rt (rt.hold (.array l)) := .hold rt (.array l)
  intro r member
  rcases List.mem_cons.mp member with rfl | member
  · refine ⟨?_, waiting, holds.list watched.heap r _ (.inl named) (by simp) (watched.lists named)⟩
    rw [handles_hold]
    exact Array.mem_append.mpr (.inr (by simp [handleOf, Val.isImmediate]))
  · obtain ⟨held, handlers, lists⟩ := watched.held r member
    exact ⟨holds.handles _ held, handlers,
      holds.list watched.heap r handlers (.inr held) (by simp) lists⟩

/-- Once the list is taken no handler waits, and no list that is being run has changed. -/
theorem Watched.detach (watched : rt.Watched running waiting) (named : rt.handlerList? = some l) :
    (rt.detach l).Watched (l :: running) [] ∧
      ∀ r handlers, rt.Anchored r → rt.Lists r handlers → (rt.detach l).Lists r handlers := by
  have holds : Spares none rt (rt.hold (.array l)) := .hold rt (.array l)
  -- the list is held when the new one is made, so that no collection frees it
  have makes : Spares none (rt.hold (.array l))
      ((rt.hold (.array l)).alloc (.array CoreClass.array.ref #[])).2 := .alloc ..
  have wf := holds.heap watched.heap
  have held := watched.hold named
  refine ⟨watched_setGlobal (makes.heap wf) ⟨?_, by simp⟩ (fun member => ?_) fun r member => ?_,
    fun r handlers anchored lists => ?_⟩
  · exact elements?_eq_some.mpr ⟨_, cell?_alloc_self wf _⟩
  · obtain ⟨kept, handlers, lists⟩ := held _ member
    exact alloc_apart wf (.inr kept) lists _ rfl
  · obtain ⟨kept, handlers, lists⟩ := held r member
    exact ⟨makes.handles _ kept, handlers, makes.list wf r handlers (.inr kept) (by simp) lists⟩
  · exact ((holds.trans makes).list watched.heap r handlers anchored (by simp) lists).aside
      ⟨rfl, rfl, rfl⟩

theorem Watched.drained (watched : rt.Watched running waiting) (named : rt.handlerList? = some l)
    (inside : (rt.detach l).Watched (l :: running) [] →
      Follows (l :: running) [] (rt.detach l) log rt') :
    Follows running waiting rt (.takes :: log) rt' := by
  obtain ⟨taken, kept⟩ := watched.detach named
  obtain ⟨after, still⟩ := inside taken
  refine ⟨⟨after.heap, after.waiting, fun l' named' member => ?_, fun r member => ?_⟩,
    fun r member handlers lists => ?_⟩
  · exact after.apart l' named' (List.mem_cons_of_mem _ member)
  · exact after.held r (List.mem_cons_of_mem _ member)
  · exact still r (List.mem_cons_of_mem _ member) handlers
      (kept r handlers (.inr (watched.held r member).1) lists)

theorem resumes_detach (rt : Runtime) (l : Ref) : Resumes (rt.hold (.array l)) (rt.detach l) := by
  have named (rt : Runtime) (v : Val) : Extends rt (rt.setGlobal .atExitHandlers v) :=
    .aside ⟨⟨rfl, rfl, rfl⟩, rfl⟩ ⟨rfl, rfl⟩ rfl
  exact (Extends.trans (.alloc ..) (named _ _)).toResumes

/-! ## Calls and scopes -/

theorem Watched.move (watched : rt.Watched running waiting) (move : Move)
    (other : move.isAct = false) (held : ∀ r ∈ running, .array r ∈ (move.run rt).2.handles) :
    Follows running waiting rt [] (move.run rt).2 := by
  have same : (move.run rt).2 = _ := aside_move other
  refine watched.aside ?_ ?_ held
  · constructor <;> rw [same]
  · rw [same]

/-- A call or a scope around a run: it begins with the lists as they are, and it is left by a move
that keeps the handles of those around it. -/
theorem Watched.around {begun left : Runtime} (watched : rt.Watched running waiting) (move : Move)
    (begins : Follows running waiting rt [] begun)
    (inside : begun.Watched running waiting → Follows running waiting begun log left)
    (other : move.isAct = false) (resumes : rt.Resumes (move.run left).2) :
    Follows running waiting rt log (move.run left).2 := by
  have ran := begins.trans (inside begins.watched)
  have closed := ran.watched.move move other fun r member =>
    resumes.mem_handles (watched.held r member).1
  simpa using ran.trans closed

end Runtime

namespace Machine
variable {η : Type}

/-- Run the handlers of a list that is held, after a new list has taken its place. -/
def drain (registered : Ref) : Program η Unit := do
  let fresh ← Program.newArray []
  Program.setGlobal .atExitHandlers (.array fresh)
  let handlers ← Program.asks fun rt => (rt.elements? registered).getD #[]
  Program.runHandlers handlers.toList.reverse

/-- Once the list is taken out, its handlers are run. -/
theorem step_drain (caller : Caller η) (l : Ref) (rt : Runtime) (host : η) :
    step caller false (drain l) (rt.hold (.array l)) host =
      step caller false (Program.runHandlers (((rt.detach l).elements? l).getD #[]).toList.reverse)
        (rt.detach l) host := rfl

theorem runAtExitHandlers_eq : (Program.runAtExitHandlers : Program η Unit) = .read fun rt =>
    match rt.handlerList? with
    | some l => .holding (.array l) (drain l) .done
    | none => .done (.value ()) := by
  refine congrArg Program.read (funext fun rt => ?_)
  simp only [Runtime.handlerList?, Program.bind]
  generalize rt.getGlobal .atExitHandlers = global
  cases global with
  | cell k r => cases k <;> rfl
  | _ => rfl

/-- A run in which nothing panics and every step is allowed, with its log. It may run the handlers
that wait, and respects their list then too. -/
inductive Respects (code : CodeRef → Code η) : Nat → List Ref → {α : Type} → Program η α →
    Runtime → η → List Event → Outcome α → Runtime → η → Prop
  | done {budget : Nat} {running : List Ref} {α : Type} {outcome : Outcome α} {rt : Runtime}
      {host : η} (calm : outcome.isPanic = false) :
      Respects code budget running (.done outcome) rt host [] outcome rt host
  | read {budget : Nat} {running : List Ref} {α : Type} {next : Runtime → Program η α}
      {rt rt' : Runtime} {host host' : η} {log : List Event} {outcome : Outcome α}
      (rest : Respects code budget running (next rt) rt host log outcome rt' host') :
      Respects code budget running (.read next) rt host log outcome rt' host'
  | act {budget : Nat} {running : List Ref} {α β : Type} {action : Action β}
      {next : β → Program η α} {rt rt' : Runtime} {host host' : η} {entry log : List Event}
      {outcome : Outcome α} (allows : rt.Allows running action entry)
      (rest : Respects code budget running (next (action.run rt).1) (action.run rt).2 host log
        outcome rt' host') :
      Respects code budget running (.act action next) rt host (entry ++ log) outcome rt' host'
  | host {budget : Nat} {running : List Ref} {α β : Type} {f : η → β × η}
      {next : β → Program η α} {rt rt' : Runtime} {host host' : η} {log : List Event}
      {outcome : Outcome α}
      (rest : Respects code budget running (next (f host).1) rt (f host).2 log outcome rt' host') :
      Respects code budget running (.host f next) rt host log outcome rt' host'
  | refused {budget : Nat} {running : List Ref} {α : Type} {c : Call}
      {next : Outcome Val → Program η α} {rt rt' : Runtime} {host host' : η} {log : List Event}
      {outcome : Outcome α} (full : (rt.openFrame c).2.atLimit = true)
      (rest : Respects code budget running
        (next ((rt.openFrame c).2.refuseCall c rt.handles.size).1)
        ((rt.openFrame c).2.refuseCall c rt.handles.size).2 host log outcome rt' host') :
      Respects code budget running (.call c next) rt host log outcome rt' host'
  | call {budget : Nat} {running : List Ref} {α : Type} {c : Call}
      {next : Outcome Val → Program η α} {rt left rt' : Runtime} {host host₁ host' : η}
      {first log : List Event} {answer : Outcome Val} {outcome : Outcome α}
      (room : (rt.openFrame c).2.atLimit = false)
      (inner : Respects code budget running (body code (rt.openFrame c).2 (rt.openFrame c).1 c)
        ((rt.openFrame c).2.pushCall (rt.openFrame c).1) host first answer left host₁)
      (rest : Respects code (budget + 1) running (next (left.closeCall c rt.handles.size answer).1)
        (left.closeCall c rt.handles.size answer).2 host₁ log outcome rt' host') :
      Respects code (budget + 1) running (.call c next) rt host (first ++ log) outcome rt' host'
  | scope {budget : Nat} {running : List Ref} {α : Type} {body : Program η Val}
      {next : Outcome Val → Program η α} {rt left rt' : Runtime} {host host₁ host' : η}
      {first log : List Event} {answer : Outcome Val} {outcome : Outcome α}
      (inner : Respects code budget running body rt.enterScope host first answer left host₁)
      (rest : Respects code budget running (next answer) (left.leaveScope rt.handles.size answer)
        host₁ log outcome rt' host') :
      Respects code budget running (.scope body next) rt host (first ++ log) outcome rt' host'
  | ensure {budget : Nat} {running : List Ref} {α : Type} {body : Program η Val}
      {cleanup : Program η Unit} {next : Outcome Val → Program η α} {rt left left₁ rt' : Runtime}
      {host host₁ host₂ host' : η} {first second log : List Event} {answer : Outcome Val}
      {done : Outcome Unit} {outcome : Outcome α}
      (inner : Respects code budget running body rt host first answer left host₁)
      (cleaning : Respects code budget running cleanup left host₁ second done left₁ host₂)
      (rest : Respects code budget running (next answer) left₁ host₂ log outcome rt' host') :
      Respects code budget running (.ensure body cleanup next) rt host (first ++ second ++ log)
        outcome rt' host'
  | holding {budget : Nat} {running : List Ref} {α : Type} {v : Val} {body : Program η Unit}
      {next : Outcome Unit → Program η α} {rt left rt' : Runtime} {host host₁ host' : η}
      {first log : List Event} {answer : Outcome Unit} {outcome : Outcome α}
      (inner : Respects code budget running body (rt.hold v) host first answer left host₁)
      (rest : Respects code budget running (next answer) (left.letGo rt.handles.size answer) host₁
        log outcome rt' host') :
      Respects code budget running (.holding v body next) rt host (first ++ log) outcome rt' host'
  /-- The handlers that wait are run by the run itself. -/
  | rerun {budget : Nat} {running : List Ref} {α : Type} {l : Ref} {handlers : List Val}
      {next : Outcome Unit → Program η α} {rt left rt' : Runtime} {host host₁ host' : η}
      {first log : List Event} {answer : Outcome Unit} {outcome : Outcome α}
      (named : rt.handlerList? = some l) (lists : (rt.detach l).elements? l = some handlers.toArray)
      (inner : Respects code budget (l :: running) (Program.runHandlers handlers.reverse)
        (rt.detach l) host first answer left host₁)
      (rest : Respects code budget running (next answer) (left.letGo rt.handles.size answer) host₁
        log outcome rt' host') :
      Respects code budget running (.holding (.array l) (drain l) next) rt host
        (.takes :: (first ++ log)) outcome rt' host'

variable {code : CodeRef → Code η} {budget : Nat} {running : List Ref} {α : Type}
  {p : Program η α} {rt rt' : Runtime} {host host' : η} {log : List Event} {outcome : Outcome α}

theorem Respects.calm (run : Respects code budget running p rt host log outcome rt' host') :
    outcome.isPanic = false := by
  induction run with
  | done calm => exact calm
  | _ => assumption

/-- A run that respects the lists is the run of the machine. -/
theorem Respects.ended (run : Respects code budget running p rt host log outcome rt' host') :
    step (Machine.call code budget) false p rt host = .ended outcome rt' host' := by
  induction run with
  | done => rfl
  | read _ ih => exact ih
  | act _ _ ih => exact ih
  | host _ ih => exact ih
  | @refused budget _ _ c _ rt _ host _ _ _ full _ ih =>
    have called : Machine.call code budget false c rt host = .ended
        ((rt.openFrame c).2.refuseCall c rt.handles.size).1
        ((rt.openFrame c).2.refuseCall c rt.handles.size).2 host := by
      cases budget <;> simp only [Machine.call, full, if_true]
    simp only [step, called, ih]
  | @call budget _ _ c _ rt left _ host host₁ _ _ _ answer _ room _ _ inner ih =>
    have called : Machine.call code (budget + 1) false c rt host = .ended
        (left.closeCall c rt.handles.size answer).1
        (left.closeCall c rt.handles.size answer).2 host₁ := by
      simp only [Machine.call, room, Bool.false_eq_true, if_false, inner]
    simp only [step, called, ih]
  | scope _ _ inner ih => simp only [step, inner, ih]
  | @ensure _ _ _ _ _ _ _ _ _ _ _ _ _ _ _ _ _ answer done _ first second _ inner cleaning ih =>
    simp only [step, inner, first.calm, Bool.or_false, Bool.false_eq_true, if_false, cleaning]
    cases done with
    | panic message => cases second.calm
    | _ => exact ih
  | holding _ _ inner ih => simp only [step, inner, ih]
  | @rerun budget _ _ l _ _ rt _ _ host _ _ _ _ _ _ _ lists _ _ inner ih =>
    have drained := step_drain (Machine.call code budget) l rt host
    rw [lists, Option.getD_some, inner] at drained
    simp only [step, drained, ih]

/-- A run that respects the lists leaves the calls and scopes that it found. -/
theorem Respects.resumes (run : Respects code budget running p rt host log outcome rt' host') :
    rt.Resumes rt' := by
  induction run with
  | done => exact .refl _
  | read _ ih => exact ih
  | act allows _ ih => exact allows.resumes.trans ih
  | host _ ih => exact ih
  | refused _ _ ih => exact (Runtime.balanced_refuseCall _ _).toResumes.trans ih
  | call _ first _ inner ih => exact (inner.closeCall first.calm).toResumes.trans ih
  | scope first _ inner ih => exact (inner.leaveScope first.calm).toResumes.trans ih
  | ensure _ _ _ inner cleaning ih => exact (inner.trans cleaning).trans ih
  | holding first _ inner ih => exact (inner.letGo first.calm).trans ih
  | rerun _ _ first _ inner ih =>
    exact (((Runtime.resumes_detach _ _).trans inner).letGo first.calm).trans ih

/-- After a run the handlers wait that its log says. -/
theorem Respects.follows (run : Respects code budget running p rt host log outcome rt' host')
    {waiting : List Val} (watched : rt.Watched running waiting) :
    Runtime.Follows running waiting rt log rt' := by
  induction run generalizing waiting with
  | done => exact .refl watched
  | read _ ih => exact ih watched
  | act allows _ ih =>
    have first := watched.act allows
    exact first.trans (ih first.watched)
  | host _ ih => exact ih watched
  | @refused _ _ _ c _ rt _ _ _ _ _ _ _ ih =>
    have opened : Runtime.Follows _ waiting rt [] (rt.openFrame c).2 :=
      watched.beside ⟨rfl, rfl, rfl⟩ rfl rfl
    have first := watched.around (.refuseCall c rt.handles.size) opened .refl rfl
      (rt.balanced_refuseCall c).toResumes
    exact first.trans (ih first.watched)
  | @call _ _ _ c _ rt left _ _ _ _ _ _ answer _ _ run _ inner ih =>
    have opened : Runtime.Follows _ waiting rt []
        ((rt.openFrame c).2.pushCall (rt.openFrame c).1) :=
      watched.beside ⟨rfl, rfl, rfl⟩ rfl rfl
    have first := watched.around (.closeCall c rt.handles.size answer) opened inner rfl
      (run.resumes.closeCall run.calm).toResumes
    exact first.trans (ih first.watched)
  | @scope _ _ _ _ _ rt left _ _ _ _ _ _ answer _ run _ inner ih =>
    have entered : Runtime.Follows _ waiting rt [] rt.enterScope :=
      watched.beside ⟨rfl, rfl, rfl⟩ rfl rfl
    have first := watched.around (.leaveScope rt.handles.size answer) entered inner rfl
      (run.resumes.leaveScope run.calm).toResumes
    exact first.trans (ih first.watched)
  | ensure _ _ _ inner cleaning ih =>
    have first := inner watched
    have second := first.trans (cleaning first.watched)
    exact second.trans (ih second.watched)
  | @holding _ _ _ v _ _ rt left _ _ _ _ _ _ answer _ run _ inner ih =>
    have held : Runtime.Follows _ waiting rt [] (rt.hold v) :=
      watched.act (.spares rfl nofun nofun : rt.Allows _ (.hold v) [])
    have first := watched.around (.letGo rt.handles.size answer) held inner rfl
      (run.resumes.letGo run.calm)
    exact first.trans (ih first.watched)
  | @rerun _ running _ l _ _ rt left _ _ _ _ _ _ answer _ named _ run _ inner ih =>
    -- the list that was run is let go of, those that are being run around it are not
    have resumed := ((rt.resumes_detach l).trans run.resumes).letGo run.calm
    have drained := watched.drained named inner
    have closed := drained.watched.move (.letGo rt.handles.size answer) rfl
      fun r member => resumed.mem_handles (watched.held r member).1
    have first := drained.trans closed
    rw [List.append_nil] at first
    exact first.trans (ih first.watched)

/-- A handler that is there may be registered. -/
theorem Respects.register {handler : Val} {l : Ref} {next : Unit → Program η α}
    (named : rt.handlerList? = some l) (callable : handler.isCallable = true)
    (there : rt.heap.Holds handler)
    (rest : Respects code budget running (next ()) (rt.modifyElements l (·.push handler)) host log
      outcome rt' host') :
    Respects code budget running ((Program.atExit handler).bind next) rt host
      (.registers handler :: log) outcome rt' host' := by
  have global : rt.getGlobal .atExitHandlers = .array l := by
    simp only [Runtime.getGlobal, Runtime.handlerList?_eq_some.mp named, Option.getD_some]
  unfold Program.atExit
  unfold Val.isCallable at callable
  rw [if_pos callable]
  refine .read ?_
  simp only [Program.bind, global]
  exact .act (.registers named callable there) rest

/-- The handlers that wait may be run, by a handler that is being run as by any other code. -/
theorem Respects.again {l : Ref} {handlers : List Val} {next : Unit → Program η α} {left : Runtime}
    {host₁ : η} {first : List Event} (named : rt.handlerList? = some l)
    (lists : (rt.detach l).elements? l = some handlers.toArray)
    (inner : Respects code budget (l :: running) (Program.runHandlers handlers.reverse)
      (rt.detach l) host first (.value ()) left host₁)
    (rest : Respects code budget running (next ()) (left.letGo rt.handles.size (.value ())) host₁
      log outcome rt' host') :
    Respects code budget running (Program.runAtExitHandlers.bind next) rt host
      (.takes :: (first ++ log)) outcome rt' host' := by
  rw [runAtExitHandlers_eq]
  refine .read ?_
  simp only [named]
  exact .rerun named lists inner rest

end Machine
end ObjectRuntime
