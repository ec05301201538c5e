import ObjectRuntime.Proofs.Cleanup
import ObjectRuntime.Proofs.Leavings
import ObjectRuntime.Proofs.Sheltering

/-! What outlives a cleanup. Nothing holds the value of a body while its cleanup runs, other than
what holds it anyway: the handles, when the body made it or had it from a call, or whatever the body
read it from. It outlives the cleanup as long as it is reached all along. -/

namespace ObjectRuntime

namespace Runtime.Retains
variable {rt rt' : Runtime} {loosely looser : Prop}

theorem weaken (retains : Retains rt rt' loosely) (loose : loosely → looser) :
    Retains rt rt' looser :=
  retains.trans (.refl rt' False) loose False.elim

/-- Nothing is let go of within a scope. -/
theorem within (retains : Retains rt.enterScope rt' loosely) : Retains rt rt' looser where
  calls := retains.calls
  scopes := Nat.le_of_succ_le retains.scopes
  limit := retains.limit
  handles := .inl (retains.inside (by simp [Runtime.atTopLevel, enterScope]))

theorem openFrame (rt : Runtime) (c : Call) : Retains rt (rt.openFrame c).2 False :=
  ⟨⟨⟨#[], by simp [Runtime.openFrame]⟩, le_rfl, rfl⟩, .inl ⟨#[], by simp [Runtime.openFrame]⟩⟩

/-- Nothing is let go of within a call. -/
theorem running {c : Call}
    (retains : Retains ((rt.openFrame c).2.pushCall (rt.openFrame c).1) rt' loosely) :
    Retains rt rt' looser where
  toStandsOn := (pushCall rt c).trans retains.toStandsOn
  handles := .inl (retains.inside (by simp [Runtime.atTopLevel, Runtime.pushCall]))

theorem mem_handles (retains : Retains rt rt' loosely) (firm : ¬ (rt.atTopLevel = true ∧ loosely))
    {v : Val} (held : v ∈ rt.handles) : v ∈ rt'.handles := by
  obtain ⟨more, same⟩ := retains.handles.resolve_right firm
  rw [same]
  exact Array.mem_append.mpr (.inl held)

end Runtime.Retains

namespace Machine
variable {η α β : Type} {caller : Caller η} {within : Course η} {unwinding : Bool}
  {rt rt' left : Runtime} {host host' : η} {outcome : Outcome α}

/-! ## What a run keeps while something holds -/

theorem at_end {P : Runtime → Prop} {p : Program η α}
    (ended : step caller unwinding p rt host = .ended outcome rt' host')
    (each : ∀ m ∈ trace caller within unwinding p rt host, P m.rt) : P rt' := by
  obtain ⟨init, same⟩ := trace_ends within ended
  exact each ⟨0, rt', outcome.isPanic⟩ (by simp [same])

theorem heap_cleanup (unwound : Bool) (rt left : Runtime) :
    (cleanupState unwound rt left).heap = left.heap := by
  unfold cleanupState
  split <;> rfl

/-- What primitive steps keep of the heap where something holds, a program keeps at every moment when
that holds at every moment. -/
theorem trace_keeps_while {I : Heap → Prop} {Q : Runtime → Prop}
    (acts : ∀ {γ : Type} (action : Action γ) rt, Q rt → I rt.heap → I (action.run rt).2.heap)
    (calls : ∀ unwinding c rt host answer left host',
      caller unwinding c rt host = .ended answer left host' →
      (∀ m ∈ within unwinding c rt host, Q m.rt) → I rt.heap → I left.heap)
    (inside : ∀ unwinding c rt host, (∀ m ∈ within unwinding c rt host, Q m.rt) → I rt.heap →
      ∀ m ∈ within unwinding c rt host, I m.rt.heap)
    (p : Program η α) (always : ∀ m ∈ trace caller within unwinding p rt host, Q m.rt)
    (before : I rt.heap) : ∀ m ∈ trace caller within unwinding p rt host, I m.rt.heap := by
  induction p generalizing unwinding rt host with
  | done o => exact List.forall_mem_singleton.mpr before
  | endless => exact List.forall_mem_singleton.mpr before
  | read next ih => exact ih rt always before
  | host f next ih => exact ih (f host).1 always before
  | act action next ih =>
    obtain ⟨now, later⟩ := List.forall_mem_cons.mp always
    exact List.forall_mem_cons.mpr ⟨before, ih _ later (acts action rt now before)⟩
  | call c next ih =>
    obtain ⟨-, behind⟩ := List.forall_mem_cons.mp always
    obtain ⟨inner, later⟩ := List.forall_mem_append.mp behind
    have inner := List.forall_mem_map.mp inner
    refine List.forall_mem_cons.mpr ⟨before, List.forall_mem_append.mpr
      ⟨List.forall_mem_map.mpr (inside unwinding c rt host inner before),
        Run.forall_mem_follow.mpr fun answer left host₁ called => ?_⟩⟩
    exact ih answer (Run.forall_mem_follow.mp later answer left host₁ called)
      (calls unwinding c rt host answer left host₁ called inner before)
  | scope body next first ih =>
    obtain ⟨-, behind⟩ := List.forall_mem_cons.mp always
    obtain ⟨inner, later⟩ := List.forall_mem_append.mp behind
    have inner := List.forall_mem_map.mp inner
    have kept := first inner before
    refine List.forall_mem_cons.mpr ⟨before, List.forall_mem_append.mpr
      ⟨List.forall_mem_map.mpr kept, Run.forall_mem_follow.mpr fun answer left host₁ ran => ?_⟩⟩
    have same : (left.leaveScope rt.handles.size answer).heap = left.heap :=
      @Runtime.heap_move left (.leaveScope rt.handles.size answer) rfl
    exact ih answer (Run.forall_mem_follow.mp later answer left host₁ ran)
      (same ▸ at_end (P := fun rt => I rt.heap) ran kept)
  | holding v body next first ih =>
    obtain ⟨now, behind⟩ := List.forall_mem_cons.mp always
    obtain ⟨inner, later⟩ := List.forall_mem_append.mp behind
    have inner := List.forall_mem_map.mp inner
    have kept := first inner (acts (.hold v) rt now before)
    refine List.forall_mem_cons.mpr ⟨before, List.forall_mem_append.mpr
      ⟨List.forall_mem_map.mpr kept, Run.forall_mem_follow.mpr fun answer left host₁ ran => ?_⟩⟩
    have same : (left.letGo rt.handles.size answer).heap = left.heap :=
      @Runtime.heap_move left (.letGo rt.handles.size answer) rfl
    exact ih answer (Run.forall_mem_follow.mp later answer left host₁ ran)
      (same ▸ at_end (P := fun rt => I rt.heap) ran kept)
  | ensure body cleanup next first second ih =>
    obtain ⟨inner, behind⟩ := List.forall_mem_append.mp always
    have kept := first inner before
    refine List.forall_mem_append.mpr ⟨kept,
      Run.forall_mem_follow.mpr fun answer left host₁ ran => ?_⟩
    obtain ⟨cleaning, later⟩ := List.forall_mem_append.mp
      (Run.forall_mem_follow.mp behind answer left host₁ ran)
    have start : I (cleanupState (unwinding || answer.isPanic) rt left).heap :=
      heap_cleanup (unwinding || answer.isPanic) rt left ▸
        at_end (P := fun rt => I rt.heap) ran kept
    have cleaned := second cleaning start
    refine List.forall_mem_append.mpr ⟨cleaned,
      Run.forall_mem_follow.mpr fun done left₁ host₂ went => ?_⟩
    exact ih (ensured answer done) (Run.forall_mem_follow.mp later done left₁ host₂ went)
      (at_end (P := fun rt => I rt.heap) went cleaned)

theorem course_keeps_while {I : Heap → Prop} {Q : Runtime → Prop} (code : CodeRef → Code η)
    (acts : ∀ {γ : Type} (action : Action γ) rt, Q rt → I rt.heap → I (action.run rt).2.heap)
    (budget : Nat) (unwinding : Bool) (c : Call) (rt : Runtime) (host : η)
    (always : ∀ m ∈ course code budget unwinding c rt host, Q m.rt) (before : I rt.heap) :
    (∀ m ∈ course code budget unwinding c rt host, I m.rt.heap) ∧
      ∀ answer left host', call code budget unwinding c rt host = .ended answer left host' →
        I left.heap := by
  induction budget generalizing unwinding c rt host with
  | zero =>
    simp only [course, call, ite_self]
    refine ⟨List.forall_mem_singleton.mpr before, fun answer left host' ended => ?_⟩
    split at ended
    next =>
      cases ended
      exact before
    next => cases ended
  | succ budget ih =>
    simp only [course, call] at always ⊢
    split
    next =>
      refine ⟨List.forall_mem_singleton.mpr before, fun answer left host' ended => ?_⟩
      cases ended
      exact before
    next room =>
      rw [if_neg room] at always
      have kept := trace_keeps_while acts
        (fun unwinding c rt host answer left host' ended always before =>
          (ih unwinding c rt host always before).2 answer left host' ended)
        (fun unwinding c rt host always before => (ih unwinding c rt host always before).1)
        _ always before
      refine ⟨kept, fun answer left host' ended => ?_⟩
      split at ended
      next outcome ran host₁ inner =>
        cases ended
        have same : (ran.closeCall c rt.handles.size outcome).2.heap = ran.heap :=
          @Runtime.heap_move ran (.closeCall c rt.handles.size outcome) rfl
        exact same ▸ at_end (P := fun rt => I rt.heap) inner kept
      next => cases ended
      next => cases ended

/-- A cell that is reached at every moment of a run is there at every moment. -/
theorem isLive_while {k : Kind} {r : Ref} (code : CodeRef → Code η) (budget : Nat)
    (p : Program η α) (wf : rt.heap.WellFormed)
    (always : ∀ m ∈ trace (call code budget) (course code budget) unwinding p rt host,
      m.rt.Reaches (.cell k r))
    (live : rt.heap.isLive r) :
    ∀ m ∈ trace (call code budget) (course code budget) unwinding p rt host,
      m.rt.heap.isLive r := by
  have acts {γ : Type} (action : Action γ) (rt : Runtime) (reached : rt.Reaches (.cell k r))
      (before : rt.heap.WellFormed ∧ rt.heap.isLive r) :
      (action.run rt).2.heap.WellFormed ∧ (action.run rt).2.heap.isLive r :=
    ⟨Runtime.wellFormed_act action before.1, Runtime.isLive_act before.1 action reached before.2⟩
  have inside := course_keeps_while (I := fun h => h.WellFormed ∧ h.isLive r) code acts budget
  have kept := trace_keeps_while (I := fun h => h.WellFormed ∧ h.isLive r) acts
    (fun unwinding c rt host answer left host' ended always before =>
      (inside unwinding c rt host always before).2 answer left host' ended)
    (fun unwinding c rt host always before => (inside unwinding c rt host always before).1)
    p always ⟨wf, live⟩
  exact fun m member => (kept m member).2

/-! ## What is retained at every moment -/

/-- A program retains what it finds at every moment on its way, when the calls it makes do. -/
theorem trace_retains (keeping : ∀ unwinding c rt host answer left host',
      caller unwinding c rt host = .ended answer left host' → Runtime.Retains rt left False)
    (inside : ∀ unwinding c rt host, ∀ m ∈ within unwinding c rt host,
      Runtime.Retains rt m.rt False)
    (p : Program η α) (unwinding : Bool) (rt : Runtime) (host : η) :
    ∀ m ∈ trace caller within unwinding p rt host,
      Runtime.Retains rt m.rt (LetsGo caller unwinding p rt host) := by
  induction p generalizing unwinding rt host with
  | done o => exact List.forall_mem_singleton.mpr (.refl rt _)
  | endless => exact List.forall_mem_singleton.mpr (.refl rt _)
  | read next ih => exact ih rt unwinding rt host
  | host f next ih => exact ih (f host).1 unwinding rt (f host).2
  | act action next ih =>
    refine List.forall_mem_cons.mpr ⟨.refl rt _, fun m later => ?_⟩
    exact (Runtime.Retains.act action rt).trans (ih _ _ _ _ m later) .inl .inr
  | call c next ih =>
    refine List.forall_mem_cons.mpr ⟨.refl rt _, List.forall_mem_append.mpr
      ⟨List.forall_mem_map.mpr fun m inner => ?_, fun m later => ?_⟩⟩
    · exact (inside unwinding c rt host m inner).weaken False.elim
    · obtain ⟨answer, left, host₁, called, later⟩ := Run.mem_follow.mp later
      rw [LetsGo, called]
      exact (keeping unwinding c rt host answer left host₁ called).trans
        (ih answer unwinding left host₁ m later) False.elim id
  | scope body next first ih =>
    refine List.forall_mem_cons.mpr ⟨.refl rt _, List.forall_mem_append.mpr
      ⟨List.forall_mem_map.mpr fun m inner => ?_, fun m later => ?_⟩⟩
    · exact (first unwinding rt.enterScope host m inner).within
    · obtain ⟨answer, left, host₁, ran, later⟩ := Run.mem_follow.mp later
      rw [LetsGo, ran]
      exact ((step_retains keeping body ran).leaveScope answer).trans
        (ih answer unwinding _ host₁ m later) False.elim id
  | holding v body next first ih =>
    refine List.forall_mem_cons.mpr ⟨.refl rt _, List.forall_mem_append.mpr
      ⟨List.forall_mem_map.mpr fun m inner => ?_, fun m later => ?_⟩⟩
    · exact ((Runtime.Retains.hold rt v False).trans (first unwinding (rt.hold v) host m inner)
        False.elim .inl)
    · obtain ⟨answer, left, host₁, ran, later⟩ := Run.mem_follow.mp later
      rw [LetsGo, ran]
      exact ((step_retains keeping body ran).letGo answer).trans
        (ih answer unwinding _ host₁ m later) .inl .inr
  | ensure body cleanup next first second ih =>
    refine List.forall_mem_append.mpr ⟨fun m inner => (first unwinding rt host m inner).weaken .inl,
      fun m behind => ?_⟩
    obtain ⟨answer, left, host₁, ran, behind⟩ := Run.mem_follow.mp behind
    have unwound := (step_retains keeping body ran).cleanup (unwinding || answer.isPanic)
    simp only [LetsGo, ran, Run.leads]
    rcases List.mem_append.mp behind with cleaning | later
    · exact unwound.trans (second _ _ _ m cleaning) .inl fun loose => .inr (.inl loose)
    · obtain ⟨done, left₁, host₂, cleaned, later⟩ := Run.mem_follow.mp later
      simp only [cleaned]
      exact unwound.trans ((step_retains keeping cleanup cleaned).trans
        (ih (ensured answer done) unwinding left₁ host₂ m later) .inl .inr) .inl .inr

theorem course_retains (code : CodeRef → Code η) (budget : Nat) (unwinding : Bool) (c : Call)
    (rt : Runtime) (host : η) :
    ∀ m ∈ course code budget unwinding c rt host, Runtime.Retains rt m.rt False := by
  induction budget generalizing unwinding c rt host with
  | zero =>
    simp only [course, ite_self]
    exact List.forall_mem_singleton.mpr (.openFrame rt c)
  | succ budget ih =>
    simp only [course]
    split
    next => exact List.forall_mem_singleton.mpr (.openFrame rt c)
    next =>
      intro m member
      exact (trace_retains (call_retains code budget) ih _ unwinding _ host m member).running

/-! ## Results that are held -/

/-- A program that answers with a cell that it makes last, or has from a call or a sending, or from a
scope that something encloses. There it may also have it earlier. -/
inductive Obtains (enclosed : Prop) : Program η Val → Prop
  | making {action : Action Ref} {k : Kind}
      (makes : ∀ rt, ∃ c : Cell, c.kind = k ∧ action.run rt = rt.alloc c) :
      Obtains enclosed (Program.perform action >>= fun r => pure (.cell k r))
  | calling (c : Call) : Obtains enclosed (Program.invoke c)
  | sending (s : Sending) : Obtains enclosed s.program
  | scope (body : Program η Val) (inside : enclosed) : Obtains enclosed (Program.inScope body)
  | behind {γ : Type} (p : Program η γ) {f : γ → Program η Val}
      (each : ∀ c, Obtains enclosed (f c)) : Obtains enclosed (p >>= f)
  | before {γ : Type} {p : Program η Val} (obtains : Obtains enclosed p) (q : Val → Program η γ)
      (inside : enclosed) : Obtains enclosed (p >>= fun v => q v >>= fun _ => pure v)

theorem Obtains.held {enclosed : Prop} {body : Program η Val} (obtains : Obtains enclosed body)
    (code : CodeRef → Code η) (budget : Nat) {k : Kind} {r : Ref}
    (inside : enclosed → rt.atTopLevel = false)
    (ended : step (call code budget) unwinding body rt host =
      .ended (.value (.cell k r)) rt' host') : .cell k r ∈ rt'.handles := by
  have last {rt rt' : Runtime} (handles : rt'.handles = rt.handles ++ #[Val.cell k r]) :
      Val.cell k r ∈ rt'.handles := by
    rw [handles]
    exact Array.mem_append.mpr (.inr (Array.mem_singleton.mpr rfl))
  induction obtains generalizing rt host rt' host' with
  | @making action k' makes =>
    obtain ⟨c, kind, made⟩ := makes rt
    have course : step (call code budget) unwinding
        (Program.perform action >>= fun r => pure (Val.cell k' r)) rt host =
          .ended (.value (Val.cell k' (action.run rt).1)) (action.run rt).2 host := rfl
    rw [course, made] at ended
    cases ended
    exact kind ▸ Runtime.alloc_held rt c
  | calling c => exact last (handles_invoke code ended rfl)
  | sending s =>
    have handles := handles_sending code s ended rfl
    split at handles
    next =>
      obtain ⟨⟨e, failed⟩, -⟩ := handles
      cases failed
    next => exact last handles
  | scope body enclosed =>
    have handles := handles_inScope code ended rfl
    have stands := (step_retains (call_retains code budget) _ ended).toStandsOn
    rw [stands.inside (inside enclosed)] at handles
    exact last handles
  | behind p each ih =>
    obtain ⟨a, left, host₁, ran, rest⟩ := step_bind ended
    have stands := (step_retains (call_retains code budget) p ran).toStandsOn
    exact ih a (fun enclosed => stands.inside (inside enclosed)) rest
  | before obtains q enclosed ih =>
    obtain ⟨v, left, host₁, ran, rest⟩ := step_bind ended
    obtain ⟨c, left₁, host₂, went, rest⟩ := step_bind rest
    cases rest
    have within := (step_retains (call_retains code budget) _ ran).toStandsOn.inside (inside enclosed)
    have retains := step_retains (call_retains code budget) (q (.cell k r)) went
    exact retains.mem_handles (fun ⟨top, _⟩ => by simp [within] at top) (ih inside ran)

/-! ## Cleanups -/

/-- The value of a body is what comes of it with its cleanup, unless that panics. It is there
afterwards if it is reached all along the cleanup; and it is reached all along if the handles hold it
when the cleanup starts, unless the cleanup lets go of them outside of all calls and scopes. They hold
it when the body made it last, had it from a call or a sending, or from a scope inside of something,
and nothing unwinds. -/
theorem value_outlives_cleanup (code : CodeRef → Code η) (budget : Nat) (unwinding : Bool)
    {body : Program η Val} (cleanup : Program η Unit) {k : Kind} {r : Ref} {done : Outcome Unit}
    {host₁ : η} (wf : rt.heap.WellFormed)
    (ran : step (call code budget) unwinding body rt host =
      .ended (.value (.cell k r)) left host₁)
    (live : left.heap.isLive r)
    (cleaned : step (call code budget) unwinding cleanup (cleanupState unwinding rt left) host₁ =
      .ended done rt' host') :
    let start := cleanupState unwinding rt left
    step (call code budget) unwinding (Program.withCleanup body cleanup) rt host =
        .ended (ensured (.value (.cell k r)) done) rt' host' ∧
      (done.isPanic = false → ensured (.value (.cell k r)) done = .value (.cell k r)) ∧
      ((∀ m ∈ trace (call code budget) (course code budget) unwinding cleanup start host₁,
        m.rt.Reaches (.cell k r)) → rt'.heap.isLive r) ∧
      (.cell k r ∈ start.handles →
        ¬ (start.atTopLevel = true ∧ LetsGo (call code budget) unwinding cleanup start host₁) →
          .cell k r ∈ rt'.handles ∧ rt'.heap.isLive r) ∧
      (unwinding = false → Obtains (rt.atTopLevel = false) body → .cell k r ∈ start.handles) := by
  intro start
  have same : start.heap = left.heap := by
    simp only [start, cleanupState]
    split <;> rfl
  have formed : start.heap.WellFormed := by
    obtain ⟨moves, rfl⟩ := step_moves (call_moves code budget) body ran
    rw [same]
    exact Runtime.wellFormed_after moves wf
  have kept (always : ∀ m ∈ trace (call code budget) (course code budget) unwinding cleanup start
      host₁, m.rt.Reaches (.cell k r)) : rt'.heap.isLive r :=
    at_end (P := fun rt => rt.heap.isLive r) cleaned
      (isLive_while code budget cleanup formed always (same ▸ live))
  refine ⟨?_, fun calm => ?_, kept, fun held firm => ?_, fun calm obtains => ?_⟩
  · have course := step_withCleanup ran cleanup
    simp only [Outcome.isPanic, Bool.or_false] at course
    rw [course, cleaned]
  · cases done with
    | panic message => cases calm
    | _ => rfl
  · have retains := step_retains (call_retains code budget) cleanup cleaned
    refine ⟨retains.mem_handles firm held, kept fun m member => ?_⟩
    have retained := trace_retains (call_retains code budget) (course_retains code budget) cleanup
      unwinding start host₁ m member
    exact (Runtime.Root.handle (retained.mem_handles firm held)).reaches
  · subst calm
    exact obtains.held code budget id ran

def collecting : Program Unit Unit := do
  let _ ← Program.perform .collect

/-- A body that makes a string answers with it, whatever its cleanup collects. -/
theorem string_outlives_collection : ∃ r rt',
    step (call silent 8) false (Program.withCleanup keeping collecting) (Runtime.boot {}) () =
        .ended (.value (.string r)) rt' () ∧
      .string r ∈ rt'.handles ∧ rt'.heap.isLive r := by
  have wf := (Runtime.intact_boot {}).sound.heap
  generalize Runtime.boot {} = rt at wf ⊢
  have there := Runtime.cell?_alloc_self wf (.string CoreClass.string.ref "kept")
  have cleaned : step (call silent 8) false collecting
      (cleanupState false rt (rt.alloc (.string CoreClass.string.ref "kept")).2) () =
        .ended (.value ()) (rt.alloc (.string CoreClass.string.ref "kept")).2.collect () := rfl
  obtain ⟨ended, calm, -, outlives, holds⟩ := value_outlives_cleanup silent 8 false collecting wf
    (step_keeping rt false) ((Heap.isLive_iff ..).mpr ⟨_, there⟩) cleaned
  rw [calm rfl] at ended
  have held := holds rfl (.making fun rt => ⟨_, rfl, rfl⟩)
  have firm : ¬ LetsGo (call silent 8) false collecting
      (cleanupState false rt (rt.alloc (.string CoreClass.string.ref "kept")).2) () := by
    rintro (⟨letsGo, -⟩ | loose)
    · cases letsGo
    · exact loose
  exact ⟨_, _, ended, outlives held fun loose => firm loose.2⟩

def keptName : Sym := ((Runtime.boot {}).intern "$kept").1

/-- A string that a scope has let go of and a global keeps. -/
def keptByGlobal : List Move :=
  [.act (.intern "$kept"), .enterScope, .act (.newString CoreClass.string.ref "kept"),
   .act (.setGlobal keptName (.string ⟨38, 0⟩)), .leaveScope 0 (.value .nil)]

def rereading : Program Unit Val := Program.asks (·.getGlobal keptName)

def clearing : Program Unit Unit := do
  Program.perform (.setGlobal keptName .nil)
  let _ ← Program.perform .collect

theorem permits_keptByGlobal : (Runtime.boot {}).PermitsRun keptByGlobal := by
  refine ⟨.of_roots (fun _ member => nomatch member) rfl, trivial,
    .of_roots (List.forall_mem_singleton.mpr (.core .string (by decide))) rfl,
    .of_roots (List.forall_mem_singleton.mpr (.handle ?_)) rfl, fun v same => ?_, trivial⟩
  · decide +kernel
  · cases same
    exact .inl rfl

/-- A body that answers with a string that it reads from a global does not hold it. When the cleanup
drops it there and collects, what comes of the body is no longer there. -/
theorem reread_string_is_freed :
    let rt := (Runtime.boot {}).after keptByGlobal
    let result (p : Program Unit Val) := (answered (step (call silent 8) false p rt ())).map
      fun (v, left) => (v, left.heap.isLive ⟨38, 0⟩)
    ((Runtime.boot {}).PermitsRun keptByGlobal ∧ rt.Reaches (.string ⟨38, 0⟩)) ∧
      result rereading = some (.string ⟨38, 0⟩, true) ∧
      result (Program.withCleanup rereading clearing) = some (.string ⟨38, 0⟩, false) := by
  refine ⟨⟨permits_keptByGlobal, (Runtime.Root.global ?_).reaches⟩, ?_⟩
  all_goals decide +kernel

end Machine
end ObjectRuntime
