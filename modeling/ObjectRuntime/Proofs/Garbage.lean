import ObjectRuntime.Proofs.Booting
import ObjectRuntime.Proofs.Heap.Population

/-! Garbage. A collection frees exactly the cells that nothing reaches, whatever cycles and
sharing there are: the survivors are as they were, a freed slot enters its next generation
and the free list, and the count is the drop of the population. -/

namespace ObjectRuntime.Runtime

variable {rt : Runtime}

theorem isLive_collect (whole : ∀ v, rt.Reaches v → rt.heap.Holds v) {r : Ref} {c : Cell}
    (found : rt.heap.cell? r = some c) :
    rt.collect.heap.isLive r ↔ rt.Reaches (.cell c.kind r) := by
  constructor
  · intro live
    obtain ⟨c', found'⟩ := (Heap.isLive_iff ..).mp live
    obtain ⟨-, k, reached⟩ := (Heap.cell?_collect ..).mp found'
    obtain ⟨c'', found'', kind⟩ := whole _ reached
    rw [found] at found''
    cases found''
    rw [kind]
    exact reached
  · intro reached
    exact (Heap.isLive_iff ..).mpr ⟨c, (Heap.cell?_collect ..).mpr ⟨found, c.kind, reached⟩⟩

theorem cell?_collect_of_isLive {r : Ref} (live : rt.collect.heap.isLive r) :
    rt.collect.heap.cell? r = rt.heap.cell? r := by
  obtain ⟨c, found⟩ := (Heap.isLive_iff ..).mp live
  rw [found, ((Heap.cell?_collect ..).mp found).1]

/-- A collection comes to an end, and frees exactly the garbage. What a frame reaches is what the
frames around it hold, whichever they are; what is reached is found from the roots, the pinned
cells among them, by following cells and frames. -/
theorem collect_frees_garbage (rt : Runtime) (wf : rt.heap.WellFormed) (nested : rt.frames.Nested)
    (whole : ∀ v, rt.Reaches v → rt.heap.Holds v) :
    (∀ i v, v ∈ rt.frames.values i ↔ ∃ j f, rt.frames.Encloses i j ∧
      rt.frames.store[j]? = some f ∧ v ∈ f.values) ∧
    (Heap.markDone rt.frames rt.heap rt.rootValues).pending = [] ∧
    (∀ r c, rt.heap.cell? r = some c →
      (rt.collect.heap.isLive r ↔ rt.Reaches (.cell c.kind r))) ∧
    (∀ r, rt.collect.heap.isLive r → rt.collect.heap.cell? r = rt.heap.cell? r) ∧
    (∀ r c, rt.heap.cell? r = some c → ¬ rt.collect.heap.isLive r →
      rt.collect.heap.slots[r.index]? = some { generation := r.generation + 1 } ∧
        r.index ∉ rt.heap.free ∧ rt.collect.heap.free.count r.index = 1) ∧
    (Action.collect.run rt).1 + (Action.collect.run rt).2.heap.live = rt.heap.live := by
  refine ⟨fun i v => Frames.mem_values_iff nested i v, Heap.markDone_pending ..,
    fun r c found => isLive_collect whole found, fun r live => cell?_collect_of_isLive live,
    fun r c found dead => Heap.freed_collect wf rt.frames rt.rootValues found ?_, ?_⟩
  · simpa [Heap.isLive, collect] using dead
  · have total := Heap.live_collect wf rt.frames rt.rootValues
    simp only [Action.run, collect]
    omega

/-! ## The population that is left -/

/-- The cell that the handle names is reached, so that a collection keeps it. -/
def Survives (rt : Runtime) (r : Ref) : Prop := rt.heap.isLive r ∧ ∃ k, rt.Reaches (.cell k r)

theorem isLive_collect_iff (rt : Runtime) (r : Ref) : rt.collect.heap.isLive r ↔ rt.Survives r := by
  constructor
  · intro live
    obtain ⟨c, found⟩ := (Heap.isLive_iff ..).mp live
    obtain ⟨found, reached⟩ := (Heap.cell?_collect ..).mp found
    exact ⟨(Heap.isLive_iff ..).mpr ⟨c, found⟩, reached⟩
  · rintro ⟨live, reached⟩
    obtain ⟨c, found⟩ := (Heap.isLive_iff ..).mp live
    exact (Heap.isLive_iff ..).mpr ⟨c, (Heap.cell?_collect ..).mpr ⟨found, reached⟩⟩

theorem population_congr {rt' : Runtime} (wf : rt.heap.WellFormed) (wf' : rt'.heap.WellFormed)
    (same : ∀ r, rt'.Survives r ↔ rt.Survives r) : rt'.collect.heap.live = rt.collect.heap.live := by
  refine Heap.live_congr (Heap.wellFormed_collect wf' ..) (Heap.wellFormed_collect wf ..) fun r => ?_
  have kept := isLive_collect_iff rt r
  have kept' := isLive_collect_iff rt' r
  exact (kept'.trans (same r)).trans kept.symm

/-- A cell that is made and not held is not kept, and makes no difference for the others. -/
theorem survives_unheld (sound : rt.Sound) (c : Cell) (r : Ref) :
    Survives { (rt.place c).2 with handles := rt.handles } r ↔ rt.Survives r := by
  generalize unheld : { (rt.place c).2 with handles := rt.handles } = left
  have cells {r : Ref} {c' : Cell} (found : rt.heap.cell? r = some c') :
      left.heap.cell? r = some c' := by
    rw [← unheld]
    exact cell?_place_of_found sound.heap c found
  have frames : left.frames = rt.frames := by rw [← unheld]; rfl
  have roots {v : Val} : left.Root v ↔ rt.Root v := by
    have registered : (rt.heap.alloc c false).2.roots = rt.heap.roots := Heap.roots_alloc ..
    subst unheld
    constructor
    · intro root
      refine root.transfer { registered := registered.symm } rfl fun i s c' slot occupied pinned => ?_
      rcases Heap.slot_alloc slot with before | ⟨-, rfl⟩
      · exact .pinned before occupied pinned
      · cases pinned
    · intro root
      refine root.transfer { registered := registered } rfl fun i s c' slot occupied pinned => ?_
      have still := Heap.slot_alloc_of_occupied sound.heap c false slot (by simp [occupied])
      exact .pinned still occupied pinned
  have reached {v : Val} : left.Reaches v ↔ rt.Reaches v := by
    constructor
    · intro reached
      refine reached.mono (fun v root => (roots.mp root).reaches) fun k r c' _ before found w held => ?_
      obtain ⟨c'', found', -⟩ := sound.holds before
      cases found.symm.trans (cells found')
      exact .child before found' (frames ▸ held)
    · intro reached
      exact reached.mono (fun v root => (roots.mpr root).reaches) fun k r c' _ after found w held =>
        .child after (cells found) (frames.symm ▸ held)
  constructor
  · rintro ⟨-, k, there⟩
    obtain ⟨c', found, -⟩ := sound.holds (reached.mp there)
    exact ⟨(Heap.isLive_iff ..).mpr ⟨c', found⟩, k, reached.mp there⟩
  · rintro ⟨live, k, there⟩
    obtain ⟨c', found⟩ := (Heap.isLive_iff ..).mp live
    exact ⟨(Heap.isLive_iff ..).mpr ⟨c', cells found⟩, k, reached.mpr there⟩

/-- Two arrays that hold each other, which a scope has let go of, beside one that a global keeps. -/
def tangling : List Move :=
  [.enterScope, .act (.newArray CoreClass.array.ref []),
   .act (.newArray CoreClass.array.ref [.array ⟨38, 0⟩]), .act (.push ⟨38, 0⟩ (.array ⟨39, 0⟩)),
   .act (.newArray CoreClass.array.ref []), .act (.setGlobal ⟨40⟩ (.array ⟨40, 0⟩)),
   .leaveScope 0 (.value .nil)]

theorem permits_tangling : (boot {}).PermitsRun tangling := by
  have array {rt : Runtime} : rt.Root (.module CoreClass.array.ref) := .core .array (by decide)
  refine ⟨trivial, .of_roots (List.forall_mem_singleton.mpr array) rfl,
    .of_roots (List.forall_mem_cons.mpr ⟨array, List.forall_mem_singleton.mpr (.handle ?_)⟩) rfl,
    .of_roots (List.forall_mem_cons.mpr ⟨.handle ?_, List.forall_mem_singleton.mpr (.handle ?_)⟩) rfl,
    .of_roots (List.forall_mem_singleton.mpr array) rfl,
    .of_roots (List.forall_mem_singleton.mpr (.handle ?_)) rfl, fun v same => ?_, trivial⟩
  · decide +kernel
  · decide +kernel
  · decide +kernel
  · decide +kernel
  · cases same
    exact .inl rfl

theorem collect_frees_tangle :
    let rt := (boot {}).after tangling
    (rt.heap.WellFormed ∧ rt.frames.Nested ∧ ∀ v, rt.Reaches v → rt.heap.Holds v) ∧
      (Action.collect.run rt).1 + (Action.collect.run rt).2.heap.live = rt.heap.live := by
  have intact := (intact_boot {}).after permits_tangling
  exact ⟨⟨intact.sound.heap, intact.sound.nested, fun v => intact.sound.holds⟩,
    (collect_frees_garbage _ intact.sound.heap intact.sound.nested
      fun v => intact.sound.holds).2.2.2.2.2⟩

end ObjectRuntime.Runtime
