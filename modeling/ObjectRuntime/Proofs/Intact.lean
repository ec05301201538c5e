import ObjectRuntime.Proofs.Lineage

/-! The invariant of running. An intact runtime is sound and remembers its class graph
faithfully. Each way in which a step changes the state keeps a runtime intact: other roots,
a written cell, a changed method table, one more include edge, an allocation, a collection. -/

namespace ObjectRuntime

/-- Cells that neither capture a frame nor remember anything. -/
def Cell.isData : Cell → Bool
  | .proc _ | .module _ => false
  | _ => true

namespace Runtime

/-- No handle dangles, and everything remembered is right. -/
structure Intact (rt : Runtime) : Prop where
  sound : rt.Sound
  faithful : rt.Faithful

variable {rt rt' : Runtime}

theorem Intact.holds (intact : rt.Intact) {v : Val} (available : rt.Available v) :
    rt.heap.Holds v :=
  intact.sound.holds_available available

theorem Intact.forgotten (intact : rt.Intact) (same : rt'.forget = rt.forget)
    (faithful : rt'.Faithful) : rt'.Intact :=
  ⟨intact.sound.of_forget same, faithful⟩

/-- A change after which every module was there before, with the parents and the memory it has,
and with its table as long as answers are cached. -/
theorem Intact.keep (intact : rt.Intact) (sound : rt'.Sound)
    (modules : ∀ r m', rt'.module? r = some m' → ∃ m, rt.module? r = some m ∧
      m'.parents = m.parents ∧ m'.linear = m.linear ∧
      (rt'.cache.entries.entries = [] ∨ m'.methods = m.methods))
    (hierarchy : rt'.hierarchy = rt.hierarchy)
    (cached : ∀ e ∈ rt'.cache.entries.entries, e ∈ rt.cache.entries.entries ∧
      (rt.heap.Holds (.module e.1.1) → rt'.heap.Holds (.module e.1.1))) : rt'.Intact := by
  have edges : SameParents rt rt' := by
    intro r _ after
    obtain ⟨m', found'⟩ := module_of_holds after
    obtain ⟨m, found, same, -⟩ := modules r m' found'
    simp [parents, found, found', same]
  refine ⟨sound, intact.faithful.carry intact.sound sound edges (fun r m' found' _ => ?_)
    (fun r m' found' dead => ?_) hierarchy fun e member => ?_⟩
  · obtain ⟨m, found, -, same, -⟩ := modules r m' found'
    exact ⟨m, found, same⟩
  · obtain ⟨m, found, -⟩ := modules r m' found'
    exact absurd (Heap.isLive_of_holds (holds_of_module found)) dead
  · obtain ⟨before, live⟩ := cached e member
    obtain ⟨held, answer⟩ := intact.faithful.cached e before
    refine ⟨live held, answer.carry intact.sound sound edges (fun r _ after => ?_) held (live held)⟩
    obtain ⟨m', found'⟩ := module_of_holds after
    obtain ⟨m, found, -, -, empty | tables⟩ := modules r m' found'
    · rw [empty] at member
      cases member
    · simp [method?, found, found', tables]

/-! ## Roots -/

structure SameMemory (rt rt' : Runtime) : Prop where
  hierarchy : rt'.hierarchy = rt.hierarchy := by rfl
  cache : rt'.cache = rt.cache := by rfl

theorem Intact.reroot (intact : rt.Intact) (same : SameStore rt rt') (memory : SameMemory rt rt')
    (running : ∀ i ∈ rt'.calls, i < rt.frames.store.size)
    (roots : ∀ v, rt'.Root v → rt.heap.Holds v) : rt'.Intact := by
  refine intact.keep (intact.sound.reroot same running roots) (fun r m found => ?_)
    memory.hierarchy fun e member => ?_
  · refine ⟨m, ?_, rfl, rfl, .inr rfl⟩
    rwa [module?, same.cell?] at found
  · exact ⟨memory.cache ▸ member, (same.holds _).mpr⟩

/-- What neither the heap, the stacks nor the memory sees. -/
theorem Intact.aside (intact : rt.Intact) (same : SameStore rt rt') (memory : SameMemory rt rt')
    (roots : SameRoots rt rt') : rt'.Intact :=
  intact.reroot same memory (roots.calls ▸ intact.sound.running) fun v root =>
    intact.sound.roots v (roots.root same root)

/-! ## Writing -/

theorem Intact.modifyData (intact : rt.Intact) (r : Ref) {f : Cell → Cell}
    (kind : ∀ c, (f c).kind = c.kind) (procs : ∀ p, f (.proc p) = .proc p)
    (modules : ∀ m, f (.module m) = .module m)
    (stored : ∀ c, rt.heap.cell? r = some c → ∀ v ∈ (f c).children rt.frames,
      v ∈ c.children rt.frames ∨ rt.heap.Holds v) : (rt.modifyCell r f).Intact := by
  refine intact.keep (intact.sound.modifyCell r kind procs stored) (fun r' m found => ?_) rfl
    fun e member => ⟨member, (Heap.holds_modify kind _).mpr⟩
  refine ⟨m, ?_, rfl, rfl, .inr rfl⟩
  rw [module?_eq_some] at found ⊢
  simp only [modifyCell, Heap.cell?_modify] at found
  split at found
  next here =>
    obtain ⟨c, found', written⟩ := Option.map_eq_some_iff.mp found
    have kept : c.kind = .module := by
      rw [← kind, written]
      rfl
    cases c with
    | module m' =>
      rw [modules] at written
      rw [here, found', written]
    | _ => cases kept
  next => exact found

theorem Intact.modifyModule (intact : rt.Intact) (r : Ref) {f : Module → Module}
    (stored : ∀ m, rt.module? r = some m → ∀ v ∈ (f m).children, v ∈ m.children ∨ rt.heap.Holds v)
    (parents : ∀ m, (f m).parents = m.parents) (linear : ∀ m, (f m).linear = m.linear)
    (methods : rt.cache.entries.entries = [] ∨ ∀ m, (f m).methods = m.methods) :
    (rt.modifyModule r f).Intact := by
  refine intact.keep (intact.sound.modifyCell r (fun c => ?_) (fun p => rfl)
    fun c found v held => ?_) (fun r' m' found => ?_) rfl fun e member => ⟨member, ?_⟩
  · cases c <;> rfl
  · cases c with
    | module m => exact stored m ((module?_eq_some rt r m).mpr found) v held
    | _ => exact .inl held
  · rw [module?_modifyModule] at found
    split at found
    next same =>
      obtain ⟨m, found', rfl⟩ := Option.map_eq_some_iff.mp found
      exact ⟨m, same ▸ found', parents m, linear m, methods.imp id fun same => same m⟩
    next => exact ⟨m', found, rfl, rfl, .inr rfl⟩
  · exact (Heap.holds_modify (fun c => by cases c <;> rfl) _).mpr

theorem Intact.cleared (intact : rt.Intact) : Intact { rt with cache := rt.cache.clear } where
  sound := intact.sound.of_forget rfl
  faithful := ⟨intact.faithful.graded, intact.faithful.remembered, fun e member => by cases member⟩

/-! ## Allocation -/

theorem Intact.collect (intact : rt.Intact) : rt.collect.Intact := by
  refine intact.keep intact.sound.collect (fun r m found => ⟨m, ?_, rfl, rfl, .inl rfl⟩) rfl
    fun e member => by cases member
  rw [module?_eq_some] at found ⊢
  exact ((Heap.cell?_collect ..).mp found).1

theorem Intact.room (intact : rt.Intact) : rt.room.Intact := by
  unfold Runtime.room
  split
  · exact intact.collect
  · exact intact

theorem module?_place (wf : rt.heap.WellFormed) (c : Cell) {r : Ref} (live : rt.heap.isLive r) :
    (rt.place c).2.module? r = rt.module? r := by
  obtain ⟨c', found⟩ := (Heap.isLive_iff ..).mp live
  simp only [module?, found, cell?_place_of_found wf c found]

theorem Intact.place (intact : rt.Intact) {c : Cell} (sound : (rt.place c).2.Sound)
    (stored : ∀ v ∈ c.children rt.frames, rt.heap.Holds v)
    (linear : ∀ m, c = .module m → m.linear = none) : (rt.place c).2.Intact := by
  have wf := intact.sound.heap
  have same {r : Ref} (live : rt.heap.isLive r) := module?_place wf c live
  have edges : SameParents rt (rt.place c).2 := by
    intro r before _
    simp only [parents, same (Heap.isLive_of_holds before)]
  refine ⟨sound, intact.faithful.carry intact.sound sound edges (fun r m found live => ?_)
    (fun r m found fresh => ?_) rfl fun e member => ?_⟩
  · exact ⟨m, same live ▸ found, rfl⟩
  · rw [module?_eq_some, cell?_place wf] at found
    split at found
    next =>
      cases found
      have held (p : Ref) (member : p ∈ m.parents) : rt.heap.Holds (.module p) :=
        stored _ (Module.mem_children.mpr (.parent member))
      exact ⟨linear m rfl, held⟩
    next => exact absurd ((Heap.isLive_iff ..).mpr ⟨_, found⟩) fresh
  · obtain ⟨live, answer⟩ := intact.faithful.cached e member
    have live' := Heap.holds_alloc wf c false live
    refine ⟨live', answer.carry intact.sound sound edges (fun r before _ => ?_) live live'⟩
    simp only [method?, same (Heap.isLive_of_holds before)]

/-- A new cell may hold what is reached. A new module remembers nothing. -/
theorem Intact.alloc (intact : rt.Intact) {c : Cell}
    (stored : ∀ v ∈ c.children rt.frames, rt.Available v)
    (captured : ∀ p, c = .proc p → p.frame < rt.frames.store.size)
    (linear : ∀ m, c = .module m → m.linear = none) : (rt.alloc c).2.Intact := by
  have sound := intact.sound.alloc stored captured
  rw [alloc_eq] at sound ⊢
  refine intact.room.place sound (fun v member => ?_) linear
  rw [frames_room] at member
  exact intact.room.holds (stored v member).room

theorem Intact.allocData (intact : rt.Intact) {c : Cell} (data : c.isData = true)
    (stored : ∀ v ∈ c.children rt.frames, rt.Available v) : (rt.alloc c).2.Intact := by
  refine intact.alloc stored ?_ ?_
  · rintro p rfl
    cases data
  · rintro m rfl
    cases data

theorem Intact.allocModule (intact : rt.Intact) {m : Module} (fresh : m.linear = none)
    (stored : ∀ v, m.Child v → rt.Available v) : (rt.alloc (.module m)).2.Intact := by
  refine intact.alloc (fun v held => stored v (Module.mem_children.mp held)) ?_ ?_
  · intro p same
    cases same
  · intro m' same
    cases same
    exact fresh

/-! ## Edges -/

def addInclude (rt : Runtime) (m other : Ref) : Runtime :=
  (rt.modifyModule m fun mod => { mod with includes := other :: mod.includes }).hierarchyChanged

theorem module?_addInclude (m other r : Ref) :
    (rt.addInclude m other).module? r =
      if r = m then (rt.module? m).map fun mod => { mod with includes := other :: mod.includes }
      else rt.module? r :=
  module?_modifyModule ..

theorem linear_of_addInclude {m other r : Ref} {mod : Module}
    (found : (rt.addInclude m other).module? r = some mod) :
    ∃ mod', rt.module? r = some mod' ∧ mod'.linear = mod.linear := by
  rw [module?_addInclude] at found
  split at found
  next same =>
    obtain ⟨mod', found', rfl⟩ := Option.map_eq_some_iff.mp found
    exact ⟨mod', same ▸ found', rfl⟩
  next => exact ⟨mod, found, rfl⟩

theorem parents_addInclude_of_ne {m r : Ref} (other : Ref) (apart : r ≠ m) :
    (rt.addInclude m other).parents r = rt.parents r := by
  simp only [parents, module?_addInclude, if_neg apart]

theorem mem_parents_addInclude {m other p : Ref} :
    p ∈ (rt.addInclude m other).parents m ↔
      (rt.module? m).isSome ∧ p = other ∨ p ∈ rt.parents m := by
  simp only [parents, module?_addInclude, if_true]
  cases rt.module? m with
  | none => simp
  | some mod => simp [Module.parents]

theorem Above.addInclude {m other r a : Ref} (above : Above rt.parents r a) :
    Above (rt.addInclude m other).parents r a := by
  refine above.mono fun x p old => ?_
  by_cases same : x = m
  · subst same
    exact mem_parents_addInclude.mpr (.inr old)
  · rw [parents_addInclude_of_ne other same]
    exact old

theorem Sound.addInclude (sound : rt.Sound) {m other : Ref}
    (live : rt.heap.Holds (.module other)) : (rt.addInclude m other).Sound := by
  have written : (rt.modifyModule m fun mod =>
      { mod with includes := other :: mod.includes }).Sound := by
    refine sound.modifyCell m (fun c => by cases c <;> rfl) (fun _ => rfl) fun c found v held => ?_
    cases c with
    | module mod =>
      simp only [Cell.children, Module.mem_children] at held ⊢
      cases held with
      | superclass edge => exact .inl (.superclass edge)
      | included edge =>
        rcases List.mem_cons.mp edge with rfl | old
        · exact .inr live
        · exact .inl (.included old)
      | method entry held => exact .inl (.method entry held)
      | const entry => exact .inl (.const entry)
      | singleton made => exact .inl (.singleton made)
      | attached attached => exact .inl (.attached attached)
      | lexical outer => exact .inl (.lexical outer)
    | _ => exact .inl held
  exact written.aside ⟨⟨rfl, rfl, rfl⟩, rfl⟩ ⟨rfl, rfl, rfl, rfl⟩

theorem Intact.addInclude (intact : rt.Intact) {m other : Ref}
    (live : rt.heap.Holds (.module other)) (apart : ¬ Above rt.parents other m) :
    (rt.addInclude m other).Intact := by
  refine ⟨intact.sound.addInclude live, ?_, fun r mod generation above found memory => ?_,
    fun e member => by cases member⟩
  · refine Linear.exists_of_edges (m := m) [other] intact.faithful.graded
      (fun x => parents_addInclude_of_ne other) (fun p member => ?_)
      fun p member => List.mem_singleton.mp member ▸ apart
    rcases mem_parents_addInclude.mp member with ⟨-, rfl⟩ | old
    · exact .inl (List.mem_singleton.mpr rfl)
    · exact .inr old
  · obtain ⟨mod', found', same⟩ := linear_of_addInclude found
    obtain ⟨bound, higher, -⟩ :=
      intact.faithful.remembered r mod' generation above found' (same.trans memory)
    -- nothing that is remembered is of the new generation
    have older : generation ≠ rt.hierarchy + 1 := by omega
    exact ⟨Nat.le_succ_of_le bound, fun a member => Above.addInclude (higher a member),
      fun now => absurd now older⟩

end Runtime
end ObjectRuntime
