import ObjectRuntime.Proofs.Frames
import ObjectRuntime.Proofs.Remembered

/-! Reachability. A runtime is sound when its roots and its cells hold no handle without
a cell. What is reached then has its cell, a collection frees nothing that is reached,
and storing what is reached keeps a runtime sound. -/

namespace ObjectRuntime.Runtime

/-- A value a collection starts from. -/
inductive Root (rt : Runtime) : Val → Prop
  | core (c : CoreClass) : c ∈ CoreClass.all → Root rt (.module c.ref)
  | top {v : Val} : v ∈ rt.frames.values topFrame → Root rt v
  | global {v : Val} : v ∈ rt.globals.values → Root rt v
  | handle {v : Val} : v ∈ rt.handles → Root rt v
  | running {i : Nat} {v : Val} : i ∈ rt.calls → v ∈ rt.frames.values i → Root rt v
  | registered {v : Val} : v ∈ rt.heap.roots.values → Root rt v
  | pinned {i : Nat} {s : Slot} {c : Cell} : rt.heap.slots[i]? = some s → s.cell = some c →
      s.pinned = true → Root rt (.cell c.kind ⟨i, s.generation⟩)

theorem mem_markStart (rt : Runtime) (v : Val) :
    v ∈ rt.heap.markStart rt.rootValues ↔ rt.Root v := by
  simp only [Heap.markStart, rootValues, List.mem_append, List.mem_map, List.mem_flatMap,
    Array.mem_toList_iff, Heap.mem_pinnedValues]
  constructor
  · rintro ((((((⟨c, member, rfl⟩ | top) | global) | handle) | ⟨i, running, held⟩) | entry) |
      ⟨i, s, c, slot, occupied, pinned, rfl⟩)
    · exact .core c member
    · exact .top top
    · exact .global global
    · exact .handle handle
    · exact .running running held
    · exact .registered entry
    · exact .pinned slot occupied pinned
  · intro root
    cases root with
    | core c member => exact .inl (.inl (.inl (.inl (.inl (.inl ⟨c, member, rfl⟩)))))
    | top held => exact .inl (.inl (.inl (.inl (.inl (.inr held)))))
    | global held => exact .inl (.inl (.inl (.inl (.inr held))))
    | handle held => exact .inl (.inl (.inl (.inr held)))
    | running member held => exact .inl (.inl (.inr ⟨_, member, held⟩))
    | registered held => exact .inl (.inr held)
    | pinned slot occupied pinned => exact .inr ⟨_, _, _, slot, occupied, pinned, rfl⟩

def Reaches (rt : Runtime) (v : Val) : Prop :=
  Heap.Reached rt.frames rt.heap (rt.heap.markStart rt.rootValues) v

theorem Root.reaches {rt : Runtime} {v : Val} (root : rt.Root v) : rt.Reaches v :=
  .start ((mem_markStart rt v).mpr root)

/-- An immediate, or a value that is reached: what running code may come to have. -/
def Available (rt : Runtime) (v : Val) : Prop := v.isImmediate = true ∨ rt.Reaches v

theorem Reaches.available {rt : Runtime} {v : Val} (reached : rt.Reaches v) : rt.Available v :=
  .inr reached

theorem Root.available {rt : Runtime} {v : Val} (root : rt.Root v) : rt.Available v :=
  root.reaches.available

theorem Available.reaches {rt : Runtime} {k : Kind} {r : Ref}
    (available : rt.Available (.cell k r)) : rt.Reaches (.cell k r) := by
  rcases available with immediate | reached
  · cases immediate
  · exact reached

/-- No root and no cell holds a handle without a cell, and every captured or running frame is
there. -/
structure Sound (rt : Runtime) : Prop where
  heap : rt.heap.WellFormed
  nested : rt.frames.Nested
  top : topFrame < rt.frames.store.size
  running : ∀ i ∈ rt.calls, i < rt.frames.store.size
  captured : ∀ (r : Ref) (p : Proc), rt.heap.cell? r = some (.proc p) →
    p.frame < rt.frames.store.size
  roots : ∀ v, rt.Root v → rt.heap.Holds v
  cells : ∀ (r : Ref) (c : Cell), rt.heap.cell? r = some c →
    ∀ v ∈ c.children rt.frames, rt.heap.Holds v

theorem Sound.holds {rt : Runtime} (sound : rt.Sound) {v : Val} (reached : rt.Reaches v) :
    rt.heap.Holds v := by
  induction reached with
  | start member => exact sound.roots _ ((mem_markStart rt _).mp member)
  | child _ found held _ => exact sound.cells _ _ found _ held

theorem Sound.holds_available {rt : Runtime} (sound : rt.Sound) {v : Val}
    (available : rt.Available v) : rt.heap.Holds v := by
  rcases available with immediate | reached
  · exact Heap.holds_of_isImmediate immediate
  · exact sound.holds reached

/-- What is reached stays reached when the roots are still reached and the cells that were
reached still lead to what they held. -/
theorem Reaches.mono {rt rt' : Runtime} (roots : ∀ v, rt.Root v → rt'.Reaches v)
    (cells : ∀ (k : Kind) (r : Ref) (c : Cell), rt.Reaches (.cell k r) →
      rt'.Reaches (.cell k r) → rt.heap.cell? r = some c →
      ∀ v ∈ c.children rt.frames, rt'.Reaches v)
    {v : Val} (reached : rt.Reaches v) : rt'.Reaches v := by
  induction reached with
  | start member => exact roots _ ((mem_markStart rt _).mp member)
  | child parent found held ih => exact cells _ _ _ parent ih found _ held

/-- The same, where cells may let go of immediates, which nothing needs to reach. -/
theorem Reaches.available_mono {rt rt' : Runtime} (roots : ∀ v, rt.Root v → rt'.Available v)
    (cells : ∀ (k : Kind) (r : Ref) (c : Cell), rt.Reaches (.cell k r) →
      rt'.Reaches (.cell k r) → rt.heap.cell? r = some c →
      ∀ v ∈ c.children rt.frames, rt'.Available v)
    {v : Val} (reached : rt.Reaches v) : rt'.Available v := by
  induction reached with
  | start member => exact roots _ ((mem_markStart rt _).mp member)
  | child parent found held ih => exact cells _ _ _ parent ih.reaches found _ held

/-! ## Changes of the roots -/

section
variable {rt rt' : Runtime}

structure SameCells (rt rt' : Runtime) : Prop where
  slots : rt'.heap.slots = rt.heap.slots := by rfl
  free : rt'.heap.free = rt.heap.free := by rfl
  live : rt'.heap.live = rt.heap.live := by rfl

structure SameStore (rt rt' : Runtime) : Prop extends SameCells rt rt' where
  frames : rt'.frames = rt.frames := by rfl

/-- The roots are the same where the frames and the pinned cells are. -/
structure SameRoots (rt rt' : Runtime) : Prop where
  globals : rt'.globals = rt.globals := by rfl
  handles : rt'.handles = rt.handles := by rfl
  calls : rt'.calls = rt.calls := by rfl
  registered : rt'.heap.roots = rt.heap.roots := by rfl

theorem SameCells.wellFormed (same : SameCells rt rt') (wf : rt.heap.WellFormed) :
    rt'.heap.WellFormed := by
  refine ⟨same.free ▸ wf.free_nodup, ?_, ?_⟩
  · rw [same.free, same.slots]
    exact wf.mem_free
  · rw [same.live, same.slots]
    exact wf.live_eq

theorem SameCells.cell? (same : SameCells rt rt') (r : Ref) :
    rt'.heap.cell? r = rt.heap.cell? r :=
  Heap.cell?_congr same.slots r

theorem SameCells.isLive (same : SameCells rt rt') (r : Ref) :
    rt'.heap.isLive r = rt.heap.isLive r := by
  rw [Heap.isLive, same.cell?, Heap.isLive]

theorem SameCells.holds (same : SameCells rt rt') (v : Val) :
    rt'.heap.Holds v ↔ rt.heap.Holds v :=
  Heap.holds_congr same.slots v

theorem Root.transfer {v : Val} (root : rt.Root v) (same : SameRoots rt rt')
    (frames : rt'.frames = rt.frames)
    (pinned : ∀ (i : Nat) (s : Slot) (c : Cell), rt.heap.slots[i]? = some s → s.cell = some c →
      s.pinned = true → rt'.Root (.cell c.kind ⟨i, s.generation⟩)) : rt'.Root v := by
  cases root with
  | core c member => exact .core c member
  | top held => exact .top (frames ▸ held)
  | global held => exact .global (same.globals ▸ held)
  | handle held => exact .handle (same.handles ▸ held)
  | running member held => exact .running (same.calls ▸ member) (frames ▸ held)
  | registered held => exact .registered (same.registered ▸ held)
  | pinned slot occupied held => exact pinned _ _ _ slot occupied held

/-- No call is entered, and what is kept anew has some property. -/
theorem SameStore.root {P : Val → Prop} (same : SameStore rt rt')
    (calls : ∀ i ∈ rt'.calls, i ∈ rt.calls)
    (globals : ∀ v ∈ rt'.globals.values, v ∈ rt.globals.values ∨ P v)
    (handles : ∀ v ∈ rt'.handles, v ∈ rt.handles ∨ P v)
    (registered : ∀ v ∈ rt'.heap.roots.values, v ∈ rt.heap.roots.values ∨ P v)
    {v : Val} (root : rt'.Root v) : rt.Root v ∨ P v := by
  cases root with
  | core c member => exact .inl (.core c member)
  | top held => exact .inl (.top (same.frames ▸ held))
  | global held => exact (globals v held).imp .global id
  | handle held => exact (handles v held).imp .handle id
  | running member held => exact .inl (.running (calls _ member) (same.frames ▸ held))
  | registered held => exact (registered v held).imp .registered id
  | pinned slot occupied pinned => exact .inl (.pinned (same.slots ▸ slot) occupied pinned)

theorem SameRoots.root (same : SameRoots rt rt') (store : SameStore rt rt') {v : Val}
    (root : rt'.Root v) : rt.Root v := by
  have old := store.root (P := fun _ => False) (fun _ member => same.calls ▸ member)
    (fun _ held => .inl (same.globals ▸ held)) (fun _ held => .inl (same.handles ▸ held))
    (fun _ held => .inl (same.registered ▸ held)) root
  exact old.resolve_right id

theorem Sound.reroot (sound : rt.Sound) (same : SameStore rt rt')
    (running : ∀ i ∈ rt'.calls, i < rt.frames.store.size)
    (roots : ∀ v, rt'.Root v → rt.heap.Holds v) : rt'.Sound where
  heap := same.wellFormed sound.heap
  nested := same.frames ▸ sound.nested
  top := same.frames ▸ sound.top
  running := same.frames ▸ running
  captured r p found := by
    rw [same.cell?] at found
    exact same.frames ▸ sound.captured r p found
  roots v root := (same.holds v).mpr (roots v root)
  cells r c found v held := by
    rw [same.cell?] at found
    rw [same.frames] at held
    exact (same.holds v).mpr (sound.cells r c found v held)

theorem Sound.aside (sound : rt.Sound) (same : SameStore rt rt') (roots : SameRoots rt rt') :
    rt'.Sound :=
  sound.reroot same (roots.calls ▸ sound.running) fun v root => sound.roots v (roots.root same root)

end

/-! ## Writing a cell -/

theorem root_modifyCell {rt : Runtime} {r : Ref} {f : Cell → Cell}
    (kind : ∀ c, (f c).kind = c.kind) (v : Val) : (rt.modifyCell r f).Root v ↔ rt.Root v := by
  constructor
  · intro root
    refine root.transfer ⟨rfl, rfl, rfl, rfl⟩ rfl fun i s' c' slot occupied pinned => ?_
    simp only [modifyCell, Heap.slots_modify] at slot
    obtain ⟨s, slot', rfl⟩ := Option.map_eq_some_iff.mp slot
    by_cases here : i = r.index ∧ s.generation = r.generation
    · simp only [here, and_self, if_true] at occupied pinned ⊢
      obtain ⟨c, occupied', rfl⟩ := Option.map_eq_some_iff.mp occupied
      rw [kind, ← here.1, ← here.2]
      exact .pinned slot' occupied' pinned
    · rw [if_neg here] at occupied pinned ⊢
      exact .pinned slot' occupied pinned
  · intro root
    refine root.transfer ⟨rfl, rfl, rfl, rfl⟩ rfl fun i s c slot occupied pinned => ?_
    have written := Heap.slots_modify rt.heap r f i
    rw [slot, Option.map_some] at written
    by_cases here : i = r.index ∧ s.generation = r.generation
    · rw [if_pos here] at written
      have occupied' : s.cell.map f = some (f c) := by simp [occupied]
      have root : (rt.modifyCell r f).Root (.cell (f c).kind ⟨i, s.generation⟩) :=
        .pinned (s := { s with cell := s.cell.map f }) written occupied' pinned
      rwa [kind] at root
    · rw [if_neg here] at written
      exact .pinned written occupied pinned

theorem Sound.modifyCell {rt : Runtime} (sound : rt.Sound) (r : Ref) {f : Cell → Cell}
    (kind : ∀ c, (f c).kind = c.kind) (procs : ∀ p, f (.proc p) = .proc p)
    (stored : ∀ c, rt.heap.cell? r = some c → ∀ v ∈ (f c).children rt.frames,
      v ∈ c.children rt.frames ∨ rt.heap.Holds v) : (rt.modifyCell r f).Sound where
  heap := Heap.wellFormed_modify sound.heap r f
  nested := sound.nested
  top := sound.top
  running := sound.running
  captured r' p found := by
    simp only [Runtime.modifyCell, Heap.cell?_modify] at found
    split at found
    next =>
      obtain ⟨c, found', same⟩ := Option.map_eq_some_iff.mp found
      have proc : c.kind = .proc := by
        rw [← kind, same]
        rfl
      cases c with
      | proc q =>
        rw [procs] at same
        cases same
        exact sound.captured r p found'
      | _ => cases proc
    next => exact sound.captured r' p found
  roots v root := (Heap.holds_modify kind v).mpr (sound.roots v ((root_modifyCell kind v).mp root))
  cells r' c found v held := by
    refine (Heap.holds_modify kind v).mpr ?_
    simp only [Runtime.modifyCell, Heap.cell?_modify] at found
    split at found
    next =>
      obtain ⟨c', found', rfl⟩ := Option.map_eq_some_iff.mp found
      rcases stored c' found' v held with before | new
      · exact sound.cells r c' found' v before
      · exact new
    next => exact sound.cells r' c found v held

theorem Reaches.modifyCell {rt : Runtime} {r : Ref} {f : Cell → Cell}
    (kind : ∀ c, (f c).kind = c.kind)
    (kept : ∀ c, rt.heap.cell? r = some c → ∀ v ∈ c.children rt.frames,
      v ∈ (f c).children rt.frames ∨ (rt.modifyCell r f).Root v)
    {v : Val} (reached : rt.Reaches v) : (rt.modifyCell r f).Reaches v := by
  refine reached.mono (fun v root => ((root_modifyCell kind v).mpr root).reaches) ?_
  intro k r' c _ reached' found v held
  by_cases same : r' = r
  · subst same
    have found' : (rt.modifyCell r' f).heap.cell? r' = some (f c) := by
      simp [Runtime.modifyCell, Heap.cell?_modify, found]
    rcases kept c found v held with still | root
    · exact .child reached' found' still
    · exact root.reaches
  · have found' : (rt.modifyCell r f).heap.cell? r' = some c := by
      simp [Runtime.modifyCell, Heap.cell?_modify, same, found]
    exact .child reached' found' held

/-! ## Collection -/

theorem root_collect (rt : Runtime) (v : Val) : rt.collect.Root v ↔ rt.Root v := by
  have registered : rt.collect.heap.roots = rt.heap.roots := Heap.roots_collect ..
  constructor
  · intro root
    refine root.transfer { registered := registered.symm } rfl fun i s' c slot occupied pinned => ?_
    simp only [collect, Heap.slot_collect] at slot
    obtain ⟨s, slot', rfl⟩ := Option.map_eq_some_iff.mp slot
    split at occupied
    next => cases occupied
    next alive =>
      rw [if_neg alive] at pinned ⊢
      exact .pinned slot' occupied pinned
  · intro root
    refine root.transfer { registered } rfl fun i s c slot occupied pinned => ?_
    have kept : rt.collect.heap.slots[i]? = some s := by
      simp only [collect, Heap.slot_collect, slot, Option.map_some, Heap.garbage_eq slot, pinned]
      simp
    exact .pinned kept occupied pinned

theorem Reaches.collect {rt : Runtime} {v : Val} (reached : rt.Reaches v) :
    rt.collect.Reaches v := by
  refine reached.mono (fun v root => ((root_collect rt v).mpr root).reaches) ?_
  intro k r c parent reached' found v held
  exact .child reached' ((Heap.cell?_collect ..).mpr ⟨found, k, parent⟩) held

theorem Sound.holds_collect {rt : Runtime} (sound : rt.Sound) {v : Val} (reached : rt.Reaches v) :
    rt.collect.heap.Holds v := by
  have held := sound.holds reached
  cases v with
  | cell k r =>
    obtain ⟨c, found, kind⟩ := held
    exact ⟨c, (Heap.cell?_collect ..).mpr ⟨found, k, reached⟩, kind⟩
  | _ => trivial

theorem Sound.collect {rt : Runtime} (sound : rt.Sound) : rt.collect.Sound where
  heap := Heap.wellFormed_collect sound.heap rt.frames rt.rootValues
  nested := sound.nested
  top := sound.top
  running := sound.running
  captured r p found := sound.captured r p ((Heap.cell?_collect ..).mp found).1
  roots v root := sound.holds_collect ((root_collect rt v).mp root).reaches
  cells r c found v held := by
    obtain ⟨found', k, parent⟩ := (Heap.cell?_collect ..).mp found
    exact sound.holds_collect (.child parent found' held)

/-! ## Allocation -/

/-- The runtime when an allocation has collected if the heap was full. -/
def room (rt : Runtime) : Runtime := if rt.heap.full then rt.collect else rt

def place (rt : Runtime) (c : Cell) : Ref × Runtime :=
  ((rt.heap.alloc c false).1, { rt with
    heap := (rt.heap.alloc c false).2
    handles := rt.handles.push (.cell c.kind (rt.heap.alloc c false).1) })

theorem alloc_eq (rt : Runtime) (c : Cell) : rt.alloc c = rt.room.place c := rfl

theorem Sound.room {rt : Runtime} (sound : rt.Sound) : rt.room.Sound := by
  unfold Runtime.room
  split
  · exact sound.collect
  · exact sound

theorem Reaches.room {rt : Runtime} {v : Val} (reached : rt.Reaches v) : rt.room.Reaches v := by
  unfold Runtime.room
  split
  · exact reached.collect
  · exact reached

theorem frames_room (rt : Runtime) : rt.room.frames = rt.frames := by
  unfold room
  split <;> rfl

theorem cell?_place {rt : Runtime} (wf : rt.heap.WellFormed) (c : Cell) (r : Ref) :
    (rt.place c).2.heap.cell? r = if r = (rt.place c).1 then some c else rt.heap.cell? r :=
  Heap.cell?_alloc wf c false r

theorem place_fresh {rt : Runtime} (wf : rt.heap.WellFormed) (c : Cell) :
    rt.heap.cell? (rt.place c).1 = none :=
  Heap.alloc_dead wf c false _ rfl

theorem cell?_place_of_found {rt : Runtime} (wf : rt.heap.WellFormed) (c : Cell) {r : Ref}
    {c' : Cell} (found : rt.heap.cell? r = some c') :
    (rt.place c).2.heap.cell? r = some c' := by
  rw [cell?_place wf, if_neg, found]
  rintro rfl
  rw [place_fresh wf c] at found
  cases found

theorem root_place {rt : Runtime} (wf : rt.heap.WellFormed) (c : Cell) (v : Val) :
    (rt.place c).2.Root v ↔ rt.Root v ∨ v = .cell c.kind (rt.place c).1 := by
  have registered : (rt.place c).2.heap.roots = rt.heap.roots := Heap.roots_alloc ..
  constructor
  · intro root
    by_cases new : v = .cell c.kind (rt.place c).1
    · exact .inr new
    · left
      cases root with
      | core c member => exact .core c member
      | top held => exact .top held
      | global held => exact .global held
      | handle held =>
        rcases Array.mem_push.mp held with before | last
        · exact .handle before
        · exact absurd last new
      | running member held => exact .running member held
      | registered held => exact .registered (registered ▸ held)
      | pinned slot occupied pinned =>
        rcases Heap.slot_alloc slot with before | ⟨-, rfl⟩
        · exact .pinned before occupied pinned
        · cases pinned
  · rintro (root | rfl)
    · cases root with
      | core c member => exact .core c member
      | top held => exact .top held
      | global held => exact .global held
      | handle held => exact .handle (Array.mem_push.mpr (.inl held))
      | running member held => exact .running member held
      | registered held => exact .registered (registered ▸ held)
      | pinned slot occupied pinned =>
        have still := Heap.slot_alloc_of_occupied wf c false slot (by simp [occupied])
        exact .pinned still occupied pinned
    · exact .handle (Array.mem_push.mpr (.inr rfl))

theorem Sound.place {rt : Runtime} (sound : rt.Sound) {c : Cell}
    (stored : ∀ v ∈ c.children rt.frames, rt.heap.Holds v)
    (captured : ∀ p, c = .proc p → p.frame < rt.frames.store.size) : (rt.place c).2.Sound := by
  have held {v : Val} (before : rt.heap.Holds v) : (rt.place c).2.heap.Holds v :=
    Heap.holds_alloc sound.heap c false before
  refine ⟨Heap.wellFormed_alloc sound.heap c false, sound.nested, sound.top, sound.running,
    fun r p found => ?_, fun v root => ?_, fun r c' found v member => ?_⟩
  · rw [cell?_place sound.heap] at found
    split at found
    next => exact captured p (Option.some.inj found)
    next => exact sound.captured r p found
  · rcases (root_place sound.heap c v).mp root with before | rfl
    · exact held (sound.roots v before)
    · exact Heap.holds_cell (by rw [cell?_place sound.heap, if_pos rfl])
  · rw [cell?_place sound.heap] at found
    split at found
    next =>
      cases found
      exact held (stored v member)
    next => exact held (sound.cells r c' found v member)

theorem Reaches.place {rt : Runtime} {v : Val} (reached : rt.Reaches v)
    (wf : rt.heap.WellFormed) (c : Cell) : (rt.place c).2.Reaches v := by
  refine reached.mono (fun v root => ((root_place wf c v).mpr (.inl root)).reaches) ?_
  intro k r c' _ reached' found v held
  exact .child (c := c') reached' (cell?_place_of_found wf c found) held

theorem Available.room {rt : Runtime} {v : Val} (available : rt.Available v) :
    rt.room.Available v :=
  available.imp id Reaches.room

theorem Sound.alloc {rt : Runtime} (sound : rt.Sound) {c : Cell}
    (stored : ∀ v ∈ c.children rt.frames, rt.Available v)
    (captured : ∀ p, c = .proc p → p.frame < rt.frames.store.size) : (rt.alloc c).2.Sound := by
  rw [alloc_eq]
  refine sound.room.place (fun v held => ?_) fun p same => ?_
  · rw [frames_room] at held
    exact sound.room.holds_available (stored v held).room
  · rw [frames_room]
    exact captured p same

theorem Sound.reaches_alloc {rt : Runtime} (sound : rt.Sound) (c : Cell) {v : Val}
    (reached : rt.Reaches v) : (rt.alloc c).2.Reaches v :=
  reached.room.place sound.room.heap c

theorem wellFormed_room {rt : Runtime} (wf : rt.heap.WellFormed) : rt.room.heap.WellFormed := by
  unfold room
  split
  · exact Heap.wellFormed_collect wf rt.frames rt.rootValues
  · exact wf

theorem cell?_alloc_self {rt : Runtime} (wf : rt.heap.WellFormed) (c : Cell) :
    (rt.alloc c).2.heap.cell? (rt.alloc c).1 = some c := by
  rw [alloc_eq, cell?_place (wellFormed_room wf), if_pos rfl]

theorem alloc_held (rt : Runtime) (c : Cell) :
    .cell c.kind (rt.alloc c).1 ∈ (rt.alloc c).2.handles := by
  rw [alloc_eq]
  exact Array.mem_push.mpr (.inr rfl)

/-! ## Frames -/

theorem Sound.pushFrame {rt : Runtime} (sound : rt.Sound) {f : Frame}
    (parent : ∀ p, f.parent = some p → p < rt.frames.store.size) :
    Sound { rt with frames := (rt.frames.push f).2 } := by
  have same (i : Nat) (bound : i < rt.frames.store.size) :
      (rt.frames.push f).2.values i = rt.frames.values i :=
    Frames.values_push_of_lt sound.nested f bound
  have grown : rt.frames.store.size ≤ (rt.frames.push f).2.store.size := by simp [Frames.push]
  refine ⟨sound.heap, Frames.nested_push sound.nested parent, Nat.lt_of_lt_of_le sound.top grown,
    fun i member => Nat.lt_of_lt_of_le (sound.running i member) grown,
    fun r p found => Nat.lt_of_lt_of_le (sound.captured r p found) grown, fun v root => ?_,
    fun r c found v member => ?_⟩
  · refine sound.roots v ?_
    cases root with
    | core c member => exact .core c member
    | top held => exact .top (same topFrame sound.top ▸ held)
    | global held => exact .global held
    | handle held => exact .handle held
    | running member held => exact .running member (same _ (sound.running _ member) ▸ held)
    | registered held => exact .registered held
    | pinned slot occupied pinned => exact .pinned slot occupied pinned
  · refine sound.cells r c found v ?_
    cases c with
    | proc p =>
      rw [Cell.children, same p.frame (sound.captured r p found)] at member
      exact member
    | _ => exact member

theorem Sound.setLocal {rt : Runtime} (sound : rt.Sound) (i depth index : Nat) {val : Val}
    (stored : rt.heap.Holds val) :
    Sound { rt with frames := (rt.frames.setLocal i depth index val).2 } := by
  have size := Frames.size_setLocal rt.frames i depth index val
  have held {j : Nat} {v : Val} (member : v ∈ (rt.frames.setLocal i depth index val).2.values j)
      (before : ∀ v ∈ rt.frames.values j, rt.heap.Holds v) : rt.heap.Holds v := by
    rcases Frames.mem_values_setLocal sound.nested member with old | rfl | rfl
    · exact before v old
    · exact stored
    · trivial
  refine ⟨sound.heap, Frames.nested_setLocal sound.nested i depth index val, size ▸ sound.top,
    fun i member => size ▸ sound.running i member, fun r p found => size ▸ sound.captured r p found,
    fun v root => ?_, fun r c found v member => ?_⟩
  · cases root with
    | core c member => exact sound.roots _ (.core c member)
    | top here => exact held here fun v old => sound.roots v (.top old)
    | global held => exact sound.roots _ (.global held)
    | handle held => exact sound.roots _ (.handle held)
    | running member here => exact held here fun v old => sound.roots v (.running member old)
    | registered held => exact sound.roots _ (.registered held)
    | pinned slot occupied pinned => exact sound.roots _ (.pinned slot occupied pinned)
  · cases c with
    | proc p => exact held member (sound.cells r _ found)
    | _ => exact sound.cells r _ found v member

/-! ## Remembering -/

section
variable {rt rt' : Runtime}

theorem cell?_of_forget (same : rt'.forget = rt.forget) {r : Ref} {c' : Cell}
    (found : rt'.heap.cell? r = some c') :
    ∃ c, rt.heap.cell? r = some c ∧ c.forget = c'.forget := by
  have heaps : rt'.heap.forget = rt.heap.forget := congrArg (fun rt => rt.heap) same
  have mapped := Heap.cell?_forget rt'.heap r
  rw [heaps, Heap.cell?_forget, found] at mapped
  exact Option.map_eq_some_iff.mp mapped

theorem holds_of_forget (same : rt'.forget = rt.forget) (v : Val) :
    rt'.heap.Holds v ↔ rt.heap.Holds v := by
  have heaps : rt'.heap.forget = rt.heap.forget := congrArg (fun rt => rt.heap) same
  rw [← Heap.holds_forget, heaps, Heap.holds_forget]

theorem Root.of_forget {v : Val} (root : rt.Root v) (same : rt'.forget = rt.forget) : rt'.Root v := by
  have heaps : rt'.heap.forget = rt.heap.forget := congrArg (fun rt => rt.heap) same
  have frames : rt'.frames = rt.frames := congrArg (fun rt => rt.frames) same
  have roots : SameRoots rt rt' :=
    { globals := congrArg (fun rt => rt.globals) same
      handles := congrArg (fun rt => rt.handles) same
      calls := congrArg (fun rt => rt.calls) same
      registered := congrArg (fun rt => rt.heap.roots) same }
  refine root.transfer roots frames fun i s c slot occupied pinned => ?_
  have mapped := Heap.slots_forget rt'.heap i
  rw [heaps, Heap.slots_forget, slot, Option.map_some] at mapped
  obtain ⟨s', slot', both⟩ := Option.map_eq_some_iff.mp mapped.symm
  simp only [Slot.mk.injEq] at both
  obtain ⟨generation, cells, pinned'⟩ := both
  rw [occupied, Option.map_some] at cells
  obtain ⟨c', occupied', forgotten⟩ := Option.map_eq_some_iff.mp cells
  rw [← c.kind_forget, ← forgotten, c'.kind_forget, ← generation]
  exact .pinned slot' occupied' (pinned'.trans pinned)

theorem Reaches.of_forget {v : Val} (reached : rt.Reaches v) (same : rt'.forget = rt.forget) :
    rt'.Reaches v := by
  have frames : rt'.frames = rt.frames := congrArg (fun rt => rt.frames) same
  refine reached.mono (fun v root => (root.of_forget same).reaches) ?_
  intro k r c _ reached' found v held
  obtain ⟨c', found', forgotten⟩ := cell?_of_forget same.symm found
  refine .child reached' found' ?_
  rw [frames, ← Cell.children_forget, forgotten, Cell.children_forget]
  exact held

theorem Sound.of_forget (sound : rt.Sound) (same : rt'.forget = rt.forget) : rt'.Sound := by
  have heaps : rt'.heap.forget = rt.heap.forget := congrArg (fun rt => rt.heap) same
  have frames : rt'.frames = rt.frames := congrArg (fun rt => rt.frames) same
  have calls : rt'.calls = rt.calls := congrArg (fun rt => rt.calls) same
  refine ⟨?_, frames ▸ sound.nested, frames ▸ sound.top, calls ▸ frames ▸ sound.running,
    fun r p found => ?_, fun v root => ?_, fun r c' found v held => ?_⟩
  · rw [← Heap.wellFormed_forget, heaps, Heap.wellFormed_forget]
    exact sound.heap
  · obtain ⟨c, found', forgotten⟩ := cell?_of_forget same found
    cases c with
    | proc q =>
      cases forgotten
      exact frames ▸ sound.captured r p found'
    | _ => cases forgotten
  · exact (holds_of_forget same v).mpr (sound.roots v (root.of_forget same.symm))
  · obtain ⟨c, found', forgotten⟩ := cell?_of_forget same found
    refine (holds_of_forget same v).mpr (sound.cells r c found' v ?_)
    rw [← Cell.children_forget, forgotten, Cell.children_forget, ← frames]
    exact held

end

end ObjectRuntime.Runtime
