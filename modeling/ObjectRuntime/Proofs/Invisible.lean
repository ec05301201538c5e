import ObjectRuntime.Proofs.Mirror
import ObjectRuntime.Proofs.Supers

/-! Births that dispatch does not see. A new singleton class has no methods and stands below the
class that its value had, so that every value that is kept answers to the same methods, is of the
same modules and has the same real class as before. -/

namespace ObjectRuntime.Runtime

def IsClass (rt : Runtime) (r : Ref) : Prop := ∃ m, rt.module? r = some m ∧ m.isClass = true

instance (rt : Runtime) (r : Ref) : Decidable (rt.IsClass r) :=
  decidable_of_iff ((rt.module? r).any (·.isClass) = true) (Option.any_eq_true ..)

/-- Only classes stand above classes, and only classes have objects. -/
structure Classy (rt : Runtime) : Prop where
  superclasses : ∀ r m sup, rt.module? r = some m → m.isClass = true → m.superclass = some sup →
    rt.IsClass sup
  objects : ∀ r o, rt.object? r = some o → rt.IsClass o.cls
  core : rt.IsClass CoreClass.module.ref ∧ rt.IsClass CoreClass.klass.ref

/-- A value has a new singleton class, with no methods, below the class that belongs there. -/
structure Bears (rt rt' : Runtime) (v : Val) (sup x : Ref) : Prop where
  awaits : rt.Awaits v sup
  fresh : rt.heap.cell? x = none
  made : ∃ name, rt'.module? x = some (.singletonOf v sup name)
  recorded : rt'.singleton? v = some x

/-- A handle whose cell was freed, and whose slot is empty or taken by a new cell that is held. -/
def Spent (rt : Runtime) (r : Ref) : Prop :=
  ∃ s, rt.heap.slots[r.index]? = some s ∧ s.generation = r.generation + 1 ∧
    (s.cell.isSome → ∃ k, .cell k ⟨r.index, s.generation⟩ ∈ rt.handles)

def Passed (rt : Runtime) (r : Ref) : Prop := rt.heap.isLive r ∨ rt.Spent r

/-- Two states that dispatch on a value cannot tell apart, by the modules that were there. -/
structure Unseen (rt rt' : Runtime) (v : Val) : Prop where
  answers : ∀ name answer, rt.Answers (rt.classOf v) name none none answer →
    rt'.Answers (rt'.classOf v) name none none answer
  above : ∀ m, rt.Passed m →
    (Above rt'.parents (rt'.classOf v) m ↔ Above rt.parents (rt.classOf v) m)
  skips : ∀ c, rt.Skips (rt.classOf v) c → rt'.Skips (rt'.classOf v) c

variable {rt rt' rt'' : Runtime} {v : Val} {r x sup : Ref}

/-! ## Only classes above classes -/

theorem IsClass.keep (cls : rt.IsClass r) (keeps : Keeps rt rt') : rt'.IsClass r := by
  obtain ⟨m, found, cls⟩ := cls
  obtain ⟨m', found', kind, -⟩ := keeps.modules r m found
  exact ⟨m', found', (isClass_of_kind kind).trans cls⟩

theorem IsClass.room (reached : rt.Reaches (.module r)) (cls : rt.IsClass r) :
    rt.room.IsClass r := by
  obtain ⟨m, found, cls⟩ := cls
  exact ⟨m, (module?_room reached).trans found, cls⟩

theorem Classy.keep (classy : rt.Classy) (keeps : Keeps rt rt')
    (superclasses : ∀ r m' sup, rt'.module? r = some m' → m'.isClass = true →
      m'.superclass = some sup →
        (∃ m, rt.module? r = some m ∧ m.kind = m'.kind ∧ m.superclass = m'.superclass) ∨
          rt.IsClass sup)
    (objects : ∀ r o', rt'.object? r = some o' →
      (∃ o, rt.object? r = some o ∧ o.cls = o'.cls) ∨ rt.IsClass o'.cls) : rt'.Classy where
  superclasses r m' sup found cls edge := by
    rcases superclasses r m' sup found cls edge with ⟨m, found', kind, same⟩ | above
    · have cls' := (isClass_of_kind kind).trans cls
      exact (classy.superclasses r m sup found' cls' (same.trans edge)).keep keeps
    · exact above.keep keeps
  objects r o' found := by
    rcases objects r o' found with ⟨o, found', same⟩ | cls
    · exact (same ▸ classy.objects r o found').keep keeps
    · exact cls.keep keeps
  core := ⟨classy.core.1.keep keeps, classy.core.2.keep keeps⟩

theorem Classy.kin (classy : rt.Classy) (same : SameKin rt rt') : rt'.Classy := by
  refine classy.keep same.keeps (fun r m' sup found _ _ => .inl ?_) fun r o' found => .inl ?_
  · obtain ⟨m, found', kind, edge, -⟩ := same.keeps_back.modules r m' found
    exact ⟨m, found', kind, edge⟩
  · exact same.keeps_back.objects r o' found

theorem Classy.collect (classy : rt.Classy) : rt.collect.Classy := by
  have survivor {r : Ref} {c : Cell} (found : rt.collect.heap.cell? r = some c) :
      rt.heap.cell? r = some c ∧ ∃ k, rt.Reaches (.cell k r) := (Heap.cell?_collect ..).mp found
  have kept {r : Ref} (reached : rt.Reaches (.module r)) (cls : rt.IsClass r) :
      rt.collect.IsClass r := by
    obtain ⟨m, found, cls⟩ := cls
    exact ⟨m, by simpa only [module?, cell?_collect_of_reaches reached] using found, cls⟩
  have core (c : CoreClass) (member : c ∈ CoreClass.all) : rt.Reaches (.module c.ref) :=
    (Root.core c member).reaches
  refine ⟨fun r m sup found cls edge => ?_, fun r o found => ?_,
    kept (core _ (by decide)) classy.core.1, kept (core _ (by decide)) classy.core.2⟩
  · obtain ⟨cell, k, reached⟩ := survivor ((module?_eq_some ..).mp found)
    refine kept (.child reached cell (Module.mem_children.mpr (.superclass edge))) ?_
    exact classy.superclasses r m sup ((module?_eq_some ..).mpr cell) cls edge
  · obtain ⟨cell, k, reached⟩ := survivor ((object?_eq_some ..).mp found)
    refine kept (.child reached cell (by simp [Cell.children])) ?_
    exact classy.objects r o ((object?_eq_some ..).mpr cell)

/-- What belongs above a singleton class is a class. -/
theorem Classy.isClass (classy : rt.Classy) (mirrored : rt.Mirrored) (mirrors : rt.Mirrors v sup) :
    rt.IsClass sup := by
  cases mirrors with
  | object found => exact classy.objects _ _ found
  | plain => exact classy.core.1
  | root => exact classy.core.2
  | below found cls edge above =>
    obtain ⟨m, -, found', singleton, -⟩ := mirrored.recorded _ _ above
    refine ⟨m, found', ?_⟩
    simp only [Module.isSingleton, decide_eq_true_eq] at singleton
    simp [Module.isClass, singleton]

theorem Classy.bear (classy : rt.Classy) (mirrored : rt.Mirrored) (wf : rt.heap.WellFormed)
    (awaits : rt.Awaits v sup) (name : String) : (rt.bear v sup name).2.Classy := by
  refine classy.keep (keeps_bear wf awaits name) (fun r m' sup' found cls edge => ?_)
    fun r o' found => .inl (object_of_bear wf awaits found)
  by_cases new : r = (rt.bear v sup name).1
  · rw [new, module?_bear_self wf awaits name] at found
    cases found
    cases edge
    exact .inr (classy.isClass mirrored awaits.mirrors)
  · exact .inl (module_of_bear wf awaits new found)

theorem Classy.place (classy : rt.Classy) (wf : rt.heap.WellFormed) {c : Cell}
    (born : Born IsClass rt c) : (rt.place c).2.Classy := by
  refine classy.keep (keeps_place wf born.plain.1) (fun r m' sup found cls edge => ?_)
    fun r o' found => ?_
  · rw [module?_eq_some, cell?_place wf] at found
    split at found
    next =>
      cases found
      cases born with
      | data plain => cases plain
      | module => cases edge
      | subclass found' cls' =>
        cases edge
        exact .inr ⟨_, found', cls'⟩
    next => exact .inl ⟨m', (module?_eq_some ..).mpr found, rfl, rfl⟩
  · rw [object?_eq_some, cell?_place wf] at found
    split at found
    next =>
      cases found
      cases born with
      | data plain => cases plain
      | object allowed => exact .inr allowed
    next => exact .inl ⟨o', (object?_eq_some ..).mpr found, rfl⟩

theorem Birth.classy (birth : Birth rt rt') (wf : rt.heap.WellFormed) (mirrored : rt.Mirrored)
    (classy : rt.Classy) : rt'.Classy := by
  cases birth with
  | collect => exact classy.collect
  | bear awaits name => exact classy.bear mirrored wf awaits name

/-! ## Handles of before -/

theorem Spent.dead (spent : rt.Spent r) : rt.heap.isLive r = false := by
  obtain ⟨s, slot, later, -⟩ := spent
  cases live : rt.heap.isLive r with
  | false => rfl
  | true =>
    obtain ⟨c, found⟩ := (Heap.isLive_iff ..).mp live
    obtain ⟨s', slot', now, -⟩ := (Heap.cell?_eq_some_iff ..).mp found
    cases slot.symm.trans slot'
    rw [later] at now
    simp at now

theorem Spent.collect (spent : rt.Spent r) : rt.collect.Spent r := by
  obtain ⟨s, slot, later, held⟩ := spent
  refine ⟨s, ?_, later, held⟩
  simp only [Runtime.collect, Heap.slot_collect, slot, Option.map_some]
  rw [if_neg]
  intro dead
  cases occupied : s.cell with
  | none => simp [Heap.garbage_eq slot, occupied] at dead
  | some c =>
    -- the new cell of the slot is held, and so it is reached
    obtain ⟨k, held⟩ := held (by rw [occupied]; rfl)
    have found : rt.heap.cell? ⟨r.index, s.generation⟩ = some c :=
      (Heap.cell?_of_slot slot).trans occupied
    exact (Heap.garbage_iff rt.frames rt.rootValues found).mp dead ⟨k, (Root.handle held).reaches⟩

theorem Spent.place (spent : rt.Spent r) (c : Cell) : (rt.place c).2.Spent r := by
  obtain ⟨s, slot, later, held⟩ := spent
  rcases Heap.slot_alloc_later c false slot with still | ⟨here, taken⟩
  · refine ⟨s, still, later, fun occupied => ?_⟩
    obtain ⟨k, held⟩ := held occupied
    exact ⟨k, Array.mem_push.mpr (.inl held)⟩
  · exact ⟨_, taken, later, fun _ => ⟨c.kind, Array.mem_push.mpr (.inr (here ▸ rfl))⟩⟩

theorem Spent.record (spent : rt.Spent r) (v : Val) (s : Ref) : (rt.record v s).Spent r := by
  cases v with
  | cell k a =>
    obtain ⟨s', slot, later, held⟩ := spent
    have written := Heap.slots_modify rt.heap a (Cell.record s k) r.index
    rw [slot, Option.map_some] at written
    refine ⟨_, written, by split <;> exact later, ?_⟩
    split
    · exact fun occupied => held (by simpa using occupied)
    · exact held
  | _ => exact spent

theorem Birth.spent (birth : Birth rt rt') (spent : rt.Spent r) : rt'.Spent r := by
  cases birth with
  | collect => exact spent.collect
  | bear => exact (spent.place _).record _ _

theorem Birth.passed (birth : Birth rt rt') (wf : rt.heap.WellFormed) (passed : rt.Passed r) :
    rt'.Passed r := by
  rcases passed with live | spent
  · obtain ⟨c, found⟩ := (Heap.isLive_iff ..).mp live
    cases birth with
    | collect =>
      cases found' : rt.collect.heap.cell? r with
      | some c' => exact .inl ((Heap.isLive_iff ..).mpr ⟨c', found'⟩)
      | none =>
        -- a cell that dies leaves its slot in the next generation
        obtain ⟨freed, -⟩ := Heap.freed_collect wf rt.frames rt.rootValues found found'
        exact .inr ⟨_, freed, rfl, nofun⟩
    | bear awaits name =>
      obtain ⟨k, a, c', rfl, found', -⟩ := awaits.found
      refine .inl ((Heap.isLive_iff ..).mpr ?_)
      rw [cell?_bear wf found']
      repeat' split
      · exact ⟨_, rfl⟩
      · exact ⟨_, rfl⟩
      · exact ⟨c, found⟩
  · exact .inr (birth.spent spent)

/-- A new singleton class takes no handle that there was. -/
theorem Bears.apart (bears : Bears rt rt' v sup x) (birth : Birth rt rt')
    (passed : rt.Passed r) : r ≠ x := by
  rintro rfl
  rcases passed with live | spent
  · rw [Heap.isLive, bears.fresh] at live
    cases live
  · obtain ⟨name, made⟩ := bears.made
    have live := Heap.isLive_of_holds (holds_of_module made)
    rw [(birth.spent spent).dead] at live
    cases live

theorem bears (wf : rt.heap.WellFormed) (awaits : rt.Awaits v sup) (name : String) :
    Bears rt (rt.bear v sup name).2 v sup (rt.bear v sup name).1 where
  awaits := awaits
  fresh := place_fresh wf _
  made := ⟨name, module?_bear_self wf awaits name⟩
  recorded := by rw [singleton?_bear wf awaits, if_pos rfl]

/-- What is still there after a birth had its cell before. -/
theorem Birth.holds_before (birth : Birth rt rt') (wf : rt.heap.WellFormed) {k : Kind}
    (passed : rt.Passed r) (after : rt'.heap.Holds (.cell k r)) : rt.heap.Holds (.cell k r) := by
  obtain ⟨c, found, kind⟩ := after
  cases birth with
  | collect => exact ⟨c, ((Heap.cell?_collect ..).mp found).1, kind⟩
  | @bear v sup awaits name =>
    have apart := (bears wf awaits name).apart (.bear awaits name) passed
    obtain ⟨k', a, c', rfl, found', -⟩ := awaits.found
    rw [cell?_bear wf found', if_neg apart] at found
    split at found
    next same =>
      cases found
      exact ⟨c', same ▸ found', (Cell.kind_record ..).symm.trans kind⟩
    next => exact ⟨c, found, kind⟩

/-! ## What a birth leaves -/

/-- A cell that is still there is what it was, or it is that of the value with the new singleton
class. -/
theorem Birth.cell (birth : Birth rt rt') (wf : rt.heap.WellFormed) {c : Cell}
    (found : rt.heap.cell? r = some c) (after : rt'.heap.isLive r) :
    rt'.heap.cell? r = some c ∨ ∃ sup x, Bears rt rt' (.cell c.kind r) sup x ∧
      rt'.heap.cell? r = some (c.record x c.kind) := by
  cases birth with
  | collect =>
    obtain ⟨c', found'⟩ := (Heap.isLive_iff ..).mp after
    have same := ((Heap.cell?_collect ..).mp found').1
    cases found.symm.trans same
    exact .inl found'
  | bear awaits name =>
    have bears := bears wf awaits name
    have apart := bears.apart (.bear awaits name) (.inl ((Heap.isLive_iff ..).mpr ⟨c, found⟩))
    obtain ⟨k, a, c', rfl, found', rfl, -⟩ := awaits.found
    rw [cell?_bear wf found', if_neg apart]
    split
    next same =>
      subst same
      cases found.symm.trans found'
      exact .inr ⟨_, _, bears, rfl⟩
    next => exact .inl found

theorem Birth.module (birth : Birth rt rt') (wf : rt.heap.WellFormed) {m : Module}
    (found : rt.module? r = some m) (after : rt'.heap.isLive r) :
    ∃ s, rt'.module? r = some { m with singleton := s } := by
  simp only [module?_eq_some] at found ⊢
  rcases birth.cell wf found after with same | ⟨sup, x, -, recorded⟩
  · exact ⟨_, same⟩
  · exact ⟨_, recorded⟩

theorem Birth.sameParents (birth : Birth rt rt') (wf : rt.heap.WellFormed) :
    SameParents rt rt' := by
  intro r before after
  obtain ⟨m, found⟩ := module_of_holds before
  obtain ⟨s, found'⟩ := birth.module wf found (Heap.isLive_of_holds after)
  simp only [parents, found, found', Option.map_some]
  rfl

theorem Birth.method? (birth : Birth rt rt') (wf : rt.heap.WellFormed)
    (before : rt.heap.Holds (.module r)) (after : rt'.heap.Holds (.module r)) (name : Sym) :
    rt'.method? r name = rt.method? r name := by
  obtain ⟨m, found⟩ := module_of_holds before
  obtain ⟨s, found'⟩ := birth.module wf found (Heap.isLive_of_holds after)
  simp only [Runtime.method?, found, found', Option.bind_some]

/-- The nearest class that is no singleton class stays it. -/
theorem Birth.skips (birth : Birth rt rt') (intact : rt.Intact) {c : Ref}
    (skips : rt.Skips r c) (before : rt.heap.Holds (.module r))
    (after : rt'.heap.Holds (.module r)) : rt'.Skips r c := by
  have wf := intact.sound.heap
  have later {r : Ref} {m : Module} (found : rt.module? r = some m)
      (after : rt'.heap.Holds (.module r)) := birth.module wf found (Heap.isLive_of_holds after)
  induction skips with
  | missing gone =>
    obtain ⟨m, found⟩ := module_of_holds before
    cases gone.symm.trans found
  | root found top =>
    obtain ⟨s, found'⟩ := later found after
    exact .root found' top
  | real found real =>
    obtain ⟨s, found'⟩ := later found after
    exact .real found' real
  | up found singleton edge rest ih =>
    obtain ⟨s, found'⟩ := later found after
    exact .up found' singleton edge
      (ih (intact.sound.holds_parent (superclass_mem_parents found edge))
        ((birth.intact intact).sound.holds_parent (superclass_mem_parents found' edge)))

/-! ## The class of a value -/

theorem Inherits.unique {start answer answer' : Option Ref} (inherits : rt.Inherits start answer)
    (inherits' : rt.Inherits start answer') : answer = answer' := by
  induction inherits with
  | root => cases inherits'; rfl
  | missing gone =>
    cases inherits' with
    | missing => rfl
    | own found => cases gone.symm.trans found
    | up found => cases gone.symm.trans found
  | own found made =>
    cases inherits' with
    | missing gone => cases gone.symm.trans found
    | own found' made' =>
      cases found.symm.trans found'
      exact made.symm.trans made'
    | up found' unmade =>
      cases found.symm.trans found'
      cases made.symm.trans unmade
  | up found unmade rest ih =>
    cases inherits' with
    | missing gone => cases gone.symm.trans found
    | own found' made =>
      cases found.symm.trans found'
      cases unmade.symm.trans made
    | up found' _ rest' =>
      cases found.symm.trans found'
      exact ih rest'

theorem classOf_module {m : Module} (found : rt.module? r = some m) :
    rt.classOf (.module r) = m.singleton.getD (if m.isClass then
      (rt.inheritedSingleton rt.heap.slots.size m.superclass).getD CoreClass.klass.ref
      else CoreClass.module.ref) := by
  simp only [classOf, (module?_eq_some ..).mp found]
  cases m.singleton with
  | some s => rfl
  | none => cases m.isClass <;> rfl

theorem classOf_of_singleton? (made : rt.singleton? v = some x) : rt.classOf v = x := by
  cases v with
  | cell k r =>
    obtain ⟨c, found, own⟩ := Option.bind_eq_some_iff.mp made
    cases c with
    | object o =>
      cases k with
      | object =>
        have own : o.singleton = some x := own
        simp only [classOf, found, own, Option.getD_some]
      | _ => cases own
    | module m =>
      cases k with
      | module =>
        have own : m.singleton = some x := own
        rw [classOf_module ((module?_eq_some ..).mpr found), own, Option.getD_some]
      | _ => cases own
    | _ => cases k <;> cases own
  | _ => cases made

theorem inheritedSingleton_eq (intact : rt.Intact) {m : Module} (found : rt.module? r = some m) :
    rt.inheritedSingleton rt.heap.slots.size (some r) =
      m.singleton.or (rt.inheritedSingleton rt.heap.slots.size m.superclass) := by
  refine (intact.inherits _).unique ?_
  cases made : m.singleton with
  | some s => exact .own found made
  | none => exact .up found made (intact.inherits _)

/-- A class without a singleton class has the class that its superclass has. -/
theorem classOf_below (intact : rt.Intact) {m m' : Module} (found : rt.module? r = some m)
    (cls : m.isClass = true) (unmade : m.singleton = none) (edge : m.superclass = some sup)
    (found' : rt.module? sup = some m') (cls' : m'.isClass = true) :
    rt.classOf (.module r) = rt.classOf (.module sup) := by
  rw [classOf_module found, classOf_module found', unmade, edge, inheritedSingleton_eq intact found',
    cls, cls']
  cases m'.singleton <;> rfl

/-- What belongs above the singleton class of a value without one is the class of the value. -/
theorem Awaits.classOf (awaits : rt.Awaits v sup) (intact : rt.Intact) : rt.classOf v = sup := by
  obtain ⟨unmade, mirrors⟩ := awaits
  cases mirrors with
  | object found =>
    rw [singleton?_object found] at unmade
    simp only [Runtime.classOf, (object?_eq_some ..).mp found, unmade, Option.getD_none]
  | plain found plain =>
    rw [singleton?_module found] at unmade
    simp [classOf_module found, unmade, plain]
  | root found cls top =>
    rw [singleton?_module found] at unmade
    rw [classOf_module found, unmade, cls, top, (intact.inherits none).unique .root]
    rfl
  | below found cls edge above =>
    obtain ⟨m', found'⟩ := module_of_holds
      (intact.sound.holds_parent (superclass_mem_parents found edge))
    rw [singleton?_module found] at unmade
    rw [singleton?_module found'] at above
    rw [classOf_module found, unmade, cls, edge, inheritedSingleton_eq intact found', above]
    rfl

/-- A birth leaves a value its class, or puts the new singleton class below it. -/
def Lowers (rt rt' : Runtime) (v : Val) : Prop :=
  rt'.classOf v = rt.classOf v ∨ ∃ w x, Bears rt rt' w (rt.classOf v) x ∧ rt'.classOf v = x

theorem Bears.lowers (bears : Bears rt rt' v sup x) (intact : rt.Intact) : Lowers rt rt' v :=
  .inr ⟨v, x, (bears.awaits.classOf intact).symm ▸ bears, classOf_of_singleton? bears.recorded⟩

/-- By induction up the superclasses, to the nearest class that has or gets a singleton class. -/
theorem Birth.lowers_class (birth : Birth rt rt') (intact : rt.Intact) (classy : rt.Classy)
    {m : Module} (found : rt.module? r = some m) (cls : m.isClass = true)
    (after : rt'.heap.Holds (.module r)) : Lowers rt rt' (.module r) := by
  have wf := intact.sound.heap
  have intact' := birth.intact intact
  induction (intact.faithful.graded r).choose_spec.acc generalizing m with
  | intro r _ ih =>
    rcases birth.cell wf ((module?_eq_some ..).mp found) (Heap.isLive_of_holds after) with
      same | ⟨sup, x, bears, -⟩
    · have found' := (module?_eq_some ..).mpr same
      cases made : m.singleton with
      | some s =>
        exact .inl (by rw [classOf_module found, classOf_module found', made]; rfl)
      | none =>
        cases edge : m.superclass with
        | none =>
          left
          rw [classOf_module found, classOf_module found', made, edge,
            (intact.inherits none).unique .root, (intact'.inherits none).unique .root]
        | some sup =>
          obtain ⟨above, found₁, cls₁⟩ := classy.superclasses r m sup found cls edge
          have after₁ := intact'.sound.holds_parent (superclass_mem_parents found' edge)
          obtain ⟨s, found₂⟩ := birth.module wf found₁ (Heap.isLive_of_holds after₁)
          rw [Lowers, classOf_below intact found cls made edge found₁ cls₁,
            classOf_below intact' found' cls made edge found₂ cls₁]
          exact ih sup (superclass_mem_parents found edge) found₁ cls₁ after₁
    · exact bears.lowers intact

theorem Birth.lowers (birth : Birth rt rt') (intact : rt.Intact) (classy : rt.Classy)
    (before : rt.heap.Holds v) (after : rt'.heap.Holds v) : Lowers rt rt' v := by
  cases v with
  | cell k r =>
    obtain ⟨c, found, rfl⟩ := before
    rcases birth.cell intact.sound.heap found (Heap.isLive_of_holds after) with
      same | ⟨sup, x, bears, -⟩
    · cases c with
      | module m =>
        have found₁ := (module?_eq_some ..).mpr found
        cases cls : m.isClass with
        | true => exact birth.lowers_class intact classy found₁ cls after
        | false =>
          left
          rw [Cell.kind, classOf_module found₁, classOf_module ((module?_eq_some ..).mpr same), cls]
          rfl
      | _ => exact .inl (by simp only [classOf, found, same])
    · exact bears.lowers intact
  | bool b => cases b <;> exact .inl rfl
  | _ => exact .inl rfl

/-! ## Dispatch -/

theorem Answers.unique {c : Ref} {name : Sym} {after exclude answer answer' : Option Method}
    (right : rt.Answers c name after exclude answer)
    (right' : rt.Answers c name after exclude answer') : answer = answer' := by
  obtain ⟨above, linear, rfl⟩ := right
  obtain ⟨above', linear', rfl⟩ := right'
  rw [linear.unique linear']

theorem Skips.unique {c answer answer' : Ref} (skips : rt.Skips c answer)
    (skips' : rt.Skips c answer') : answer = answer' := by
  induction skips with
  | missing gone =>
    cases skips' with
    | up found => cases gone.symm.trans found
    | _ => rfl
  | root found top =>
    cases skips' with
    | up found' _ edge =>
      cases found.symm.trans found'
      cases top.symm.trans edge
    | _ => rfl
  | real found real =>
    cases skips' with
    | up found' singleton =>
      cases found.symm.trans found'
      cases real.symm.trans singleton
    | _ => rfl
  | up found singleton edge rest ih =>
    cases skips' with
    | missing gone => cases gone.symm.trans found
    | root found' top =>
      cases found.symm.trans found'
      cases top.symm.trans edge
    | real found' real =>
      cases found.symm.trans found'
      cases real.symm.trans singleton
    | up found' _ edge' rest' =>
      cases found.symm.trans found'
      cases edge.symm.trans edge'
      exact ih rest'

/-- A module without methods answers as its only parent does. -/
theorem Answers.below {c : Ref} {name : Sym} {answer : Option Method}
    (right : rt.Answers c name none none answer) (only : rt.parents x = [c])
    (empty : rt.method? x name = none) (fresh : ¬ Above rt.parents c x) :
    rt.Answers x name none none answer := by
  obtain ⟨above, linear, rfl⟩ := right
  have merged : Linear rt.parents x
      ((rt.parents x).foldl (fun linear _ => mergeLinear linear above) [x]) :=
    .intro x (fun _ => above) fun p member => by
      rw [only, List.mem_singleton] at member
      exact member ▸ linear
  have absent : x ∉ above := fun member => fresh (linear.mem_iff.mp member)
  have kept : above.filter (· ∉ [x]) = above :=
    List.filter_eq_self.mpr fun a member => by
      simpa using fun same : a = x => absent (same ▸ member)
  rw [only, List.foldl_cons, List.foldl_nil, mergeLinear, kept] at merged
  exact ⟨x :: above, merged, by simp [plainSearch, firstEntry, empty]⟩

theorem Birth.unseen (birth : Birth rt rt') (intact : rt.Intact) (classy : rt.Classy)
    (before : rt.heap.Holds v) (after : rt'.heap.Holds v) : Unseen rt rt' v := by
  have wf := intact.sound.heap
  have intact' := birth.intact intact
  have here := intact.sound.holds_classOf before
  have there := intact'.sound.holds_classOf after
  have edges := birth.sameParents wf
  -- what holds of the class of before, as long as it is there
  have answers (live : rt'.heap.Holds (.module (rt.classOf v))) (name : Sym)
      (answer : Option Method) (right : rt.Answers (rt.classOf v) name none none answer) :
      rt'.Answers (rt.classOf v) name none none answer :=
    right.carry intact.sound intact'.sound edges (fun r before after =>
      birth.method? wf before after name) here live
  have above (live : rt'.heap.Holds (.module (rt.classOf v))) (m : Ref) :
      Above rt'.parents (rt.classOf v) m ↔ Above rt.parents (rt.classOf v) m :=
    ⟨fun higher => higher.congr (SameParents.parents (fun r after before =>
        (edges r before after).symm) intact'.sound intact.sound live here),
      fun higher => higher.congr (edges.parents intact.sound intact'.sound here live)⟩
  rcases birth.lowers intact classy before after with same | ⟨w, x, bears, same⟩
  · rw [same] at there
    refine ⟨fun name answer right => ?_, fun m _ => ?_, fun c skips => ?_⟩ <;> rw [same]
    · exact answers there name answer right
    · exact above there m
    · exact birth.skips intact skips here there
  · obtain ⟨name, made⟩ := bears.made
    have only : rt'.parents x = [rt.classOf v] := by
      simp only [parents, made, Option.map_some]
      rfl
    have live := intact'.sound.holds_parent (m := x) (by rw [only]; exact List.mem_singleton_self _)
    refine ⟨fun name answer right => ?_, fun m passed => ?_, fun c skips => ?_⟩ <;> rw [same]
    · refine (answers live name answer right).below only ?_ ?_
      · simp only [Runtime.method?, made, Option.bind_some]
        rfl
      · exact (intact'.faithful.graded x).choose_spec.acyclic
          (by rw [only]; exact List.mem_singleton_self _)
    · rw [above_iff, only]
      simp only [bears.apart birth passed, List.mem_singleton, false_or, exists_eq_left]
      exact above live m
    · exact .up made rfl rfl (birth.skips intact skips here live)

theorem Unseen.refl (rt : Runtime) (v : Val) : Unseen rt rt v :=
  ⟨fun _ _ => id, fun _ _ => .rfl, fun _ => id⟩

theorem Unseen.trans (first : Unseen rt rt' v) (second : Unseen rt' rt'' v)
    (passed : ∀ m, rt.Passed m → rt'.Passed m) : Unseen rt rt'' v where
  answers name answer right := second.answers name answer (first.answers name answer right)
  above m before := (second.above m (passed m before)).trans (first.above m before)
  skips c skips := second.skips c (first.skips c skips)

/-- A chain of births is not seen by a value that is there before and after it. -/
theorem Births.unseen (births : Births rt rt') (intact : rt.Intact) (mirrored : rt.Mirrored)
    (classy : rt.Classy) (before : rt.heap.Holds v) (after : rt'.heap.Holds v) :
    Unseen rt rt' v := by
  have steps : rt'.Classy ∧ rt'.Mirrored ∧ (∀ r, rt.Passed r → rt'.Passed r) ∧
      (rt'.heap.Holds v → Unseen rt rt' v) := by
    clear after
    induction births with
    | refl => exact ⟨classy, mirrored, fun _ => id, fun _ => .refl rt v⟩
    | @tail rt₁ rt₂ births birth ih =>
      obtain ⟨classy, mirrored, passed, unseen⟩ := ih
      have intact₁ : rt₁.Intact := Births.intact births intact
      have wf := intact₁.sound.heap
      have grown : Growth IsClass rt₁ rt₂ := .birth birth
      refine ⟨birth.classy wf mirrored classy, mirrored.growth wf grown,
        fun r before => birth.passed wf (passed r before), fun after => ?_⟩
      have between : rt₁.heap.Holds v := by
        cases v with
        | cell k r => exact birth.holds_before wf (passed r (.inl (Heap.isLive_of_holds before))) after
        | _ => trivial
      exact (unseen between).trans (birth.unseen intact₁ classy between after) passed
  exact steps.2.2.2 after

/-! ## Runs -/

/-- What stands above the cell is a class. -/
def isBelowClass (rt : Runtime) : Cell → Bool
  | .object o => rt.IsClass o.cls
  | .module m => !m.isClass || m.superclass.all fun sup => rt.IsClass sup
  | _ => true

theorem below_first : ∀ e ∈ (firstHeap {}).slots.toList.zipIdx, ∀ c ∈ e.1.cell,
    (bare {}).isBelowClass c = true := by
  decide +kernel

theorem classes_first : (bare {}).IsClass CoreClass.module.ref ∧
    (bare {}).IsClass CoreClass.klass.ref := by
  decide +kernel

attribute [local irreducible] firstHeap

theorem isClass_bare (config : Config) (cls : (bare {}).IsClass r) : (bare config).IsClass r := by
  obtain ⟨m, found, cls⟩ := cls
  rw [module?_eq_some] at found
  exact ⟨m, (module?_eq_some ..).mpr ((cell?_firstHeap config r).trans found), cls⟩

theorem classy_bare (config : Config) : (bare config).Classy := by
  have below {r : Ref} {c : Cell} (found : (bare config).heap.cell? r = some c) :
      (bare {}).isBelowClass c = true := by
    obtain ⟨s, slot, occupied⟩ := slot_first found
    exact below_first (s, r.index) slot c occupied
  refine ⟨fun r m sup found cls edge => isClass_bare config ?_, fun r o found =>
    isClass_bare config ?_, isClass_bare config classes_first.1,
    isClass_bare config classes_first.2⟩
  · have stands := below ((module?_eq_some ..).mp found)
    simpa [isBelowClass, cls, edge] using stands
  · have stands := below ((object?_eq_some ..).mp found)
    simpa [isBelowClass] using stands

theorem Turns.classy (turns : Turns IsClass rt rt') (wf : rt.heap.WellFormed)
    (mirrored : rt.Mirrored) (classy : rt.Classy) : rt'.Mirrored ∧ rt'.Classy := by
  refine turns.keep (P := fun rt => rt.Mirrored ∧ rt.Classy)
    (fun same both => ⟨both.1.kin same, both.2.kin same⟩) (fun wf growth both => ?_) wf
    ⟨mirrored, classy⟩
  refine ⟨both.1.growth wf growth, ?_⟩
  cases growth with
  | birth birth => exact birth.classy wf both.1 both.2
  | place born => exact both.2.place wf born

theorem classy_run (config : Config) {moves : List Move}
    (permitted : (boot config).PermitsRun moves) (classes : Instances IsClass (boot config) moves) :
    ((boot config).after moves).Mirrored ∧ ((boot config).after moves).Classy :=
  Turns.classy ((Turns.boot config).trans
      (Turns.after IsClass.room (intact_boot config) permitted classes))
    (intact_bare config).sound.heap (mirrored_bare config) (classy_bare config)

/-- Making a singleton class, and whatever singleton classes above it are missing, leaves every
value that is kept the methods it answers with, the modules it is of and its real class, in every
run that makes objects of classes only. -/
theorem dispatch_unchanged (config : Config) (moves : List Move)
    (permitted : (boot config).PermitsRun moves) (classes : Instances IsClass (boot config) moves)
    (w : Val) (available : ((boot config).after moves).Available w) :
    let rt := (boot config).after moves
    let rt' := (rt.singletonClass w).2
    (∀ v, rt.Available v → rt'.heap.Holds v) ∧
    ∀ v, rt.heap.Holds v → rt'.heap.Holds v →
      (∀ name, (rt'.findMethod (rt'.classOf v) name none none).1 =
        (rt.findMethod (rt.classOf v) name none none).1) ∧
      (∀ m, rt.heap.Holds (.module m) → (rt'.isA v m).1 = (rt.isA v m).1) ∧
      rt'.realClassOf v = rt.realClassOf v := by
  have intact := (intact_boot config).after permitted
  obtain ⟨mirrored, classy⟩ := classy_run config permitted classes
  generalize (boot config).after moves = rt at intact mirrored classy available ⊢
  obtain ⟨births, -⟩ := births_singletonClass intact available
  have intact' := births.intact intact
  simp only
  generalize (rt.singletonClass w).2 = rt' at births intact' ⊢
  refine ⟨fun v available => intact'.holds (available.imp id (births.reaches intact)),
    fun v before after => ?_⟩
  obtain ⟨answers, above, skips⟩ := births.unseen intact mirrored classy before after
  have sound := intact.sound
  have sound' := intact'.sound
  refine ⟨fun name => ?_, fun m held => ?_, ?_⟩
  · obtain ⟨right, -⟩ := findMethod_spec sound intact.faithful (sound.holds_classOf before) name
      none none
    obtain ⟨right', -⟩ := findMethod_spec sound' intact'.faithful (sound'.holds_classOf after) name
      none none
    exact right'.unique (answers name _ right)
  · obtain ⟨linear, -⟩ := ancestry_spec sound intact.faithful (rt.classOf v)
    obtain ⟨linear', -⟩ := ancestry_spec sound' intact'.faithful (rt'.classOf v)
    have same : m ∈ (rt'.ancestry (rt'.classOf v)).1 ↔ m ∈ (rt.ancestry (rt.classOf v)).1 := by
      rw [linear'.mem_iff, linear.mem_iff]
      exact above m (.inl (Heap.isLive_of_holds held))
    exact decide_eq_decide.mpr same
  · exact (intact'.skips v).unique (skips _ (intact.skips v))

/-- Three classes below one another, of which the first has a singleton class with a method, and an
object of the last. -/
def inheriting : List Move :=
  [.act (.subclass CoreClass.object.ref none none), .act (.subclass ⟨38, 0⟩ none none),
   .act (.subclass ⟨39, 0⟩ none none), .act (.singletonClass (.module ⟨38, 0⟩)),
   .act (.defineMethod ⟨41, 0⟩ ⟨40⟩ (.native (.user 0)) 0), .act (.newObject ⟨40, 0⟩)]

theorem permits_inheriting : (boot {}).PermitsRun inheriting := by
  refine ⟨.of_roots (List.forall_mem_singleton.mpr (.core .object (by decide))) rfl,
    .of_roots (List.forall_mem_singleton.mpr (.handle ?_)) rfl,
    .of_roots (List.forall_mem_singleton.mpr (.handle ?_)) rfl,
    .of_roots (List.forall_mem_singleton.mpr (.handle ?_)) rfl,
    .of_roots (List.forall_mem_singleton.mpr (.handle ?_)) rfl,
    .of_roots (List.forall_mem_singleton.mpr (.handle ?_)) rfl, trivial⟩
  all_goals decide +kernel

theorem classes_inheriting : Instances IsClass (boot {}) inheriting := by
  refine ⟨nofun, nofun, nofun, nofun, nofun, fun cls made => ?_, trivial⟩
  cases made
  decide +kernel

theorem inheriting_unchanged : let rt := (boot {}).after inheriting
    let rt' := (rt.singletonClass (.module ⟨40, 0⟩)).2
    ((boot {}).PermitsRun inheriting ∧ Instances IsClass (boot {}) inheriting ∧
      rt.Available (.module ⟨40, 0⟩)) ∧
    rt'.classOf (.module ⟨40, 0⟩) ≠ rt.classOf (.module ⟨40, 0⟩) ∧
    (rt.findMethod (rt.classOf (.module ⟨40, 0⟩)) ⟨40⟩ none none).1.isSome ∧
    (rt'.findMethod (rt'.classOf (.module ⟨40, 0⟩)) ⟨40⟩ none none).1 =
      (rt.findMethod (rt.classOf (.module ⟨40, 0⟩)) ⟨40⟩ none none).1 :=
  have available : ((boot {}).after inheriting).Available (.module ⟨40, 0⟩) :=
    (Root.handle (by decide +kernel)).available
  ⟨⟨permits_inheriting, classes_inheriting, available⟩, by decide +kernel, by decide +kernel,
    ((dispatch_unchanged {} inheriting permits_inheriting classes_inheriting _ available).2
      (.module ⟨40, 0⟩) (by decide +kernel) (by decide +kernel)).1 ⟨40⟩⟩

end ObjectRuntime.Runtime
