import Mathlib.Logic.Relation
import ObjectRuntime.Proofs.Running

/-! What changes of modules. But for its constants, its singleton class and what it remembers, a
module changes by edits: it includes another module, its table gains or loses an entry, it takes
a name inside another module. A run is a chain of edits, of new cells and of collections, and
each move makes its own kind of edit only. -/

namespace ObjectRuntime

/-- A module but for its constants, its singleton class, its being final and its memory. -/
def Module.outline (m : Module) : Module :=
  { m with consts := {}, singleton := none, final := false, linear := none }

theorem Module.of_outline {α : Type} {m m' : Module} (same : m.outline = m'.outline)
    (f : Module → α) (outlined : ∀ m, f m.outline = f m := by intro; rfl) : f m = f m' := by
  rw [← outlined, same, outlined]

/-- A cell that is just made includes nothing, defines nothing and lies in no module. -/
def Cell.isBare : Cell → Bool
  | .module m => m.includes.isEmpty && m.methods.entries.isEmpty && m.lexicalParent.isNone
  | _ => true

theorem Cell.isBare_module (m : Module) : (Cell.module m).isBare = true ↔
    m.includes = [] ∧ m.methods.values = [] ∧ m.lexicalParent = none := by
  simp [isBare, Table.values, and_assoc]

def Cell.isNamed : Cell → Bool
  | .module m => m.name.isSome
  | _ => true

inductive Edit
  | addInclude (other : Ref)
  | enter (name : Sym) (x : Method)
  | remove (name : Sym)
  | enclose (outer : Ref) (name : String)

namespace Edit

def apply : Edit → Module → Module
  | addInclude other, m => { m with includes := other :: m.includes }
  | enter name x, m => { m with methods := m.methods.insert name x }
  | remove name, m => { m with methods := m.methods.erase name }
  | enclose outer name, m => { m with name := some name, lexicalParent := some outer }

end Edit

/-- The edits that a step makes, and in which runtimes. -/
inductive Action.Edits (rt : Runtime) : {α : Type} → Action α → Ref → Edit → Prop
  | includes {m other : Ref} {mod : Module} (found : rt.module? other = some mod)
      (plain : mod.isClass = false) : Edits rt (.includeOnce m other) m (.addInclude other)
  | defines (m : Ref) (name : Sym) (body : Body) (arity : Int) :
      Edits rt (.defineMethod m name body arity) m
        (.enter name { id := rt.nextMethod, name, owner := m, body, arity })
  | aliases (m : Ref) (newName oldName : Sym) (x : Method) :
      Edits rt (.aliasMethod m newName oldName) m (.enter newName x)
  | removes (m : Ref) (name : Sym) : Edits rt (.removeMethod m name) m (.remove name)
  | encloses {m bound : Ref} {name : Sym} {mod : Module} (found : rt.module? bound = some mod)
      (unnamed : mod.name = none) (qualified : String) :
      Edits rt (.setConst m name (.module bound)) bound (.enclose m qualified)

def Move.Edits (rt : Runtime) : Move → Ref → Edit → Prop
  | .act action => action.Edits rt
  | _ => fun _ _ => False

namespace Runtime

/-- The edits that are allowed of a module in a runtime. -/
abbrev Editing := Runtime → Ref → Edit → Prop

structure SameOutlines (rt rt' : Runtime) : Prop where
  heap : rt.heap.WellFormed → rt'.heap.WellFormed
  modules : ∀ r, (rt'.module? r).map Module.outline = (rt.module? r).map Module.outline

theorem SameOutlines.before {rt rt' : Runtime} (same : SameOutlines rt rt') {r : Ref} {m' : Module}
    (found : rt'.module? r = some m') : ∃ m, rt.module? r = some m ∧ m.outline = m'.outline := by
  have outlines := same.modules r
  rw [found, Option.map_some] at outlines
  exact Option.map_eq_some_iff.mp outlines.symm

theorem SameOutlines.later {rt rt' : Runtime} (same : SameOutlines rt rt') {r : Ref} {m : Module}
    (found : rt.module? r = some m) : ∃ m', rt'.module? r = some m' ∧ m'.outline = m.outline := by
  have outlines := same.modules r
  rw [found, Option.map_some] at outlines
  exact Option.map_eq_some_iff.mp outlines

inductive Change (allowed : Editing) : Runtime → Runtime → Prop
  | quiet {rt rt' : Runtime} (same : SameOutlines rt rt') : Change allowed rt rt'
  | collect (rt : Runtime) : Change allowed rt rt.collect
  | place (rt : Runtime) (c : Cell) (bare : c.isBare = true) : Change allowed rt (rt.place c).2
  | edit (rt : Runtime) (m : Ref) (e : Edit) (may : allowed rt m e) :
      Change allowed rt (rt.modifyModule m e.apply)

abbrev Changes (allowed : Editing) : Runtime → Runtime → Prop :=
  Relation.ReflTransGen (Change allowed)

variable {allowed allowed' : Editing} {rt rt' rt'' : Runtime}

theorem Change.wellFormed (change : Change allowed rt rt') (wf : rt.heap.WellFormed) :
    rt'.heap.WellFormed := by
  cases change with
  | quiet same => exact same.heap wf
  | collect => exact Heap.wellFormed_collect wf rt.frames rt.rootValues
  | place c => exact Heap.wellFormed_alloc wf c false
  | edit m e => exact Heap.wellFormed_modify wf m _

theorem Changes.mono (changes : Changes allowed rt rt')
    (more : ∀ rt m e, allowed rt m e → allowed' rt m e) : Changes allowed' rt rt' := by
  refine Relation.ReflTransGen.mono (fun rt rt' change => ?_) _ _ changes
  cases change with
  | quiet same => exact .quiet same
  | collect => exact .collect rt
  | place c bare => exact .place rt c bare
  | edit m e may => exact .edit rt m e (more rt m e may)

/-- What every change keeps is kept. -/
theorem Changes.keep {P : Runtime → Prop} (changes : Changes allowed rt rt')
    (step : ∀ {rt rt'}, rt.heap.WellFormed → P rt → Change allowed rt rt' → P rt')
    (wf : rt.heap.WellFormed) (holds : P rt) : P rt' := by
  have both : rt'.heap.WellFormed ∧ P rt' := by
    induction changes with
    | refl => exact ⟨wf, holds⟩
    | tail _ change ih => exact ⟨change.wellFormed ih.1, step ih.1 ih.2 change⟩
  exact both.2

/-- What holds of a bare module, and of an edited one when it did before, holds of each. -/
theorem Changes.each {Q : Ref → Module → Prop} (changes : Changes allowed rt rt')
    (outlined : ∀ {r m m'}, Module.outline m' = Module.outline m → Q r m → Q r m')
    (bare : ∀ {r m}, (Cell.module m).isBare = true → Q r m)
    (edited : ∀ {rt r m e}, allowed rt r e → rt.module? r = some m → Q r m → Q r (e.apply m))
    (wf : rt.heap.WellFormed) (holds : ∀ r m, rt.module? r = some m → Q r m) (r : Ref) (m : Module)
    (found : rt'.module? r = some m) : Q r m := by
  refine changes.keep (P := fun rt => ∀ r m, rt.module? r = some m → Q r m) ?_ wf holds r m found
  intro rt rt' wf holds change r m found
  cases change with
  | quiet same =>
    obtain ⟨m', found', outline⟩ := same.before found
    exact outlined outline.symm (holds r m' found')
  | collect =>
    rw [module?_eq_some] at found
    exact holds r m ((module?_eq_some ..).mpr ((Heap.cell?_collect ..).mp found).1)
  | place c isBare =>
    rw [module?_eq_some, cell?_place wf] at found
    split at found
    next =>
      cases found
      exact bare isBare
    next => exact holds r m ((module?_eq_some ..).mpr found)
  | edit m' e may =>
    rw [module?_modifyModule] at found
    split at found
    next same =>
      subst same
      obtain ⟨m'', found', rfl⟩ := Option.map_eq_some_iff.mp found
      exact edited may found' (holds r m'' found')
    next => exact holds r m found

/-! ## Steps that leave the outlines alone -/

namespace SameOutlines

theorem of_cells (same : SameCells rt rt') : SameOutlines rt rt' :=
  ⟨same.wellFormed, fun r => by rw [module?, module?, same.cell?]⟩

theorem of_forget (same : rt'.forget = rt.forget) : SameOutlines rt rt' where
  heap := (Extends.of_forget same).heap
  modules r := by
    have forgotten := congrArg (fun rt => (rt.module? r).map Module.outline) same
    simp only [module?_forget, Option.map_map] at forgotten
    exact forgotten

theorem modifyModule (rt : Runtime) (r : Ref) {f : Module → Module}
    (outline : ∀ m, (f m).outline = m.outline) : SameOutlines rt (rt.modifyModule r f) where
  heap wf := Heap.wellFormed_modify wf r _
  modules r' := by
    rw [module?_modifyModule]
    split
    next same =>
      rw [Option.map_map, same]
      exact Option.map_congr fun m _ => outline m
    next => rfl

/-- Writing a cell that is no module. -/
theorem modifyData (rt : Runtime) (r : Ref) {f : Cell → Cell} (kind : ∀ c, (f c).kind = c.kind)
    (modules : ∀ m, f (.module m) = .module m) : SameOutlines rt (rt.modifyCell r f) where
  heap wf := Heap.wellFormed_modify wf r f
  modules r' := by
    have written (c : Cell) (m : Module) : f c = .module m ↔ c = .module m := by
      constructor
      · intro same
        have still := kind c
        rw [same] at still
        cases c with
        | module m' => rw [← same, modules]
        | _ => cases still
      · rintro rfl
        exact modules m
    have same : (rt.modifyCell r f).module? r' = rt.module? r' := by
      ext m
      rw [module?_eq_some, module?_eq_some]
      simp only [modifyCell, Heap.cell?_modify]
      split
      next here => simp [here, written]
      next => rfl
    rw [same]

end SameOutlines

/-! ## Chains of changes -/

namespace Changes

theorem quiet (same : SameOutlines rt rt') : Changes allowed rt rt' := .single (.quiet same)

theorem alloc (rt : Runtime) {c : Cell} (bare : c.isBare = true) :
    Changes allowed rt (rt.alloc c).2 := by
  rw [alloc_eq]
  refine .tail ?_ (.place rt.room c bare)
  unfold room
  split
  · exact .single (.collect rt)
  · exact .refl

theorem ancestry (rt : Runtime) (m : Ref) : Changes allowed rt (rt.ancestry m).2 :=
  quiet (.of_forget (ancestry_forget rt m))

theorem findMethod (rt : Runtime) (cls : Ref) (name : Sym) (after exclude : Option Method) :
    Changes allowed rt (rt.findMethod cls name after exclude).2 :=
  quiet (.of_forget (findMethod_forget rt cls name after exclude))

theorem findConst (rt : Runtime) (m : Ref) (name : Sym) :
    Changes allowed rt (rt.findConst m name).2 :=
  quiet (.of_forget (findConst_forget rt m name))

theorem failureIsA (rt : Runtime) (e : Failure) (m : Ref) :
    Changes allowed rt (rt.failureIsA e m).2 := by
  have named : Changes allowed rt (rt.failureClass e).2 := quiet (.of_cells ⟨rfl, rfl, rfl⟩)
  exact named.trans (quiet (.of_forget (failureIsA_forget rt e m)))

theorem subclass (rt : Runtime) (sup : Ref) (name : Option String) (tag : Option Tag) :
    Changes allowed rt (rt.subclass sup name tag).2 := by
  rcases subclass_cases rt sup name tag with ⟨e, same⟩ | ⟨_, made, rfl, same⟩
  · rw [same]
  · rw [same]
    exact alloc rt rfl

theorem newSingleton (rt : Runtime) (v : Val) (superclass : Ref) :
    Changes allowed rt (rt.newSingleton v superclass).2 :=
  alloc rt rfl

theorem singletonClass (rt : Runtime) (v : Val) : Changes allowed rt (rt.singletonClass v).2 :=
  singletonClass_induct .refl
    (fun _ _ => (newSingleton ..).trans
      (quiet (.modifyData _ _ (fun c => by cases c <;> rfl) fun _ => rfl)))
    (fun _ _ _ _ before =>
      before.trans ((newSingleton ..).trans (quiet (.modifyModule _ _ fun _ => rfl)))) v

/-- An edit that also counts, clears or numbers something. -/
theorem edit (m : Ref) (e : Edit) (may : allowed rt m e)
    (rest : SameCells (rt.modifyModule m e.apply) rt') : Changes allowed rt rt' :=
  .tail (.single (.edit rt m e may)) (.quiet (.of_cells rest))

theorem includeOnce (rt : Runtime) (m : Ref) {other : Ref}
    (live : rt.heap.Holds (.module other))
    (may : ∀ rt mod, rt.module? other = some mod → mod.isClass = false →
      allowed rt m (.addInclude other)) : Changes allowed rt (rt.includeOnce m other).2 := by
  rcases includeOnce_writes rt m other with same | ⟨rt', same, plain, writes⟩
  · exact quiet (.of_forget same)
  · obtain ⟨mod, found⟩ := module_of_holds live
    simp only [found, Option.map_some, Option.getD_some, Bool.not_eq_true] at plain
    -- walking the ancestries leaves the other module as plain as it was
    have walked := congrArg (fun rt => rt.module? other) same
    simp only [module?_forget, found, Option.map_some] at walked
    obtain ⟨mod', found', kept⟩ := Option.map_eq_some_iff.mp walked
    have plain' : mod'.isClass = false := by
      have same : mod'.forget.isClass = mod.forget.isClass := congrArg Module.isClass kept
      exact same.trans plain
    rw [writes]
    exact .trans (quiet (.of_forget same)) (edit m _ (may rt' mod' found' plain') ⟨rfl, rfl, rfl⟩)

theorem setConst (rt : Runtime) (m : Ref) (name : Sym) (v : Val)
    (may : ∀ bound mod, v = .module bound → rt.module? bound = some mod → mod.name = none →
      allowed rt bound (.enclose m (rt.constName m name))) :
    Changes allowed rt (rt.setConst m name v) := by
  obtain ⟨rt', named, writes⟩ := setConst_writes rt m name v
  rw [writes]
  refine .tail ?_ (.quiet (.modifyModule rt' m fun _ => rfl))
  rcases named with rfl | ⟨bound, mod, same, found, unnamed, rfl⟩
  · exact .refl
  · exact edit bound _ (may bound mod same found unnamed) ⟨rfl, rfl, rfl⟩

theorem aliasMethod (rt : Runtime) (m : Ref) (newName oldName : Sym)
    (may : ∀ rt x, allowed rt m (.enter newName x)) :
    Changes allowed rt (rt.aliasMethod m newName oldName).2 := by
  rcases aliasMethod_writes rt m newName oldName with same | ⟨rt', x, same, writes⟩
  · exact quiet (.of_forget same)
  · rw [writes]
    exact .trans (quiet (.of_forget same)) (edit m _ (may rt' x) ⟨rfl, rfl, rfl⟩)

/-- Every step changes modules by its own edits. -/
theorem act {α : Type} {action : Action α} (live : ∀ v ∈ action.given, rt.heap.Holds v) :
    Changes (fun rt => action.Edits rt) rt (action.run rt).2 := by
  have aside {rt' : Runtime} (same : SameCells rt rt') :
      Changes (fun rt => action.Edits rt) rt rt' := quiet (.of_cells same)
  have data (r : Ref) {f : Cell → Cell} (kind : ∀ c, (f c).kind = c.kind)
      (modules : ∀ m, f (.module m) = .module m) :
      Changes (fun rt => action.Edits rt) rt (rt.modifyCell r f) :=
    quiet (.modifyData rt r kind modules)
  cases action with
  | intern name => exact aside ⟨rfl, rfl, rfl⟩
  | report text => exact aside ⟨rfl, rfl, rfl⟩
  | newArray cls elements => exact alloc rt rfl
  | newTable cls => exact alloc rt rfl
  | newString cls text => exact alloc rt rfl
  | newFloat x => exact alloc rt rfl
  | newObject cls => exact alloc rt rfl
  | newProc proc => exact alloc rt rfl
  | newBound receiver method => exact alloc rt rfl
  | newModule => exact alloc rt rfl
  | collect => exact .single (.collect rt)
  | root v => exact aside ⟨rfl, rfl, rfl⟩
  | unroot entry => exact aside ⟨rfl, rfl, rfl⟩
  | hold v =>
    simp only [Action.run, Runtime.hold]
    split <;> exact aside ⟨rfl, rfl, rfl⟩
  | releaseTopLevel =>
    simp only [Action.run, Runtime.releaseTopLevel]
    split <;> exact aside ⟨rfl, rfl, rfl⟩
  | setRatio ratio => exact aside ⟨rfl, rfl, rfl⟩
  | push array v => exact data array (fun c => by cases c <;> rfl) fun _ => rfl
  | put array index v => exact data array (fun c => by cases c <;> rfl) fun _ => rfl
  | insert table key v => exact data table (fun c => by cases c <;> rfl) fun _ => rfl
  | erase table key => exact data table (fun c => by cases c <;> rfl) fun _ => rfl
  | append string text => exact data string (fun c => by cases c <;> rfl) fun _ => rfl
  | setIvar object name v => exact data object (fun c => by cases c <;> rfl) fun _ => rfl
  | setGlobal name v => exact aside ⟨rfl, rfl, rfl⟩
  | eraseGlobal name => exact aside ⟨rfl, rfl, rfl⟩
  | setLocal frame depth index v => exact aside ⟨rfl, rfl, rfl⟩
  | subclass sup name tag => exact subclass rt sup name tag
  | setFinal m final => exact quiet (.modifyModule rt m fun _ => rfl)
  | setConst m name v =>
    exact setConst rt m name v fun bound mod same found unnamed =>
      same ▸ .encloses found unnamed _
  | findConst m name => exact findConst rt m name
  | includeOnce m other =>
    exact includeOnce rt m (live _ (by simp [Action.given])) fun _ _ => .includes
  | ancestry m => exact ancestry rt m
  | singletonClass v => exact singletonClass rt v
  | isA v m => exact ancestry rt (rt.classOf v)
  | failureClass e => exact aside ⟨rfl, rfl, rfl⟩
  | failureIsA e m => exact failureIsA rt e m
  | defineMethod m name body arity => exact edit m _ (.defines m name body arity) ⟨rfl, rfl, rfl⟩
  | aliasMethod m newName oldName =>
    exact aliasMethod rt m newName oldName fun _ => .aliases m newName oldName
  | removeMethod m name =>
    simp only [Action.run, Runtime.removeMethod]
    split
    · exact edit m _ (.removes m name) ⟨rfl, rfl, rfl⟩
    · exact .refl
  | findMethod cls name after exclude => exact findMethod rt cls name after exclude

theorem move {move : Move} (intact : rt.Intact) (permitted : rt.PermitsMove move) :
    Changes (fun rt => move.Edits rt) rt (move.run rt).2 := by
  have still (same : (move.run rt).2.heap = rt.heap) :
      Changes (fun rt => move.Edits rt) rt (move.run rt).2 :=
    quiet (.of_cells ⟨congrArg Heap.slots same, congrArg Heap.free same, congrArg Heap.live same⟩)
  cases move with
  | act action => exact act fun v member => intact.holds (permitted.given v member)
  | _ => exact still (heap_move rfl)

/-- A run changes modules by the edits of its moves. -/
theorem after {moves : List Move} (intact : rt.Intact) (permitted : rt.PermitsRun moves) :
    Changes (fun rt m e => ∃ move ∈ moves, move.Edits rt m e) rt (rt.after moves) := by
  induction moves generalizing rt with
  | nil => exact .refl
  | cons first rest ih =>
    have begun := move intact permitted.1
    have later := ih (intact.move permitted.1) permitted.2
    refine .trans (begun.mono fun _ _ _ edits => ⟨first, by simp, edits⟩) (later.mono ?_)
    rintro _ _ _ ⟨move, member, edits⟩
    exact ⟨move, List.mem_cons_of_mem _ member, edits⟩

/-! ## Booting -/

/-- Booting includes plain modules, and enters methods in the tables of their owners. -/
inductive Starting : Editing
  | includes {rt : Runtime} {m other : Ref} {mod : Module} (found : rt.module? other = some mod)
      (plain : mod.isClass = false) : Starting rt m (.addInclude other)
  | defines {rt : Runtime} (name : Sym) (x : Method) : Starting rt x.owner (.enter name x)

end Changes

/-- A first cell is bare, and a module among the first has a name. -/
theorem bare_first : ∀ e ∈ (firstHeap {}).slots.toList.zipIdx, ∀ c ∈ e.1.cell,
    c.isBare = true ∧ c.isNamed = true := by
  decide +kernel

attribute [local irreducible] firstHeap

theorem bare_module {config : Config} {r : Ref} {m : Module}
    (found : (bare config).module? r = some m) :
    (Cell.module m).isBare = true ∧ m.name ≠ none := by
  obtain ⟨s, slot, occupied⟩ := slot_first ((module?_eq_some ..).mp found)
  obtain ⟨isBare, isNamed⟩ := bare_first (s, r.index) slot _ occupied
  exact ⟨isBare, Option.isSome_iff_ne_none.mp isNamed⟩

/-- Binding a constant changes no outline, unless it is a module that has no name. -/
theorem SameOutlines.setConst (m : Ref) (name : Sym) {v : Val}
    (named : ∀ bound mod, v = .module bound → rt.module? bound = some mod → mod.name ≠ none) :
    SameOutlines rt (rt.setConst m name v) := by
  have bind : SameOutlines rt
      (rt.modifyModule m fun mod => { mod with consts := mod.consts.insert name v }) :=
    .modifyModule rt m fun _ => rfl
  unfold Runtime.setConst
  split
  next bound =>
    split
    next found => exact absurd rfl (named bound _ rfl found)
    next => exact bind
  next => exact bind

theorem SameOutlines.named (same : SameOutlines rt rt')
    (named : ∀ r m, rt.module? r = some m → m.name ≠ none) (r : Ref) (m : Module)
    (found : rt'.module? r = some m) : m.name ≠ none := by
  obtain ⟨m', found', outline⟩ := same.before found
  rw [← Module.of_outline outline (·.name)]
  exact named r m' found'

namespace Changes

/-- The core classes have names of their own before they are bound. -/
theorem constants (config : Config) : Changes allowed (bare config) (CoreClass.all.foldl (fun rt c =>
    rt.setConst CoreClass.object.ref c.sym (.module c.ref)) (bare config)) := by
  refine (List.foldlRecOn (motive := fun rt => Changes allowed (bare config) rt ∧
    ∀ r m, rt.module? r = some m → m.name ≠ none) _ _
    ⟨.refl, fun _ _ found => (bare_module found).2⟩ fun rt before c _ => ?_).1
  have same : SameOutlines rt (rt.setConst CoreClass.object.ref c.sym (.module c.ref)) :=
    .setConst _ _ fun r m _ => before.2 r m
  exact ⟨before.1.tail (.quiet same), same.named before.2⟩

/-- A new runtime has only started: nothing was aliased or removed, or took a name in another
module. -/
theorem boot (config : Config) : Changes Starting (bare config) (boot config) := by
  refine boot_induct (constants config) fun {rt rt'} booted boots before => before.trans ?_
  cases boots with
  | includes m other => exact includeOnce rt m.ref (booted.holds_core other) fun _ _ => .includes
  | singleton => exact singletonClass ..
  | handlers => exact (alloc rt rfl).trans (quiet (.of_cells ⟨rfl, rfl, rfl⟩))
  | method live name b arity =>
    exact edit _ _ (.defines name
      { id := rt.nextMethod, name, owner := _, body := .native (.builtin b), arity }) ⟨rfl, rfl, rfl⟩
  | release => exact quiet (.of_cells ⟨rfl, rfl, rfl⟩)

/-- Every edit of a run from the start on is one of booting or one of its moves. -/
theorem from_start (config : Config) {moves : List Move}
    (permitted : (Runtime.boot config).PermitsRun moves) :
    Changes (fun rt m e => Starting rt m e ∨ ∃ move ∈ moves, move.Edits rt m e) (bare config)
      ((Runtime.boot config).after moves) := by
  have booting : Changes (fun rt m e => Starting rt m e ∨ ∃ move ∈ moves, move.Edits rt m e)
      (bare config) (Runtime.boot config) := (boot config).mono fun _ _ _ => .inl
  exact booting.trans ((after (intact_boot config) permitted).mono fun _ _ _ => .inr)

end Changes

end Runtime
end ObjectRuntime
