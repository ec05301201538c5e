import ObjectRuntime.Proofs.Births

/-! Growth. A move either leaves all classes and singleton classes what they are, or it is a chain
of collections, births and new cells of a plain kind, which keeps what is reached. -/

namespace ObjectRuntime

def Object.kin (o : Object) : Object := { cls := o.cls, singleton := o.singleton }

def Module.kin (m : Module) : Module :=
  { kind := m.kind, superclass := m.superclass, singleton := m.singleton, attached := m.attached }

/-- What a cell says of classes and singleton classes: nothing, unless it is an object or a
module. -/
def Cell.kin : Cell → Option Cell
  | .object o => some (.object o.kin)
  | .module m => some (.module m.kin)
  | _ => none

/-- The class that a step makes an object of. -/
def Action.instantiates {α : Type} : Action α → Option Ref
  | newObject cls => some cls
  | _ => none

def Move.instantiates : Move → Option Ref
  | .act action => action.instantiates
  | _ => none

namespace Runtime

/-- A cell that a step other than a birth makes: data, an object of a class that it may be made
of, a plain module, or a class below a class. -/
inductive Born (may : Runtime → Ref → Prop) (rt : Runtime) : Cell → Prop
  | data {c : Cell} (plain : c.kin = none) : Born may rt c
  | object {cls : Ref} (allowed : may rt cls) : Born may rt (.object { cls })
  | module : Born may rt (.module { kind := .module })
  | subclass {sup : Ref} {m : Module} (found : rt.module? sup = some m) (cls : m.isClass = true)
      (name : Option String) (tag : Tag) :
      Born may rt (.module { kind := .cls, name, superclass := some sup, tag })

inductive Growth (may : Runtime → Ref → Prop) : Runtime → Runtime → Prop
  | birth {rt rt' : Runtime} (birth : Birth rt rt') : Growth may rt rt'
  | place {rt : Runtime} {c : Cell} (born : Born may rt c) : Growth may rt (rt.place c).2

abbrev Growths (may : Runtime → Ref → Prop) : Runtime → Runtime → Prop :=
  Relation.ReflTransGen (Growth may)

structure SameKin (rt rt' : Runtime) : Prop where
  heap : rt.heap.WellFormed → rt'.heap.WellFormed
  cells : ∀ r, (rt'.heap.cell? r).bind Cell.kin = (rt.heap.cell? r).bind Cell.kin

variable {may : Runtime → Ref → Prop} {rt rt' rt'' : Runtime} {v : Val} {r s sup : Ref}

/-! ## Steps that leave the classes alone -/

namespace SameKin

theorem refl (rt : Runtime) : SameKin rt rt := ⟨id, fun _ => rfl⟩

theorem trans (first : SameKin rt rt') (second : SameKin rt' rt'') : SameKin rt rt'' :=
  ⟨fun wf => second.heap (first.heap wf), fun r => (second.cells r).trans (first.cells r)⟩

theorem of_cells (same : SameCells rt rt') : SameKin rt rt' :=
  ⟨same.wellFormed, fun r => by rw [same.cell?]⟩

theorem of_forget (same : rt'.forget = rt.forget) : SameKin rt rt' where
  heap := (Extends.of_forget same).heap
  cells r := by
    have forgotten (rt : Runtime) :
        (rt.forget.heap.cell? r).bind Cell.kin = (rt.heap.cell? r).bind Cell.kin := by
      rw [forget, Heap.cell?_forget]
      cases rt.heap.cell? r with
      | none => rfl
      | some c => cases c <;> rfl
    rw [← forgotten rt', same, forgotten]

theorem modifyCell (rt : Runtime) (r : Ref) {f : Cell → Cell} (kin : ∀ c, (f c).kin = c.kin) :
    SameKin rt (rt.modifyCell r f) where
  heap wf := Heap.wellFormed_modify wf r f
  cells a := by
    simp only [Runtime.modifyCell, Heap.cell?_modify]
    split
    next same =>
      rw [same]
      cases rt.heap.cell? r with
      | none => rfl
      | some c => exact kin c
    next => rfl

theorem modifyModule (rt : Runtime) (r : Ref) {f : Module → Module}
    (kin : ∀ m, (Cell.module (f m)).kin = (Cell.module m).kin) :
    SameKin rt (rt.modifyModule r f) :=
  modifyCell rt r fun c => by
    cases c with
    | module m => exact kin m
    | _ => rfl

theorem ancestry (rt : Runtime) (m : Ref) : SameKin rt (rt.ancestry m).2 :=
  of_forget (ancestry_forget rt m)

theorem failureIsA (rt : Runtime) (e : Failure) (m : Ref) : SameKin rt (rt.failureIsA e m).2 := by
  have named : SameKin rt (rt.failureClass e).2 := of_cells ⟨rfl, rfl, rfl⟩
  exact named.trans (of_forget (failureIsA_forget rt e m))

theorem includeOnce (rt : Runtime) (m other : Ref) : SameKin rt (rt.includeOnce m other).2 := by
  rcases includeOnce_writes rt m other with same | ⟨rt', same, -, writes⟩
  · exact of_forget same
  · rw [writes]
    exact (of_forget same).trans ((modifyModule rt' m (f := fun mod =>
      { mod with includes := other :: mod.includes }) fun _ => rfl).trans (of_cells ⟨rfl, rfl, rfl⟩))

theorem setConst (rt : Runtime) (m : Ref) (name : Sym) (v : Val) :
    SameKin rt (rt.setConst m name v) := by
  obtain ⟨rt', named, writes⟩ := setConst_writes rt m name v
  rw [writes]
  refine trans ?_ (modifyModule rt' m fun _ => rfl)
  rcases named with rfl | ⟨bound, _, -, -, -, rfl⟩
  · exact refl rt'
  · exact modifyModule rt bound fun _ => rfl

theorem writeTable (rt : Runtime) (m : Ref) (f : Table Sym Method → Table Sym Method)
    (same : SameCells (rt.modifyModule m fun mod => { mod with methods := f mod.methods }) rt') :
    SameKin rt rt' :=
  (modifyModule rt m (f := fun mod => { mod with methods := f mod.methods })
    fun _ => rfl).trans (of_cells same)

theorem aliasMethod (rt : Runtime) (m : Ref) (newName oldName : Sym) :
    SameKin rt (rt.aliasMethod m newName oldName).2 := by
  rcases aliasMethod_writes rt m newName oldName with same | ⟨rt', x, same, writes⟩
  · exact of_forget same
  · rw [writes]
    exact (of_forget same).trans (writeTable rt' m (·.insert newName x) ⟨rfl, rfl, rfl⟩)

theorem removeMethod (rt : Runtime) (m : Ref) (name : Sym) :
    SameKin rt (rt.removeMethod m name).2 := by
  rcases removeMethod_writes rt m name with same | writes
  · rw [same]
    exact refl rt
  · rw [writes]
    exact writeTable rt m (·.erase name) ⟨rfl, rfl, rfl⟩

end SameKin

/-! ## Steps that make cells -/

theorem Births.growths (births : Births rt rt') : Growths may rt rt' :=
  Relation.ReflTransGen.mono (fun _ _ => .birth) _ _ births

theorem growths_room (rt : Runtime) : Growths may rt rt.room := (births_room rt).growths

theorem growths_alloc {c : Cell} (born : Born may rt.room c) : Growths may rt (rt.alloc c).2 := by
  rw [alloc_eq]
  exact (growths_room rt).tail (.place born)

theorem growths_subclass (reached : rt.Reaches (.module sup)) (name : Option String)
    (tag : Option Tag) : Growths may rt (rt.subclass sup name tag).2 := by
  unfold Runtime.subclass
  split
  next => exact .refl
  next m found =>
    split
    next => exact .refl
    next cls =>
      have there := (module?_room reached).trans found
      repeat' split
      · exact .refl
      · exact .refl
      · exact growths_alloc (.subclass there (by simpa using cls) name _)

/-- A step that makes objects of classes only that it may leaves classes and singleton classes what
they are, or grows the heap. -/
theorem growths_act (intact : rt.Intact) {α : Type} {action : Action α}
    (permitted : rt.Permits action)
    (instances : ∀ cls, action.instantiates = some cls → may rt.room cls) :
    SameKin rt (action.run rt).2 ∨ Growths may rt (action.run rt).2 := by
  have given := permitted.given
  have data {c : Cell} (plain : c.kin = none) : Growths may rt (rt.alloc c).2 :=
    growths_alloc (.data plain)
  cases action with
  | newArray cls elements => exact .inr (data rfl)
  | newTable cls => exact .inr (data rfl)
  | newString cls text => exact .inr (data rfl)
  | newFloat x => exact .inr (data rfl)
  | newObject cls => exact .inr (growths_alloc (.object (instances cls rfl)))
  | newProc proc => exact .inr (data rfl)
  | newBound receiver method => exact .inr (data rfl)
  | newModule => exact .inr (growths_alloc .module)
  | collect => exact .inr (.single (.birth (.collect rt)))
  | subclass sup name tag =>
    exact .inr (growths_subclass (given _ (by simp [Action.given])).reaches name tag)
  | singletonClass v =>
    exact .inr (births_singletonClass intact (given v (by simp [Action.given]))).1.growths
  | hold v =>
    simp only [Action.run, Runtime.hold]
    split <;> exact .inl (.of_cells ⟨rfl, rfl, rfl⟩)
  | releaseTopLevel =>
    simp only [Action.run, Runtime.releaseTopLevel]
    split <;> exact .inl (.of_cells ⟨rfl, rfl, rfl⟩)
  | push array v => exact .inl (.modifyCell rt array fun c => by cases c <;> rfl)
  | put array index v => exact .inl (.modifyCell rt array fun c => by cases c <;> rfl)
  | insert table key v => exact .inl (.modifyCell rt table fun c => by cases c <;> rfl)
  | erase table key => exact .inl (.modifyCell rt table fun c => by cases c <;> rfl)
  | append string text => exact .inl (.modifyCell rt string fun c => by cases c <;> rfl)
  | setIvar object name v => exact .inl (.modifyCell rt object fun c => by cases c <;> rfl)
  | setFinal m final => exact .inl (.modifyModule rt m fun _ => rfl)
  | setConst m name v => exact .inl (.setConst rt m name v)
  | findConst m name => exact .inl (.of_forget (findConst_forget rt m name))
  | includeOnce m other => exact .inl (.includeOnce rt m other)
  | ancestry m => exact .inl (.ancestry rt m)
  | isA v m => exact .inl (.ancestry rt (rt.classOf v))
  | failureIsA e m => exact .inl (.failureIsA rt e m)
  | defineMethod m name body arity =>
    exact .inl (.writeTable rt m
      (·.insert name { id := rt.nextMethod, name, owner := m, body, arity }) ⟨rfl, rfl, rfl⟩)
  | aliasMethod m newName oldName => exact .inl (.aliasMethod rt m newName oldName)
  | removeMethod m name => exact .inl (.removeMethod rt m name)
  | findMethod cls name after exclude =>
    exact .inl (.of_forget (findMethod_forget rt cls name after exclude))
  | _ => exact .inl (.of_cells ⟨rfl, rfl, rfl⟩)

theorem growths_move (intact : rt.Intact) {move : Move} (permitted : rt.PermitsMove move)
    (instances : ∀ cls, move.instantiates = some cls → may rt.room cls) :
    SameKin rt (move.run rt).2 ∨ Growths may rt (move.run rt).2 := by
  have still (same : (move.run rt).2.heap = rt.heap) : SameKin rt (move.run rt).2 :=
    .of_cells ⟨congrArg Heap.slots same, congrArg Heap.free same, congrArg Heap.live same⟩
  cases move with
  | act action => exact growths_act intact permitted instances
  | _ => exact .inl (still (heap_move rfl))

/-! ## Runs -/

/-- One step of a run: it leaves classes and singleton classes what they are, or it is a growth. -/
def Turn (may : Runtime → Ref → Prop) (rt rt' : Runtime) : Prop :=
  SameKin rt rt' ∨ Growth may rt rt'

abbrev Turns (may : Runtime → Ref → Prop) : Runtime → Runtime → Prop :=
  Relation.ReflTransGen (Turn may)

/-- Every object that a run makes is of a class that it may be made of. -/
def Instances (may : Runtime → Ref → Prop) : Runtime → List Move → Prop
  | _, [] => True
  | rt, move :: rest =>
    (∀ cls, move.instantiates = some cls → may rt cls) ∧ Instances may (move.run rt).2 rest

theorem Growth.wellFormed (growth : Growth may rt rt') (wf : rt.heap.WellFormed) :
    rt'.heap.WellFormed := by
  cases growth with
  | birth birth => exact birth.wellFormed wf
  | place born => exact Heap.wellFormed_alloc wf _ false

theorem Growth.reaches (growth : Growth may rt rt') (wf : rt.heap.WellFormed)
    (reached : rt.Reaches v) : rt'.Reaches v := by
  cases growth with
  | birth birth => exact birth.reaches wf reached
  | place born => exact reached.place wf _

namespace Turns

theorem kin (same : SameKin rt rt') : Turns may rt rt' := .single (.inl same)

theorem growths (grown : Growths may rt rt') : Turns may rt rt' :=
  Relation.ReflTransGen.mono (fun _ _ => .inr) _ _ grown

/-- What every step keeps is kept. -/
theorem keep {P : Runtime → Prop} (turns : Turns may rt rt')
    (kin : ∀ {rt rt'}, SameKin rt rt' → P rt → P rt')
    (growth : ∀ {rt rt'}, rt.heap.WellFormed → Growth may rt rt' → P rt → P rt')
    (wf : rt.heap.WellFormed) (holds : P rt) : P rt' := by
  have both : rt'.heap.WellFormed ∧ P rt' := by
    induction turns with
    | refl => exact ⟨wf, holds⟩
    | tail _ turn ih =>
      rcases turn with same | grown
      · exact ⟨same.heap ih.1, kin same ih.2⟩
      · exact ⟨grown.wellFormed ih.1, growth ih.1 grown ih.2⟩
  exact both.2

theorem move (intact : rt.Intact) {move : Move} (permitted : rt.PermitsMove move)
    (instances : ∀ cls, move.instantiates = some cls → may rt.room cls) :
    Turns may rt (move.run rt).2 := by
  rcases growths_move intact permitted instances with same | grown
  · exact kin same
  · exact growths grown

theorem after (roomy : ∀ {rt cls}, rt.Reaches (.module cls) → may rt cls → may rt.room cls)
    {moves : List Move} (intact : rt.Intact) (permitted : rt.PermitsRun moves)
    (instances : Instances may rt moves) : Turns may rt (rt.after moves) := by
  induction moves generalizing rt with
  | nil => exact .refl
  | cons first rest ih =>
    refine (move intact permitted.1 fun cls made => ?_).trans
      (ih (intact.move permitted.1) permitted.2 instances.2)
    refine roomy ?_ (instances.1 cls made)
    cases first with
    | act action =>
      cases action with
      | newObject cls' =>
        cases made
        exact (permitted.1.given _ (List.mem_singleton_self _)).reaches
      | _ => cases made
    | _ => cases made

/-! ## Booting -/

/-- Booting makes no object besides those that are there at first. -/
theorem boot (config : Config) : Turns may (bare config) (boot config) := by
  refine boot_relates (fun _ => .refl) .trans (fun _ _ => kin (.setConst ..))
    fun {rt _} booted boots => ?_
  cases boots with
  | includes m other => exact kin (.includeOnce ..)
  | singleton reached =>
    exact growths (births_singletonClass booted.intact reached.available).1.growths
  | handlers => exact (growths (growths_alloc (.data rfl))).trans (kin (.of_cells ⟨rfl, rfl, rfl⟩))
  | method live name b arity =>
    exact kin (.writeTable rt _ (·.insert name
      { id := rt.nextMethod, name, owner := _, body := .native (.builtin b), arity }) ⟨rfl, rfl, rfl⟩)
  | release => exact kin (.of_cells ⟨rfl, rfl, rfl⟩)

end Turns

end Runtime
end ObjectRuntime
