import ObjectRuntime.Proofs.Moves

/-! Steps that see nothing of what is remembered. Such a step answers the same when all
linearizations and cached answers are forgotten first, and forgetting them afterwards leaves
the same runtime. -/

namespace ObjectRuntime

def Action.consults {α : Type} : Action α → Bool
  | findConst _ _ | includeOnce _ _ | ancestry _ | isA _ _ | failureIsA _ _ | aliasMethod _ _ _
  | findMethod _ _ _ _ => true
  | _ => false

namespace Runtime

/-- A step that neither sees nor makes what is remembered. -/
def Oblivious {α : Type} (op : Runtime → α × Runtime) : Prop :=
  ∀ rt, op rt.forget = ((op rt).1, (op rt).2.forget)

section
variable (rt : Runtime)

/-! ## Reads -/

theorem symName_forget (s : Sym) : rt.forget.symName s = rt.symName s := rfl

theorem object?_forget (r : Ref) : rt.forget.object? r = rt.object? r := by
  simp only [object?, forget, Heap.cell?_forget]
  cases rt.heap.cell? r with
  | none => rfl
  | some c => cases c <;> rfl

theorem entries?_forget (r : Ref) : rt.forget.entries? r = rt.entries? r := by
  simp only [entries?, forget, Heap.cell?_forget]
  cases rt.heap.cell? r with
  | none => rfl
  | some c => cases c <;> rfl

theorem proc?_forget (r : Ref) : rt.forget.proc? r = rt.proc? r := by
  simp only [proc?, forget, Heap.cell?_forget]
  cases rt.heap.cell? r with
  | none => rfl
  | some c => cases c <;> rfl

theorem moduleName_forget (r : Ref) : rt.forget.moduleName r = rt.moduleName r := by
  simp only [moduleName, module?_forget]
  cases rt.module? r with
  | none => rfl
  | some m =>
    obtain ⟨kind, name, _⟩ := m
    cases name <;> rfl

theorem const?_forget (m : Ref) (name : Sym) : rt.forget.const? m name = rt.const? m name := by
  simp only [const?, module?_forget]
  cases rt.module? m <;> rfl

theorem constName_forget (m : Ref) (name : Sym) :
    rt.forget.constName m name = rt.constName m name := by
  simp only [constName, moduleName_forget, symName_forget]

theorem inspectWithin_forget (fuel : Nat) :
    rt.forget.inspectWithin fuel = rt.inspectWithin fuel := by
  have cell (r : Ref) : rt.forget.heap.cell? r = (rt.heap.cell? r).map Cell.forget :=
    Heap.cell?_forget rt.heap r
  induction fuel with
  | zero =>
    funext seen v
    cases v with
    | cell kind r =>
      unfold inspectWithin
      simp only [cell, moduleName_forget, symName_forget]
      split
      · rfl
      · cases kind <;> cases rt.heap.cell? r with
        | none => rfl
        | some c => cases c <;> rfl
    | _ => rfl
  | succ fuel ih =>
    funext seen v
    cases v with
    | cell kind r =>
      unfold inspectWithin
      simp only [cell, moduleName_forget, symName_forget, ih]
      split
      · rfl
      · cases kind <;> cases rt.heap.cell? r with
        | none => rfl
        | some c => cases c <;> rfl
    | _ => rfl

theorem defaultInspect_forget (v : Val) : rt.forget.defaultInspect v = rt.defaultInspect v := by
  simp only [defaultInspect, inspectWithin_forget]
  rw [show rt.forget.heap.slots.size = rt.heap.slots.size from Heap.size_forget rt.heap]

theorem inheritedSingleton_forget (fuel : Nat) (start : Option Ref) :
    rt.forget.inheritedSingleton fuel start = rt.inheritedSingleton fuel start := by
  induction fuel generalizing start with
  | zero => rfl
  | succ fuel ih =>
    cases start with
    | none => rfl
    | some c =>
      simp only [inheritedSingleton, module?_forget, ih]
      cases rt.module? c <;> rfl

theorem classOf_forget (v : Val) : rt.forget.classOf v = rt.classOf v := by
  have size : rt.forget.heap.slots.size = rt.heap.slots.size := Heap.size_forget rt.heap
  have cell (r : Ref) : rt.forget.heap.cell? r = (rt.heap.cell? r).map Cell.forget :=
    Heap.cell?_forget rt.heap r
  cases v with
  | bool b => cases b <;> rfl
  | cell kind r =>
    simp only [classOf, cell, inheritedSingleton_forget, size]
    cases rt.heap.cell? r with
    | none => rfl
    | some c => cases c <;> rfl
  | _ => rfl

theorem searchLexical_forget (name : Sym) (fuel : Nat) (m : Ref) :
    rt.forget.searchLexical name fuel m = rt.searchLexical name fuel m := by
  induction fuel generalizing m with
  | zero => rfl
  | succ fuel ih =>
    simp only [searchLexical, module?_forget, ih]
    cases rt.module? m <;> rfl

theorem firstConst_forget (name : Sym) (modules : List Ref) :
    rt.forget.firstConst name modules = rt.firstConst name modules := by
  simp only [firstConst, const?_forget]

theorem firstEntry_forget (name : Sym) (exclude : Option Method) (above : List Ref) :
    rt.forget.firstEntry name exclude above = rt.firstEntry name exclude above :=
  firstEntry_congr fun a _ => method?_forget rt a name

theorem plainSearch_forget (name : Sym) (after exclude : Option Method) (above : List Ref) :
    rt.forget.plainSearch name after exclude above = rt.plainSearch name after exclude above := by
  cases after with
  | none => exact firstEntry_forget rt name exclude above
  | some m => exact firstEntry_forget rt name exclude (behind m.owner above)

theorem methodLabel_forget (m : Method) : rt.forget.methodLabel m = rt.methodLabel m := by
  simp only [methodLabel, module?_forget, moduleName_forget, symName_forget]
  cases rt.module? m.owner with
  | none => rfl
  | some mod =>
    obtain ⟨kind, _, _, _, _, _, _, attached, _⟩ := mod
    cases kind <;> cases attached with
    | none => rfl
    | some v => cases v with
      | cell k r => cases k <;> rfl
      | _ => rfl

/-! ## Writes -/

theorem forget_modifyCell (r : Ref) {f : Cell → Cell} (same : ∀ c, (f c).forget = f c.forget) :
    (rt.modifyCell r f).forget = rt.forget.modifyCell r f := by
  simp only [forget, modifyCell, Heap.forget_modify rt.heap r same]

theorem forget_modifyModule (r : Ref) {f : Module → Module}
    (same : ∀ m, (f m).forget = f m.forget) :
    (rt.modifyModule r f).forget = rt.forget.modifyModule r f :=
  forget_modifyCell rt r fun c => by
    cases c with
    | module m => exact congrArg Cell.module (same m)
    | _ => rfl

theorem forget_hold (v : Val) : (rt.hold v).forget = rt.forget.hold v := by
  unfold hold
  split <;> rfl

theorem forget_release (mark : Nat) (keep : Option Val) :
    (rt.release mark keep).forget = rt.forget.release mark keep := by
  cases keep with
  | none => rfl
  | some v => exact forget_hold _ v

theorem forget_setConst (m : Ref) (name : Sym) (v : Val) :
    (rt.setConst m name v).forget = rt.forget.setConst m name v := by
  have bind (rt : Runtime) := forget_modifyModule rt m
    (f := fun mod => { mod with consts := mod.consts.insert name v }) fun _ => rfl
  unfold setConst
  rw [bind]
  congr 1
  cases v with
  | cell kind bound =>
    cases kind with
    | module =>
      simp only [module?_forget, constName_forget]
      cases rt.module? bound with
      | none => rfl
      | some mod =>
        obtain ⟨kind, named, _⟩ := mod
        cases named with
        | none => exact forget_modifyModule rt bound fun _ => rfl
        | some _ => rfl
    | _ => rfl
  | _ => rfl

end

/-! ## Steps -/

theorem oblivious_alloc {c : Cell} (bare : c.forget = c) : Oblivious (·.alloc c) := by
  intro rt
  have room : rt.forget.room = rt.room.forget := by
    unfold Runtime.room
    rw [show rt.forget.heap.full = rt.heap.full from rfl]
    split
    · exact (forget_collect rt).symm
    · rfl
  have made := Heap.forget_alloc rt.room.heap c false
  rw [bare] at made
  simp only [alloc_eq, room]
  simp only [place]
  rw [show rt.room.forget.heap = rt.room.heap.forget from rfl, made]
  rfl

theorem oblivious_newModule : Oblivious newModule := oblivious_alloc rfl

theorem oblivious_subclass (sup : Ref) (name : Option String) (tag : Option Tag) :
    Oblivious (·.subclass sup name tag) := by
  intro rt
  simp only [subclass, module?_forget, moduleName_forget]
  cases rt.module? sup with
  | none => rfl
  | some m =>
    have made := oblivious_alloc (c := .module
      { kind := .cls, name, superclass := some sup, tag := tag.getD m.tag }) rfl rt
    simp only [Option.map_some, show m.forget.isClass = m.isClass from rfl,
      show m.forget.isSingleton = m.isSingleton from rfl, show m.forget.final = m.final from rfl,
      show m.forget.tag = m.tag from rfl, made]
    cases m.isClass
    · rfl
    · cases m.isSingleton
      · cases m.final <;> rfl
      · rfl

theorem oblivious_defineMethod (m : Ref) (name : Sym) (body : Body) (arity : Int) :
    Oblivious (·.defineMethod m name body arity) := by
  intro rt
  have written := forget_modifyModule rt m (f := fun mod => { mod with
    methods := mod.methods.insert name { id := rt.nextMethod, name, owner := m, body, arity } })
    fun _ => rfl
  exact Prod.ext rfl (congrArg (fun rt' : Runtime =>
    { rt' with nextMethod := rt.nextMethod + 1, cache := {} }) written.symm)

theorem oblivious_removeMethod (m : Ref) (name : Sym) : Oblivious (·.removeMethod m name) := by
  intro rt
  simp only [removeMethod, method?_forget, moduleName_forget, symName_forget]
  have written := forget_modifyModule rt m
    (f := fun mod => { mod with methods := mod.methods.erase name }) fun _ => rfl
  cases rt.method? m name with
  | none => rfl
  | some _ =>
    exact Prod.ext rfl (congrArg (fun rt' : Runtime => { rt' with cache := {} }) written.symm)

theorem oblivious_newSingleton (v : Val) (superclass : Ref) :
    Oblivious (·.newSingleton v superclass) := by
  intro rt
  simp only [newSingleton, defaultInspect_forget]
  exact oblivious_alloc rfl rt

theorem oblivious_moduleSingleton (fuel : Nat) (r : Ref) : Oblivious (moduleSingleton fuel r) := by
  induction fuel generalizing r with
  | zero => exact fun rt => rfl
  | succ fuel ih =>
    intro rt
    have made (rt : Runtime) (sup : Ref) :
        ((rt.forget.newSingleton (.module r) sup).1,
          (rt.forget.newSingleton (.module r) sup).2.modifyModule r fun m =>
            { m with singleton := some (rt.forget.newSingleton (.module r) sup).1 }) =
        ((rt.newSingleton (.module r) sup).1, ((rt.newSingleton (.module r) sup).2.modifyModule r
          fun m => { m with singleton := some (rt.newSingleton (.module r) sup).1 }).forget) := by
      have step : rt.forget.newSingleton (.module r) sup = _ := oblivious_newSingleton _ sup rt
      rw [step]
      refine Prod.ext rfl (forget_modifyModule _ r ?_).symm
      exact fun _ => rfl
    simp only [moduleSingleton, module?_forget]
    cases rt.module? r with
    | none => rfl
    | some m =>
      obtain ⟨kind, _, superclass, _, _, _, single, _⟩ := m
      cases single with
      | some s => rfl
      | none =>
        simp only [Option.map_some, Module.forget]
        cases kind <;> cases superclass <;> simp only [Module.isClass, ih _ rt] <;> exact made _ _

theorem oblivious_objectSingleton (r : Ref) : Oblivious (objectSingleton r) := by
  intro rt
  simp only [objectSingleton, object?_forget]
  cases rt.object? r with
  | none => rfl
  | some o =>
    cases single : o.singleton with
    | some s => simp only [single]
    | none =>
      have step : rt.forget.newSingleton (.object r) o.cls = _ := oblivious_newSingleton _ _ rt
      simp only [single, step, modifyObject]
      refine Prod.ext rfl (forget_modifyCell _ r ?_).symm
      exact fun c => by cases c <;> rfl

theorem oblivious_singletonClass (v : Val) : Oblivious (·.singletonClass v) := by
  intro rt
  have size : rt.forget.heap.slots.size = rt.heap.slots.size := Heap.size_forget rt.heap
  cases v with
  | bool b => cases b <;> rfl
  | cell kind r =>
    cases kind with
    | object => simp only [singletonClass, oblivious_objectSingleton r rt]
    | module => simp only [singletonClass, size, oblivious_moduleSingleton _ r rt]
    | _ => rfl
  | _ => rfl

theorem oblivious_failureClass (e : Failure) : Oblivious (·.failureClass e) := by
  intro rt
  have read := const?_forget (rt.intern e.kind.className).2
  simp only [failureClass]
  exact Prod.ext (congrArg (·.bind (·.ofKind? .module)) (read _ _)) rfl

/-- A step that a program takes without consulting the class graph. -/
theorem oblivious_act {α : Type} {action : Action α} (plain : action.consults = false) :
    Oblivious action.run := by
  intro rt
  cases action with
  | newArray cls elements => exact oblivious_alloc rfl rt
  | newTable cls => exact oblivious_alloc rfl rt
  | newString cls text => exact oblivious_alloc rfl rt
  | newFloat x => exact oblivious_alloc rfl rt
  | newObject cls => exact oblivious_alloc rfl rt
  | newProc proc => exact oblivious_alloc rfl rt
  | newBound receiver method => exact oblivious_alloc rfl rt
  | newModule => exact oblivious_newModule rt
  | collect =>
    have collected := forget_collect rt
    exact Prod.ext (congrArg (·.heap.lastFreed) collected.symm) collected.symm
  | hold v => exact Prod.ext rfl (forget_hold rt v).symm
  | releaseTopLevel =>
    simp only [Action.run, Runtime.releaseTopLevel]
    rw [show rt.forget.atTopLevel = rt.atTopLevel from rfl]
    split <;> rfl
  | push array v =>
    exact Prod.ext rfl (forget_modifyCell rt array fun c => by cases c <;> rfl).symm
  | put array index v =>
    refine Prod.ext rfl (forget_modifyCell rt array fun c => ?_).symm
    cases c <;> rfl
  | insert table key v =>
    refine Prod.ext rfl (forget_modifyCell rt table fun c => ?_).symm
    cases c <;> rfl
  | erase table key =>
    refine Prod.ext ?_ (forget_modifyCell rt table fun c => ?_).symm
    · exact congrArg (·.bind (·.get? key)) (entries?_forget rt table)
    · cases c <;> rfl
  | append string text =>
    refine Prod.ext rfl (forget_modifyCell rt string fun c => ?_).symm
    cases c <;> rfl
  | setIvar object name v =>
    refine Prod.ext rfl (forget_modifyCell rt object fun c => ?_).symm
    cases c <;> rfl
  | subclass sup name tag => exact oblivious_subclass sup name tag rt
  | setFinal m final =>
    refine Prod.ext rfl (forget_modifyModule rt m ?_).symm
    exact fun _ => rfl
  | setConst m name v => exact Prod.ext rfl (forget_setConst rt m name v).symm
  | singletonClass v => exact oblivious_singletonClass v rt
  | failureClass e => exact oblivious_failureClass e rt
  | defineMethod m name body arity => exact oblivious_defineMethod m name body arity rt
  | removeMethod m name => exact oblivious_removeMethod m name rt
  | findConst | includeOnce | ancestry | isA | failureIsA | aliasMethod | findMethod => cases plain
  | _ => rfl

/-! ## Calls and scopes -/

theorem callFrame_forget (rt : Runtime) (c : Call) : rt.forget.callFrame c = rt.callFrame c := by
  cases c <;> simp only [callFrame, proc?_forget] <;> rfl

theorem callLabel_forget (rt : Runtime) (c : Call) : rt.forget.callLabel c = rt.callLabel c := by
  cases c with
  | method m => exact methodLabel_forget rt m
  | proc => rfl

theorem oblivious_leaveCall (c : Call) (mark : Nat) (outcome : Outcome Val) :
    Oblivious (·.leaveCall c mark outcome) := by
  intro rt
  cases outcome with
  | value v => exact Prod.ext rfl (forget_release rt mark (some v)).symm
  | failure e =>
    have released := forget_release rt mark none
    simp only [leaveCall, ← released, callLabel_forget]
  | panic message => rfl

theorem oblivious_refuseCall (c : Call) (mark : Nat) : Oblivious (·.refuseCall c mark) :=
  oblivious_leaveCall c mark _

theorem oblivious_closeCall (c : Call) (mark : Nat) (outcome : Outcome Val) :
    Oblivious (·.closeCall c mark outcome) := by
  intro rt
  simp only [closeCall]
  split
  · exact oblivious_leaveCall c mark outcome rt
  · exact oblivious_leaveCall c mark outcome rt.popCall

theorem forget_leaveScope (rt : Runtime) (mark : Nat) (outcome : Outcome Val) :
    (rt.leaveScope mark outcome).forget = rt.forget.leaveScope mark outcome := by
  unfold leaveScope
  split
  · rfl
  · exact forget_release { rt with scopes := rt.scopes - 1 } mark _

theorem forget_letGo (rt : Runtime) (mark : Nat) (outcome : Outcome Unit) :
    (rt.letGo mark outcome).forget = rt.forget.letGo mark outcome := by
  unfold letGo
  split
  · rfl
  · exact forget_release rt mark none

theorem oblivious_enterCall (c : Call) : Oblivious (Move.enterCall c).run := by
  intro rt
  have made : rt.forget.openFrame c = ((rt.openFrame c).1, (rt.openFrame c).2.forget) := by
    simp only [openFrame, callFrame_forget]
    rfl
  simp only [Move.run, made]
  rw [show (rt.openFrame c).2.forget.atLimit = (rt.openFrame c).2.atLimit from rfl]
  split <;> rfl

end Runtime
end ObjectRuntime
