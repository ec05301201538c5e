import ObjectRuntime.Lifecycle
import ObjectRuntime.Proofs.Stacks

/-! The list of at-exit handlers. A list that the handler global or a handle keeps stays as it is
under every step that writes neither to it nor to the global: no collection frees it or one of its
handlers, and what a step makes is made elsewhere. -/

namespace ObjectRuntime

def Val.isCallable (v : Val) : Bool := (v.ofKind? .proc).isSome || (v.ofKind? .bound).isSome

/-- A step that changes which list the handler global names. -/
def Action.rebinds {α : Type} : Action α → Bool
  | setGlobal name _ | eraseGlobal name => name = .atExitHandlers
  | _ => false

/-- The array that a step writes to. -/
def Action.writes? {α : Type} : Action α → Option Ref
  | push array _ | put array _ _ => some array
  | _ => none

namespace Runtime

/-- The list that the handler global names. -/
def handlerList? (rt : Runtime) : Option Ref := (rt.getGlobal .atExitHandlers).ofKind? .array

/-- An array of handlers that are there. -/
structure Lists (rt : Runtime) (l : Ref) (handlers : List Val) : Prop where
  elements : rt.elements? l = some handlers.toArray
  there : ∀ h ∈ handlers, h.isCallable = true ∧ rt.heap.Holds h

def Anchored (rt : Runtime) (l : Ref) : Prop :=
  rt.handlerList? = some l ∨ .array l ∈ rt.handles

/-- A step that leaves the lists as they are, but for the one that is written to. -/
structure Spares (written : Option Ref) (rt rt' : Runtime) : Prop where
  heap : rt.heap.WellFormed → rt'.heap.WellFormed
  registry : rt'.handlerList? = rt.handlerList?
  handles : ∀ v ∈ rt.handles, v ∈ rt'.handles
  list : rt.heap.WellFormed → ∀ l handlers, rt.Anchored l → written ≠ some l →
    rt.Lists l handlers → rt'.Lists l handlers

variable {rt rt' rt'' : Runtime} {l r : Ref} {handlers : List Val} {written : Option Ref}

theorem elements?_eq_some {es : Array Val} :
    rt.elements? r = some es ↔ ∃ cls, rt.heap.cell? r = some (.array cls es) := by
  unfold elements?
  cases rt.heap.cell? r with
  | none => simp
  | some c => cases c <;> simp

theorem handlerList?_eq_some :
    rt.handlerList? = some l ↔ rt.globals.get? .atExitHandlers = some (.array l) := by
  simp only [handlerList?, getGlobal]
  cases rt.globals.get? .atExitHandlers with
  | none => simp [Val.ofKind?]
  | some v => cases v <;> simp [Val.ofKind?]

theorem Anchored.reaches (anchored : rt.Anchored l) : rt.Reaches (.array l) := by
  rcases anchored with named | held
  · exact Root.reaches (.global (Table.mem_values_of_get (handlerList?_eq_some.mp named)))
  · exact Root.reaches (.handle held)

theorem Lists.reaches (lists : rt.Lists l handlers) (anchored : rt.Anchored l) {h : Val}
    (member : h ∈ handlers) : rt.Reaches h := by
  obtain ⟨cls, found⟩ := elements?_eq_some.mp lists.elements
  exact .child anchored.reaches found (List.mem_cons_of_mem _ (by simpa using member))

theorem Lists.mono (lists : rt.Lists l handlers)
    (elements : rt'.elements? l = rt.elements? l)
    (there : ∀ h ∈ handlers, rt.heap.Holds h → rt'.heap.Holds h) : rt'.Lists l handlers :=
  ⟨elements.trans lists.elements, fun h member =>
    ⟨(lists.there h member).1, there h member (lists.there h member).2⟩⟩

theorem Lists.aside (lists : rt.Lists l handlers) (same : SameCells rt rt') :
    rt'.Lists l handlers :=
  lists.mono (by simp only [elements?, same.cell?]) fun h _ => (same.holds h).mpr

namespace Spares

theorem anchored (spares : Spares written rt rt') (anchored : rt.Anchored l) : rt'.Anchored l :=
  anchored.imp (fun named => spares.registry.trans named) (spares.handles _)

theorem refl (written : Option Ref) (rt : Runtime) : Spares written rt rt :=
  ⟨id, rfl, fun _ => id, fun _ _ _ _ _ => id⟩

theorem trans (first : Spares written rt rt') (second : Spares written rt' rt'') :
    Spares written rt rt'' where
  heap wf := second.heap (first.heap wf)
  registry := second.registry.trans first.registry
  handles v held := second.handles v (first.handles v held)
  list wf l handlers anchored apart lists := second.list (first.heap wf) l handlers
    (first.anchored anchored) apart (first.list wf l handlers anchored apart lists)

theorem aside (same : SameCells rt rt') (registry : rt'.handlerList? = rt.handlerList?)
    (handles : ∀ v ∈ rt.handles, v ∈ rt'.handles) : Spares written rt rt' :=
  ⟨same.wellFormed, registry, handles, fun _ _ _ _ _ lists => lists.aside same⟩

theorem of_forget (same : rt'.forget = rt.forget) : Spares written rt rt' where
  heap := (Extends.of_forget same).heap
  registry := congrArg (fun rt => rt.handlerList?) same
  handles v held := by
    rwa [show rt'.handles = rt.handles from congrArg (fun rt => rt.handles) same]
  list _ l _ _ _ lists := by
    refine lists.mono ?_ fun h _ => (holds_of_forget same h).mpr
    have forgotten (rt : Runtime) : rt.forget.elements? l = rt.elements? l := by
      simp only [elements?, forget, Heap.cell?_forget]
      cases rt.heap.cell? l with
      | none => rfl
      | some c => cases c <;> rfl
    rw [← forgotten rt', same, forgotten]

theorem modifyCell (rt : Runtime) (r : Ref) {f : Cell → Cell} (kind : ∀ c, (f c).kind = c.kind)
    (other : written ≠ some r → ∀ cls es, f (.array cls es) = .array cls es) :
    Spares written rt (rt.modifyCell r f) where
  heap wf := Heap.wellFormed_modify wf r f
  registry := rfl
  handles _ := id
  list _ l _ _ apart lists := by
    refine lists.mono ?_ fun h _ => (Heap.holds_modify kind h).mpr
    obtain ⟨cls, found⟩ := elements?_eq_some.mp lists.elements
    rw [lists.elements, elements?_eq_some]
    refine ⟨cls, ?_⟩
    simp only [Runtime.modifyCell, Heap.cell?_modify]
    split
    next same => rw [← same, found, Option.map_some, other (same ▸ apart)]
    next => exact found

theorem modifyModule (rt : Runtime) (r : Ref) (f : Module → Module) :
    Spares written rt (rt.modifyModule r f) :=
  modifyCell rt r (fun c => by cases c <;> rfl) fun _ _ _ => rfl

/-- A list that is kept is reached, and so are its handlers. -/
theorem collect (rt : Runtime) : Spares written rt rt.collect where
  heap wf := Heap.wellFormed_collect wf rt.frames rt.rootValues
  registry := rfl
  handles _ := id
  list _ l _ anchored _ lists := by
    have kept {k : Kind} {r : Ref} {c : Cell} (reached : rt.Reaches (.cell k r))
        (found : rt.heap.cell? r = some c) : rt.collect.heap.cell? r = some c :=
      (Heap.cell?_collect ..).mpr ⟨found, k, reached⟩
    refine lists.mono ?_ fun h member held => ?_
    · obtain ⟨cls, found⟩ := elements?_eq_some.mp lists.elements
      rw [lists.elements, elements?_eq_some]
      exact ⟨cls, kept anchored.reaches found⟩
    · have reached := lists.reaches anchored member
      cases h with
      | cell k r =>
        obtain ⟨c, found, kind⟩ := held
        exact ⟨c, kept reached found, kind⟩
      | _ => trivial

theorem place (rt : Runtime) (c : Cell) : Spares written rt (rt.place c).2 where
  heap wf := Heap.wellFormed_alloc wf c false
  registry := rfl
  handles _ held := Array.mem_push.mpr (.inl held)
  list wf l _ _ _ lists := by
    refine lists.mono ?_ fun h _ held => Heap.holds_alloc wf c false held
    obtain ⟨cls, found⟩ := elements?_eq_some.mp lists.elements
    rw [lists.elements, elements?_eq_some]
    exact ⟨cls, cell?_place_of_found wf c found⟩

theorem hold (rt : Runtime) (v : Val) : Spares written rt (rt.hold v) := by
  unfold Runtime.hold
  split
  · exact refl _ rt
  · exact aside ⟨rfl, rfl, rfl⟩ rfl fun _ held => Array.mem_push.mpr (.inl held)

theorem room (rt : Runtime) : Spares written rt rt.room := by
  unfold Runtime.room
  split
  · exact collect rt
  · exact refl _ rt

theorem alloc (rt : Runtime) (c : Cell) : Spares written rt (rt.alloc c).2 := by
  rw [alloc_eq]
  exact (room rt).trans (place rt.room c)

theorem ancestry (rt : Runtime) (m : Ref) : Spares written rt (rt.ancestry m).2 :=
  of_forget (ancestry_forget rt m)

theorem failureIsA (rt : Runtime) (e : Failure) (m : Ref) :
    Spares written rt (rt.failureIsA e m).2 := by
  have named : Spares written rt (rt.failureClass e).2 := aside ⟨rfl, rfl, rfl⟩ rfl fun _ => id
  exact named.trans (of_forget (failureIsA_forget rt e m))

theorem includeOnce (rt : Runtime) (m other : Ref) :
    Spares written rt (rt.includeOnce m other).2 := by
  rcases includeOnce_writes rt m other with same | ⟨rt', same, -, writes⟩
  · exact of_forget same
  · rw [writes]
    exact (of_forget same).trans ((modifyModule rt' m _).trans (aside ⟨rfl, rfl, rfl⟩ rfl fun _ => id))

theorem subclass (rt : Runtime) (sup : Ref) (name : Option String) (tag : Option Tag) :
    Spares written rt (rt.subclass sup name tag).2 := by
  rcases subclass_cases rt sup name tag with ⟨e, same⟩ | ⟨_, made, -, same⟩
  · rw [same]
    exact refl written rt
  · rw [same]
    exact alloc rt _

theorem setConst (rt : Runtime) (m : Ref) (name : Sym) (v : Val) :
    Spares written rt (rt.setConst m name v) := by
  obtain ⟨rt', named, writes⟩ := setConst_writes rt m name v
  rw [writes]
  refine trans ?_ (modifyModule rt' m _)
  rcases named with rfl | ⟨bound, _, -, -, -, rfl⟩
  · exact refl written rt'
  · exact modifyModule rt bound _

theorem writeTable (rt : Runtime) (m : Ref) (f : Module → Module) (next : Nat)
    (cache : MethodCache) :
    Spares written rt { rt.modifyModule m f with nextMethod := next, cache } :=
  (modifyModule rt m f).trans (aside ⟨rfl, rfl, rfl⟩ rfl fun _ => id)

theorem aliasMethod (rt : Runtime) (m : Ref) (newName oldName : Sym) :
    Spares written rt (rt.aliasMethod m newName oldName).2 := by
  rcases aliasMethod_writes rt m newName oldName with same | ⟨rt', x, same, writes⟩
  · exact of_forget same
  · rw [writes]
    exact (of_forget same).trans (writeTable rt' m _ rt'.nextMethod _)

theorem removeMethod (rt : Runtime) (m : Ref) (name : Sym) :
    Spares written rt (rt.removeMethod m name).2 := by
  rcases removeMethod_writes rt m name with same | writes
  · rw [same]
    exact refl written rt
  · rw [writes]
    exact writeTable rt m _ rt.nextMethod _

theorem singletonClass (rt : Runtime) (v : Val) : Spares written rt (rt.singletonClass v).2 :=
  singletonClass_induct (refl written rt)
    (fun _ _ => (alloc rt _).trans
      (modifyCell _ _ (fun c => by cases c <;> rfl) fun _ _ _ => rfl))
    (fun _ _ _ _ before => before.trans ((alloc _ _).trans (modifyModule _ _ _))) v

end Spares

/-- A step that keeps the handler global leaves the lists as they are, but for the one it writes
to. -/
theorem spares_act {α : Type} {action : Action α} (keeps : action.rebinds = false)
    (inside : action.letsGo = true → rt.atTopLevel = false) :
    Spares action.writes? rt (action.run rt).2 := by
  have write {written : Option Ref} (r : Ref) {f : Cell → Cell} (kind : ∀ c, (f c).kind = c.kind)
      (other : written ≠ some r → ∀ cls es, f (.array cls es) = .array cls es) :
      Spares written rt (rt.modifyCell r f) := .modifyCell rt r kind other
  have aside {rt' : Runtime} (same : SameCells rt rt')
      (registry : rt'.handlerList? = rt.handlerList?) (handles : rt'.handles = rt.handles) : Spares none rt rt' :=
    .aside same registry fun _ held => handles ▸ held
  cases action with
  | newArray cls elements => exact .alloc rt _
  | newTable cls => exact .alloc rt _
  | newString cls text => exact .alloc rt _
  | newFloat x => exact .alloc rt _
  | newObject cls => exact .alloc rt _
  | newProc proc => exact .alloc rt _
  | newBound receiver method => exact .alloc rt _
  | newModule => exact .alloc rt _
  | collect => exact .collect rt
  | hold v => exact .hold rt v
  | releaseTopLevel =>
    have still : rt.releaseTopLevel = (0, rt) := by simp [Runtime.releaseTopLevel, inside rfl]
    simp only [Action.run, still]
    exact .refl _ rt
  | push array v =>
    exact write array (fun c => by cases c <;> rfl) fun apart => absurd rfl apart
  | put array index v =>
    exact write array (fun c => by cases c <;> rfl) fun apart => absurd rfl apart
  | insert table key v => exact write table (fun c => by cases c <;> rfl) fun _ _ _ => rfl
  | erase table key => exact write table (fun c => by cases c <;> rfl) fun _ _ _ => rfl
  | append string text => exact write string (fun c => by cases c <;> rfl) fun _ _ _ => rfl
  | setIvar object name v => exact write object (fun c => by cases c <;> rfl) fun _ _ _ => rfl
  | setGlobal name v =>
    have other : Sym.atExitHandlers ≠ name := fun same => by simp [Action.rebinds, same] at keeps
    refine aside ⟨rfl, rfl, rfl⟩ ?_ rfl
    simp only [Action.run, Runtime.setGlobal, handlerList?, getGlobal,
      Table.get?_insert_of_ne _ other]
  | eraseGlobal name =>
    have other : Sym.atExitHandlers ≠ name := fun same => by simp [Action.rebinds, same] at keeps
    refine aside ⟨rfl, rfl, rfl⟩ ?_ rfl
    simp only [Action.run, handlerList?, getGlobal, Table.get?_erase_of_ne _ other]
  | subclass sup name tag => exact .subclass rt sup name tag
  | setFinal m final => exact .modifyModule rt m _
  | setConst m name v => exact .setConst rt m name v
  | findConst m name => exact .of_forget (findConst_forget rt m name)
  | includeOnce m other => exact .includeOnce rt m other
  | ancestry m => exact .ancestry rt m
  | singletonClass v => exact .singletonClass rt v
  | isA v m => exact .ancestry rt (rt.classOf v)
  | failureIsA e m => exact .failureIsA rt e m
  | defineMethod m name body arity => exact .writeTable rt m _ (rt.nextMethod + 1) _
  | aliasMethod m newName oldName => exact .aliasMethod rt m newName oldName
  | removeMethod m name => exact .removeMethod rt m name
  | findMethod cls name after exclude => exact .of_forget (findMethod_forget ..)
  | _ => exact aside ⟨rfl, rfl, rfl⟩ rfl rfl

end Runtime
end ObjectRuntime
