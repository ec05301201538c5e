import ObjectRuntime.Proofs.Heap.Identity
import ObjectRuntime.Proofs.Invisible

/-! Widening. Apart from the collections and births that it begins with, a move leaves every cell
where it is. Objects and data keep their classes, and modules their superclasses, their singleton
classes and all that they include, so that no class that a value has changes and nothing that
stands above a module ceases to. -/

namespace ObjectRuntime

theorem Module.of_kin {α : Type} {m m' : Module} (same : m'.kin = m.kin) (f : Module → α)
    (kept : ∀ m, f m.kin = f m := by intro; rfl) : f m' = f m := by rw [← kept, same, kept]

/-- The class of a cell that is neither an object nor a module, when it has one of its own. -/
def Cell.dataClass : Cell → Option Ref
  | .array cls _ => some cls
  | .table cls _ => some cls
  | .string cls _ => some cls
  | _ => none

def Cell.parents : Cell → List Ref
  | .module m => m.parents
  | _ => []

/-- The steps that make cells, and the collection. -/
def Action.makes {α : Type} : Action α → Bool
  | newArray .. | newTable .. | newString .. | newFloat .. | newObject .. | newProc .. | newBound ..
  | newModule | collect | subclass .. | singletonClass .. => true
  | _ => false

/-- The cell says of classes what it said, and has the parents it had, and perhaps more. -/
structure Cell.Widens (c c' : Cell) : Prop where
  kind : c'.kind = c.kind
  kin : c'.kin = c.kin
  cls : c'.dataClass = c.dataClass
  parents : c.parents ⊆ c'.parents

namespace Cell.Widens

variable {c c' c'' : Cell}

theorem refl (c : Cell) : c.Widens c := ⟨rfl, rfl, rfl, List.Subset.refl _⟩

theorem trans (first : c.Widens c') (second : c'.Widens c'') : c.Widens c'' :=
  ⟨second.kind.trans first.kind, second.kin.trans first.kin, second.cls.trans first.cls,
    fun _ member => second.parents (first.parents member)⟩

theorem of_module {m m' : Module} (kin : m'.kin = m.kin) (includes : m.includes ⊆ m'.includes) :
    (Cell.module m).Widens (.module m') where
  kind := rfl
  kin := by rw [Cell.kin, kin, Cell.kin]
  cls := rfl
  parents := by
    have same := Module.of_kin kin (·.superclass)
    intro p member
    simp only [Cell.parents, Module.parents, List.mem_append, same] at member ⊢
    exact member.imp_left fun included => includes included

theorem of_forget (same : c'.forget = c.forget) : c.Widens c' := by
  cases c with
  | module m =>
    cases c' with
    | module m' =>
      have forgotten : m'.forget = m.forget := Cell.module.inj same
      have kin : m'.forget.kin = m.forget.kin := by rw [forgotten]
      have includes : m'.forget.includes = m.forget.includes := by rw [forgotten]
      exact of_module kin fun i member => (congrArg (i ∈ ·) includes).mpr member
    | _ => cases same
  | _ =>
    cases c' <;> cases same
    exact refl _

end Cell.Widens

namespace Runtime

structure Widens (rt rt' : Runtime) : Prop where
  heap : rt.heap.WellFormed → rt'.heap.WellFormed
  cells : rt.heap.WellFormed → ∀ r c, rt.heap.cell? r = some c →
    ∃ c', rt'.heap.cell? r = some c' ∧ c.Widens c'
  generations : rt.heap.WellFormed → ∀ i, rt'.heap.generation i = rt.heap.generation i

variable {rt rt' rt'' : Runtime} {v : Val} {r m : Ref}

namespace Widens

theorem refl (rt : Runtime) : Widens rt rt := ⟨id, fun _ _ c found => ⟨c, found, .refl c⟩, fun _ _ => rfl⟩

theorem trans (first : Widens rt rt') (second : Widens rt' rt'') : Widens rt rt'' where
  heap wf := second.heap (first.heap wf)
  cells wf r c found := by
    obtain ⟨c', found', widens⟩ := first.cells wf r c found
    obtain ⟨c'', found'', widens'⟩ := second.cells (first.heap wf) r c' found'
    exact ⟨c'', found'', widens.trans widens'⟩
  generations wf i := (second.generations (first.heap wf) i).trans (first.generations wf i)

theorem of_cells (same : SameCells rt rt') : Widens rt rt' where
  heap := same.wellFormed
  cells _ r c found := ⟨c, (same.cell? r).trans found, .refl c⟩
  generations _ i := by rw [Heap.generation, same.slots, Heap.generation]

theorem of_forget (same : rt'.forget = rt.forget) : Widens rt rt' where
  heap := (Extends.of_forget same).heap
  cells _ r c found := by
    obtain ⟨c', found', forgotten⟩ := cell?_of_forget same.symm found
    exact ⟨c', found', .of_forget forgotten⟩
  generations _ i := by
    have heaps : rt'.heap.forget = rt.heap.forget := congrArg (fun rt => rt.heap) same
    have forgotten (h : Heap) : h.forget.generation i = h.generation i := by
      simp only [Heap.generation, Heap.slots_forget]
      cases h.slots[i]? <;> rfl
    rw [← forgotten, heaps, forgotten]

theorem modifyCell (rt : Runtime) (r : Ref) {f : Cell → Cell} (widens : ∀ c : Cell, c.Widens (f c)) :
    Widens rt (rt.modifyCell r f) where
  heap wf := Heap.wellFormed_modify wf r f
  cells _ a c found := by
    simp only [Runtime.modifyCell, Heap.cell?_modify]
    split
    next same =>
      subst same
      exact ⟨f c, by rw [found]; rfl, widens c⟩
    next => exact ⟨c, found, .refl c⟩
  generations _ i := by
    simp only [Runtime.modifyCell, Heap.generation, Heap.slots_modify]
    cases rt.heap.slots[i]? with
    | none => rfl
    | some s =>
      simp only [Option.map_some, Option.elim_some]
      split <;> rfl

theorem modifyModule (rt : Runtime) (r : Ref) {f : Module → Module}
    (kin : ∀ m, (f m).kin = m.kin) (includes : ∀ m, m.includes ⊆ (f m).includes) :
    Widens rt (rt.modifyModule r f) :=
  modifyCell rt r fun c => by
    cases c with
    | module m => exact .of_module (kin m) (includes m)
    | _ => exact .refl _

/-- Writing what a module is not looked up by. -/
theorem writeModule (rt : Runtime) (r : Ref) {f : Module → Module} (kin : ∀ m, (f m).kin = m.kin)
    (includes : ∀ m, (f m).includes = m.includes) : Widens rt (rt.modifyModule r f) :=
  modifyModule rt r kin fun m => (includes m).symm ▸ List.Subset.refl _

theorem place (rt : Runtime) (c : Cell) : Widens rt (rt.place c).2 where
  heap wf := Heap.wellFormed_alloc wf c false
  cells wf _ c' found := ⟨c', cell?_place_of_found wf c found, .refl c'⟩
  generations wf i := Heap.generation_alloc wf c false i

theorem ancestry (rt : Runtime) (m : Ref) : Widens rt (rt.ancestry m).2 :=
  of_forget (ancestry_forget rt m)

theorem failureIsA (rt : Runtime) (e : Failure) (m : Ref) : Widens rt (rt.failureIsA e m).2 := by
  have named : Widens rt (rt.failureClass e).2 := of_cells ⟨rfl, rfl, rfl⟩
  exact named.trans (of_forget (failureIsA_forget rt e m))

theorem includeOnce (rt : Runtime) (m other : Ref) : Widens rt (rt.includeOnce m other).2 := by
  rcases includeOnce_writes rt m other with same | ⟨rt', same, -, writes⟩
  · exact of_forget same
  · have included : Widens rt' (rt'.modifyModule m fun mod =>
        { mod with includes := other :: mod.includes }) :=
      modifyModule rt' m (fun _ => rfl) fun _ => List.subset_cons_self ..
    rw [writes]
    exact ((of_forget same).trans included).trans (of_cells ⟨rfl, rfl, rfl⟩)

theorem setConst (rt : Runtime) (m : Ref) (name : Sym) (v : Val) :
    Widens rt (rt.setConst m name v) := by
  obtain ⟨rt', named, writes⟩ := setConst_writes rt m name v
  rw [writes]
  refine trans ?_ (writeModule rt' m (fun _ => rfl) fun _ => rfl)
  rcases named with rfl | ⟨bound, _, -, -, -, rfl⟩
  · exact refl rt'
  · exact writeModule rt bound (fun _ => rfl) fun _ => rfl

theorem writeTable (rt : Runtime) (m : Ref) (f : Table Sym Method → Table Sym Method)
    (same : SameCells (rt.modifyModule m fun mod => { mod with methods := f mod.methods }) rt') :
    Widens rt rt' :=
  (writeModule rt m (f := fun mod => { mod with methods := f mod.methods }) (fun _ => rfl)
    fun _ => rfl).trans (of_cells same)

theorem aliasMethod (rt : Runtime) (m : Ref) (newName oldName : Sym) :
    Widens rt (rt.aliasMethod m newName oldName).2 := by
  rcases aliasMethod_writes rt m newName oldName with same | ⟨rt', x, same, writes⟩
  · exact of_forget same
  · rw [writes]
    exact (of_forget same).trans (writeTable rt' m (·.insert newName x) ⟨rfl, rfl, rfl⟩)

theorem removeMethod (rt : Runtime) (m : Ref) (name : Sym) :
    Widens rt (rt.removeMethod m name).2 := by
  rcases removeMethod_writes rt m name with same | writes
  · rw [same]
    exact refl rt
  · rw [writes]
    exact writeTable rt m (·.erase name) ⟨rfl, rfl, rfl⟩

end Widens

/-! ## Moves -/

namespace Widens

/-- A step that neither makes a cell nor collects. -/
theorem act {α : Type} {action : Action α} (makes : action.makes = false) (rt : Runtime) :
    Widens rt (action.run rt).2 := by
  cases action with
  | hold v =>
    simp only [Action.run, Runtime.hold]
    split <;> exact of_cells ⟨rfl, rfl, rfl⟩
  | releaseTopLevel =>
    simp only [Action.run, Runtime.releaseTopLevel]
    split <;> exact of_cells ⟨rfl, rfl, rfl⟩
  | push array v =>
    exact modifyCell rt array fun c => by cases c <;> exact ⟨rfl, rfl, rfl, fun _ => id⟩
  | put array index v =>
    exact modifyCell rt array fun c => by cases c <;> exact ⟨rfl, rfl, rfl, fun _ => id⟩
  | insert table key v =>
    exact modifyCell rt table fun c => by cases c <;> exact ⟨rfl, rfl, rfl, fun _ => id⟩
  | erase table key =>
    exact modifyCell rt table fun c => by cases c <;> exact ⟨rfl, rfl, rfl, fun _ => id⟩
  | append string text =>
    exact modifyCell rt string fun c => by cases c <;> exact ⟨rfl, rfl, rfl, fun _ => id⟩
  | setIvar object name v =>
    exact modifyCell rt object fun c => by cases c <;> exact ⟨rfl, rfl, rfl, fun _ => id⟩
  | setFinal m final =>
    exact writeModule rt m (f := fun mod => { mod with final := final || mod.isSingleton })
      (fun _ => rfl) fun _ => rfl
  | setConst m name v => exact setConst rt m name v
  | findConst m name => exact of_forget (findConst_forget rt m name)
  | includeOnce m other => exact includeOnce rt m other
  | ancestry m => exact ancestry rt m
  | isA v m => exact ancestry rt (rt.classOf v)
  | failureIsA e m => exact failureIsA rt e m
  | defineMethod m name body arity =>
    exact writeTable rt m
      (·.insert name { id := rt.nextMethod, name, owner := m, body, arity }) ⟨rfl, rfl, rfl⟩
  | aliasMethod m newName oldName => exact aliasMethod rt m newName oldName
  | removeMethod m name => exact removeMethod rt m name
  | findMethod cls name after exclude => exact of_forget (findMethod_forget rt cls name after exclude)
  | intern | report | root | unroot | setRatio | setGlobal | eraseGlobal | setLocal | failureClass =>
    exact of_cells ⟨rfl, rfl, rfl⟩
  | _ => cases makes

end Widens

/-- A chain of collections and births, and then a step that widens. -/
def Unfolds (rt rt' : Runtime) : Prop := ∃ rt₁, Births rt rt₁ ∧ Widens rt₁ rt'

theorem Widens.unfolds (widens : Widens rt rt') : Unfolds rt rt' := ⟨rt, .refl, widens⟩

theorem Births.unfolds (births : Births rt rt') : Unfolds rt rt' := ⟨rt', births, .refl rt'⟩

theorem unfolds_alloc (rt : Runtime) (c : Cell) : Unfolds rt (rt.alloc c).2 :=
  ⟨rt.room, births_room rt, .place rt.room c⟩

theorem unfolds_act (intact : rt.Intact) {α : Type} {action : Action α}
    (permitted : rt.Permits action) : Unfolds rt (action.run rt).2 := by
  cases makes : action.makes with
  | false => exact (Widens.act makes rt).unfolds
  | true =>
    cases action with
    | newArray | newTable | newString | newFloat | newObject | newProc | newBound | newModule =>
      exact unfolds_alloc rt _
    | collect => exact Births.unfolds (.single (.collect rt))
    | subclass sup name tag =>
      rcases subclass_cases rt sup name tag with ⟨e, same⟩ | ⟨_, made, -, same⟩
      · rw [Action.run, same]
        exact (Widens.refl rt).unfolds
      · rw [Action.run, same]
        exact unfolds_alloc rt _
    | singletonClass v =>
      exact (births_singletonClass intact (permitted.given v (by simp [Action.given]))).1.unfolds
    | _ => cases makes

theorem unfolds_move (intact : rt.Intact) {move : Move} (permitted : rt.PermitsMove move) :
    Unfolds rt (move.run rt).2 := by
  have still (same : (move.run rt).2.heap = rt.heap) : Unfolds rt (move.run rt).2 :=
    (Widens.of_cells ⟨congrArg Heap.slots same, congrArg Heap.free same,
      congrArg Heap.live same⟩).unfolds
  cases move with
  | act action => exact unfolds_act intact permitted
  | _ => exact still (heap_move rfl)

end Runtime
end ObjectRuntime
