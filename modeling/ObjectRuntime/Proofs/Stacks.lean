import ObjectRuntime.Proofs.Writes

/-! The stacks under primitive steps. Inside a call or a scope no primitive step leaves one
or lets go of a handle: it takes handles, and holds every cell it makes. -/

namespace ObjectRuntime

/-- A frame but for its variables. -/
def Frame.outline (f : Frame) : Frame := { f with locals := #[] }

def Action.letsGo {α : Type} : Action α → Bool
  | releaseTopLevel => true
  | _ => false

namespace Runtime

/-- What was held is still held, by more handles on top, and is still there. -/
structure Guards (rt rt' : Runtime) : Prop where
  handles : ∃ taken, rt'.handles = rt.handles ++ taken
  heap : rt.heap.WellFormed → rt'.heap.WellFormed
  kept : rt.heap.WellFormed → ∀ k r, .cell k r ∈ rt.handles → rt.heap.isLive r → rt'.heap.isLive r

/-- The same calls and scopes are running, in frames that differ in variables only. -/
structure Resumes (rt rt' : Runtime) : Prop extends Guards rt rt' where
  calls : rt'.calls = rt.calls
  scopes : rt'.scopes = rt.scopes
  frames : ∀ (i : Nat) (f : Frame), rt.frames.store[i]? = some f →
    ∃ f', rt'.frames.store[i]? = some f' ∧ f'.outline = f.outline

structure SameRunning (rt rt' : Runtime) : Prop where
  calls : rt'.calls = rt.calls := by rfl
  scopes : rt'.scopes = rt.scopes := by rfl

/-- What is there anew is held. -/
def HoldsNew (rt rt' : Runtime) : Prop :=
  rt.heap.WellFormed → ∀ r, rt'.heap.isLive r → rt.heap.isLive r ∨ ∃ k, .cell k r ∈ rt'.handles

/-- The stacks are extended by handles, for all that is made. -/
structure Extends (rt rt' : Runtime) : Prop extends Resumes rt rt' where
  fresh : HoldsNew rt rt'

variable {rt rt' rt'' : Runtime}

namespace Guards

theorem mem_handles (guards : Guards rt rt') {v : Val} (held : v ∈ rt.handles) :
    v ∈ rt'.handles := by
  obtain ⟨taken, same⟩ := guards.handles
  rw [same]
  exact Array.mem_append.mpr (.inl held)

theorem refl (rt : Runtime) : Guards rt rt := ⟨⟨#[], by simp⟩, id, fun _ _ _ _ => id⟩

theorem trans (first : Guards rt rt') (second : Guards rt' rt'') : Guards rt rt'' where
  handles := by
    obtain ⟨taken, same⟩ := first.handles
    obtain ⟨taken', same'⟩ := second.handles
    exact ⟨taken ++ taken', by rw [same', same, Array.append_assoc]⟩
  heap wf := second.heap (first.heap wf)
  kept wf k r held live :=
    second.kept (first.heap wf) k r (first.mem_handles held) (first.kept wf k r held live)

theorem take (same : SameCells rt rt') (handles : ∃ taken, rt'.handles = rt.handles ++ taken) :
    Guards rt rt' where
  handles := handles
  heap := same.wellFormed
  kept _ _ r _ before := by
    rw [same.isLive]
    exact before

end Guards

namespace Resumes

theorem refl (rt : Runtime) : Resumes rt rt :=
  ⟨.refl rt, rfl, rfl, fun _ f slot => ⟨f, slot, rfl⟩⟩

theorem trans (first : Resumes rt rt') (second : Resumes rt' rt'') : Resumes rt rt'' where
  toGuards := first.toGuards.trans second.toGuards
  calls := second.calls.trans first.calls
  scopes := second.scopes.trans first.scopes
  frames i f slot := by
    obtain ⟨f', slot', same⟩ := first.frames i f slot
    obtain ⟨f'', slot'', same'⟩ := second.frames i f' slot'
    exact ⟨f'', slot'', same'.trans same⟩

theorem atTopLevel (resumes : Resumes rt rt') : rt'.atTopLevel = rt.atTopLevel := by
  simp only [Runtime.atTopLevel, resumes.calls, resumes.scopes]

end Resumes

namespace Extends

theorem refl (rt : Runtime) : Extends rt rt := ⟨.refl rt, fun _ _ => .inl⟩

theorem trans (first : Extends rt rt') (second : Extends rt' rt'') : Extends rt rt'' where
  toResumes := first.toResumes.trans second.toResumes
  fresh wf r live := by
    rcases second.fresh (first.heap wf) r live with before | held
    · rcases first.fresh wf r before with before | ⟨k, held⟩
      · exact .inl before
      · exact .inr ⟨k, second.mem_handles held⟩
    · exact .inr held

theorem take (same : SameStore rt rt') (running : SameRunning rt rt')
    (handles : ∃ taken, rt'.handles = rt.handles ++ taken) : Extends rt rt' where
  toGuards := .take same.toSameCells handles
  calls := running.calls
  scopes := running.scopes
  frames i f slot := ⟨f, by rw [same.frames, slot], rfl⟩
  fresh _ r after := by
    rw [same.isLive] at after
    exact .inl after

theorem aside (same : SameStore rt rt') (running : SameRunning rt rt')
    (handles : rt'.handles = rt.handles) : Extends rt rt' :=
  .take same running ⟨#[], by simp [handles]⟩

theorem of_forget (same : rt'.forget = rt.forget) : Extends rt rt' := by
  have heaps : rt'.heap.forget = rt.heap.forget := congrArg (fun rt => rt.heap) same
  have frames : rt'.frames = rt.frames := congrArg (fun rt => rt.frames) same
  have handles : rt'.handles = rt.handles := congrArg (fun rt => rt.handles) same
  have live (r : Ref) : rt'.heap.isLive r = rt.heap.isLive r := by
    rw [← Heap.isLive_forget, heaps, Heap.isLive_forget]
  refine ⟨⟨⟨⟨#[], by simp [handles]⟩, fun wf => ?_, fun _ _ r _ => ?_⟩,
    congrArg (fun rt => rt.calls) same, congrArg (fun rt => rt.scopes) same,
    fun i f slot => ⟨f, by rw [frames, slot], rfl⟩⟩, fun _ r => ?_⟩
  · rw [← Heap.wellFormed_forget, heaps, Heap.wellFormed_forget]
    exact wf
  · rw [live]
    exact id
  · rw [live]
    exact .inl

theorem modifyCell (rt : Runtime) (r : Ref) (f : Cell → Cell) : Extends rt (rt.modifyCell r f) := by
  have live (r' : Ref) : (rt.modifyCell r f).heap.isLive r' = rt.heap.isLive r' :=
    Heap.isLive_modify rt.heap r r' f
  refine ⟨⟨⟨⟨#[], by simp [Runtime.modifyCell]⟩, fun wf => Heap.wellFormed_modify wf r f,
    fun _ _ r' _ => ?_⟩, rfl, rfl, fun _ f slot => ⟨f, slot, rfl⟩⟩, fun _ r' => ?_⟩
  · rw [live]
    exact id
  · rw [live]
    exact .inl

theorem hold (rt : Runtime) (v : Val) : Extends rt (rt.hold v) := by
  unfold Runtime.hold
  split
  · exact .refl rt
  · exact .take ⟨⟨rfl, rfl, rfl⟩, rfl⟩ ⟨rfl, rfl⟩ ⟨#[v], by simp⟩

theorem collect (rt : Runtime) : Extends rt rt.collect where
  calls := rfl
  scopes := rfl
  frames _ f slot := ⟨f, slot, rfl⟩
  handles := ⟨#[], by simp [Runtime.collect]⟩
  heap wf := Heap.wellFormed_collect wf rt.frames rt.rootValues
  kept _ k r held live := by
    obtain ⟨c, found⟩ := (Heap.isLive_iff ..).mp live
    exact (Heap.isLive_iff ..).mpr
      ⟨c, (Heap.cell?_collect ..).mpr ⟨found, k, Root.reaches (.handle held)⟩⟩
  fresh _ r live := by
    obtain ⟨c, found⟩ := (Heap.isLive_iff ..).mp live
    exact .inl ((Heap.isLive_iff ..).mpr ⟨c, ((Heap.cell?_collect ..).mp found).1⟩)

theorem place (rt : Runtime) (c : Cell) : Extends rt (rt.place c).2 where
  calls := rfl
  scopes := rfl
  frames _ f slot := ⟨f, slot, rfl⟩
  handles := ⟨#[.cell c.kind (rt.place c).1], by simp [Runtime.place]⟩
  heap wf := Heap.wellFormed_alloc wf c false
  kept wf k r held live := by
    obtain ⟨c', found⟩ := (Heap.isLive_iff ..).mp live
    refine Heap.isLive_of_holds (k := c'.kind) (Heap.holds_alloc wf c false (Heap.holds_cell found))
  fresh wf r live := by
    obtain ⟨c', found⟩ := (Heap.isLive_iff ..).mp live
    rw [cell?_place wf] at found
    split at found
    next same =>
      rw [same]
      exact .inr ⟨c.kind, Array.mem_push.mpr (.inr rfl)⟩
    next => exact .inl ((Heap.isLive_iff ..).mpr ⟨c', found⟩)

theorem alloc (rt : Runtime) (c : Cell) : Extends rt (rt.alloc c).2 := by
  rw [alloc_eq]
  refine Extends.trans ?_ (.place rt.room c)
  unfold room
  split
  · exact .collect rt
  · exact .refl rt

end Extends

/-! ## Modules -/

namespace Extends

theorem ancestry (rt : Runtime) (m : Ref) : Extends rt (rt.ancestry m).2 :=
  .of_forget (ancestry_forget rt m)

theorem includeOnce (rt : Runtime) (m other : Ref) : Extends rt (rt.includeOnce m other).2 := by
  rcases includeOnce_writes rt m other with same | ⟨rt', same, -, writes⟩
  · exact .of_forget same
  · rw [writes]
    exact ((Extends.of_forget same).trans (.modifyCell rt' m _)).trans
      (.aside ⟨⟨rfl, rfl, rfl⟩, rfl⟩ ⟨rfl, rfl⟩ rfl)

theorem findMethod (rt : Runtime) (cls : Ref) (name : Sym) (after exclude : Option Method) :
    Extends rt (rt.findMethod cls name after exclude).2 :=
  .of_forget (findMethod_forget rt cls name after exclude)

theorem findConst (rt : Runtime) (m : Ref) (name : Sym) : Extends rt (rt.findConst m name).2 :=
  .of_forget (findConst_forget rt m name)

theorem subclass (rt : Runtime) (sup : Ref) (name : Option String) (tag : Option Tag) :
    Extends rt (rt.subclass sup name tag).2 := by
  rcases subclass_cases rt sup name tag with ⟨e, same⟩ | ⟨_, made, -, same⟩
  · rw [same]
    exact .refl rt
  · rw [same]
    exact .alloc rt _

theorem setConst (rt : Runtime) (m : Ref) (name : Sym) (v : Val) :
    Extends rt (rt.setConst m name v) := by
  obtain ⟨rt', named, writes⟩ := setConst_writes rt m name v
  rw [writes]
  refine Extends.trans ?_ (.modifyCell rt' m _)
  rcases named with rfl | ⟨bound, _, -, -, -, rfl⟩
  · exact .refl rt'
  · exact .modifyCell rt bound _

theorem writeTable (rt : Runtime) (m : Ref) (f : Module → Module) (next : Nat)
    (cache : MethodCache) :
    Extends rt { rt.modifyModule m f with nextMethod := next, cache } :=
  (Extends.modifyCell rt m _).trans (.aside ⟨⟨rfl, rfl, rfl⟩, rfl⟩ ⟨rfl, rfl⟩ rfl)

theorem aliasMethod (rt : Runtime) (m : Ref) (newName oldName : Sym) :
    Extends rt (rt.aliasMethod m newName oldName).2 := by
  rcases aliasMethod_writes rt m newName oldName with same | ⟨rt', x, same, writes⟩
  · exact .of_forget same
  · rw [writes]
    exact (Extends.of_forget same).trans (.writeTable rt' m _ rt'.nextMethod _)

theorem removeMethod (rt : Runtime) (m : Ref) (name : Sym) :
    Extends rt (rt.removeMethod m name).2 := by
  rcases removeMethod_writes rt m name with same | writes
  · rw [same]
    exact .refl rt
  · rw [writes]
    exact .writeTable rt m _ rt.nextMethod _

theorem failureIsA (rt : Runtime) (e : Failure) (m : Ref) : Extends rt (rt.failureIsA e m).2 := by
  have named : Extends rt (rt.failureClass e).2 := .aside ⟨⟨rfl, rfl, rfl⟩, rfl⟩ ⟨rfl, rfl⟩ rfl
  exact named.trans (.of_forget (failureIsA_forget rt e m))

theorem objectSingleton (r : Ref) (rt : Runtime) : Extends rt (objectSingleton r rt).2 :=
  objectSingleton_induct (.refl rt) fun _ _ => (Extends.alloc rt _).trans (.modifyCell _ r _)

theorem singletonClass (rt : Runtime) (v : Val) : Extends rt (rt.singletonClass v).2 :=
  singletonClass_induct (.refl rt) (fun _ _ => (Extends.alloc rt _).trans (.modifyCell _ _ _))
    (fun _ _ _ _ before => before.trans ((Extends.alloc _ _).trans (.modifyCell _ _ _))) v

end Extends

/-- Outside of all calls and scopes one step lets go of handles; any other step extends. -/
theorem Extends.act {α : Type} (action : Action α) (rt : Runtime)
    (inside : action.letsGo = true → rt.atTopLevel = false) : Extends rt (action.run rt).2 := by
  cases action with
  | intern name => exact .aside ⟨⟨rfl, rfl, rfl⟩, rfl⟩ ⟨rfl, rfl⟩ rfl
  | report text => exact .aside ⟨⟨rfl, rfl, rfl⟩, rfl⟩ ⟨rfl, rfl⟩ rfl
  | newArray cls elements => exact .alloc rt _
  | newTable cls => exact .alloc rt _
  | newString cls text => exact .alloc rt _
  | newFloat x => exact .alloc rt _
  | newObject cls => exact .alloc rt _
  | newProc proc => exact .alloc rt _
  | newBound receiver method => exact .alloc rt _
  | newModule => exact .alloc rt _
  | collect => exact .collect rt
  | root v => exact .aside ⟨⟨rfl, rfl, rfl⟩, rfl⟩ ⟨rfl, rfl⟩ rfl
  | unroot entry => exact .aside ⟨⟨rfl, rfl, rfl⟩, rfl⟩ ⟨rfl, rfl⟩ rfl
  | hold v => exact .hold rt v
  | releaseTopLevel =>
    have still : rt.releaseTopLevel = (0, rt) := by simp [Runtime.releaseTopLevel, inside rfl]
    simp only [Action.run, still]
    exact .refl rt
  | setRatio ratio => exact .aside ⟨⟨rfl, rfl, rfl⟩, rfl⟩ ⟨rfl, rfl⟩ rfl
  | push array v => exact .modifyCell rt array _
  | put array index v => exact .modifyCell rt array _
  | insert table key v => exact .modifyCell rt table _
  | erase table key => exact .modifyCell rt table _
  | append string text => exact .modifyCell rt string _
  | setIvar object name v => exact .modifyCell rt object _
  | setGlobal name v => exact .aside ⟨⟨rfl, rfl, rfl⟩, rfl⟩ ⟨rfl, rfl⟩ rfl
  | eraseGlobal name => exact .aside ⟨⟨rfl, rfl, rfl⟩, rfl⟩ ⟨rfl, rfl⟩ rfl
  | setLocal frame depth index v =>
    refine ⟨⟨.take ⟨rfl, rfl, rfl⟩ ⟨#[], by simp [Action.run]⟩, rfl, rfl, fun i f slot => ?_⟩,
      fun _ _ => .inl⟩
    simp only [Action.run, Frames.setLocal]
    split
    · simp only [Array.getElem?_modify, slot]
      split <;> exact ⟨_, rfl, rfl⟩
    · exact ⟨f, slot, rfl⟩
  | subclass sup name tag => exact .subclass rt sup name tag
  | setFinal m final => exact .modifyCell rt m _
  | setConst m name v => exact .setConst rt m name v
  | findConst m name => exact .findConst rt m name
  | includeOnce m other => exact .includeOnce rt m other
  | ancestry m => exact .ancestry rt m
  | singletonClass v => exact .singletonClass rt v
  | isA v m => exact .ancestry rt (rt.classOf v)
  | failureClass e => exact .aside ⟨⟨rfl, rfl, rfl⟩, rfl⟩ ⟨rfl, rfl⟩ rfl
  | failureIsA e m => exact .failureIsA rt e m
  | defineMethod m name body arity => exact .writeTable rt m _ (rt.nextMethod + 1) _
  | aliasMethod m newName oldName => exact .aliasMethod rt m newName oldName
  | removeMethod m name => exact .removeMethod rt m name
  | findMethod cls name after exclude => exact .findMethod rt cls name after exclude

/-- The heap stays well-formed, whatever a step is given. -/
theorem wellFormed_act {α : Type} (action : Action α) (wf : rt.heap.WellFormed) :
    (action.run rt).2.heap.WellFormed := by
  cases letsGo : action.letsGo with
  | false => exact (Extends.act action rt fun same => by simp [letsGo] at same).heap wf
  | true =>
    cases action with
    | releaseTopLevel =>
      simp only [Action.run, releaseTopLevel]
      split <;> exact wf
    | _ => cases letsGo

end Runtime
end ObjectRuntime
