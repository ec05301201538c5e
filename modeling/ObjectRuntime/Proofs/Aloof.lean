import ObjectRuntime.Proofs.Running

/-! What primitive steps leave alone. None sets the recursion limit, and none but registering and
unregistering touches the registered roots, so that a new runtime has none. -/

namespace ObjectRuntime

def Action.registers {α : Type} : Action α → Bool
  | root _ | unroot _ => true
  | _ => false

def Move.registers : Move → Bool
  | act action => action.registers
  | _ => false

namespace Runtime

structure Aloof (rt rt' : Runtime) : Prop where
  limit : rt'.recursionLimit = rt.recursionLimit := by rfl
  roots : rt'.heap.roots = rt.heap.roots := by rfl

namespace Aloof
variable {rt rt' rt'' : Runtime}

theorem refl (rt : Runtime) : Aloof rt rt := ⟨rfl, rfl⟩

theorem trans (first : Aloof rt rt') (second : Aloof rt' rt'') : Aloof rt rt'' where
  limit := second.limit.trans first.limit
  roots := second.roots.trans first.roots

theorem of_forget (same : rt'.forget = rt.forget) : Aloof rt rt' where
  limit := congrArg (fun rt => rt.recursionLimit) same
  roots := congrArg (fun rt => rt.heap.roots) same

theorem collect (rt : Runtime) : Aloof rt rt.collect where
  roots := Heap.roots_collect ..

theorem place (rt : Runtime) (c : Cell) : Aloof rt (rt.place c).2 where
  roots := Heap.roots_alloc ..

theorem alloc (rt : Runtime) (c : Cell) : Aloof rt (rt.alloc c).2 := by
  rw [alloc_eq]
  unfold room
  split
  · exact (collect rt).trans (place _ c)
  · exact place rt c

theorem hold (rt : Runtime) (v : Val) : Aloof rt (rt.hold v) := by
  unfold Runtime.hold
  split
  · exact refl rt
  · exact ⟨rfl, rfl⟩

theorem release (rt : Runtime) (mark : Nat) (keep : Option Val) : Aloof rt (rt.release mark keep) := by
  rw [release_eq]
  exact ⟨rfl, rfl⟩

theorem releaseTopLevel (rt : Runtime) : Aloof rt rt.releaseTopLevel.2 := by
  unfold Runtime.releaseTopLevel
  split
  · exact release rt 0 none
  · exact refl rt

theorem ancestry (rt : Runtime) (m : Ref) : Aloof rt (rt.ancestry m).2 :=
  of_forget (ancestry_forget rt m)

theorem includeOnce (rt : Runtime) (m other : Ref) : Aloof rt (rt.includeOnce m other).2 := by
  rcases includeOnce_writes rt m other with same | ⟨rt', same, -, writes⟩
  · exact of_forget same
  · rw [writes]
    exact (of_forget same).trans ⟨rfl, rfl⟩

theorem singletonClass (rt : Runtime) (v : Val) : Aloof rt (rt.singletonClass v).2 :=
  singletonClass_induct (refl rt) (fun _ _ => (alloc rt _).trans ⟨rfl, rfl⟩)
    (fun _ _ _ _ before => (before.trans (alloc _ _)).trans ⟨rfl, rfl⟩) v

theorem setConst (rt : Runtime) (m : Ref) (name : Sym) (v : Val) :
    Aloof rt (rt.setConst m name v) := by
  obtain ⟨rt', named, writes⟩ := setConst_writes rt m name v
  have before : Aloof rt rt' := by
    rcases named with rfl | ⟨bound, _, -, -, -, rfl⟩
    · exact refl rt'
    · exact ⟨rfl, rfl⟩
  rw [writes]
  exact before.trans ⟨rfl, rfl⟩

theorem subclass (rt : Runtime) (sup : Ref) (name : Option String) (tag : Option Tag) :
    Aloof rt (rt.subclass sup name tag).2 := by
  rcases subclass_cases rt sup name tag with ⟨e, same⟩ | ⟨_, made, -, same⟩
  · rw [same]
    exact refl rt
  · rw [same]
    exact alloc rt _

theorem failureIsA (rt : Runtime) (e : Failure) (m : Ref) : Aloof rt (rt.failureIsA e m).2 := by
  have named : Aloof rt (rt.failureClass e).2 := ⟨rfl, rfl⟩
  exact named.trans (of_forget (failureIsA_forget rt e m))

theorem findMethod (rt : Runtime) (cls : Ref) (name : Sym) (after exclude : Option Method) :
    Aloof rt (rt.findMethod cls name after exclude).2 :=
  of_forget (findMethod_forget ..)

theorem aliasMethod (rt : Runtime) (m : Ref) (newName oldName : Sym) :
    Aloof rt (rt.aliasMethod m newName oldName).2 := by
  rcases aliasMethod_writes rt m newName oldName with same | ⟨rt', x, same, writes⟩
  · exact of_forget same
  · rw [writes]
    exact (of_forget same).trans ⟨rfl, rfl⟩

theorem removeMethod (rt : Runtime) (m : Ref) (name : Sym) : Aloof rt (rt.removeMethod m name).2 := by
  rcases removeMethod_writes rt m name with same | writes
  · rw [same]
    exact refl rt
  · rw [writes]
    exact ⟨rfl, rfl⟩

theorem act {α : Type} {action : Action α} (registers : action.registers = false) (rt : Runtime) :
    Aloof rt (action.run rt).2 := by
  cases action with
  | root v => cases registers
  | unroot entry => cases registers
  | newArray cls elements => exact alloc rt _
  | newTable cls => exact alloc rt _
  | newString cls text => exact alloc rt _
  | newFloat x => exact alloc rt _
  | newObject cls => exact alloc rt _
  | newProc proc => exact alloc rt _
  | newBound receiver method => exact alloc rt _
  | newModule => exact alloc rt _
  | collect => exact collect rt
  | hold v => exact hold rt v
  | releaseTopLevel => exact releaseTopLevel rt
  | subclass sup name tag => exact subclass rt sup name tag
  | setConst m name v => exact setConst rt m name v
  | findConst m name => exact of_forget (findConst_forget rt m name)
  | includeOnce m other => exact includeOnce rt m other
  | ancestry m => exact ancestry rt m
  | singletonClass v => exact singletonClass rt v
  | isA v m => exact ancestry rt (rt.classOf v)
  | failureIsA e m => exact failureIsA rt e m
  | aliasMethod m newName oldName => exact aliasMethod rt m newName oldName
  | removeMethod m name => exact removeMethod rt m name
  | findMethod cls name after exclude => exact findMethod rt cls name after exclude
  | _ => exact ⟨rfl, rfl⟩

theorem move {move : Move} (registers : move.registers = false) (rt : Runtime) :
    Aloof rt (move.run rt).2 := by
  cases move with
  | act action => exact act registers rt
  | _ =>
    rw [aside_move rfl]
    exact ⟨rfl, rfl⟩

theorem boot (config : Config) : Aloof (bare config) (boot config) := by
  refine boot_relates refl trans (fun _ _ => setConst ..) fun {rt _} _ boots => ?_
  cases boots with
  | includes m other => exact includeOnce ..
  | singleton => exact singletonClass ..
  | handlers => exact (alloc rt _).trans ⟨rfl, rfl⟩
  | method => exact ⟨rfl, rfl⟩
  | release => exact release ..

end Aloof

theorem limit_act {α : Type} (action : Action α) (rt : Runtime) :
    (action.run rt).2.recursionLimit = rt.recursionLimit := by
  cases registers : action.registers with
  | false => exact (Aloof.act registers rt).limit
  | true =>
    cases action with
    | root v => rfl
    | unroot entry => rfl
    | _ => cases registers

end Runtime
end ObjectRuntime
