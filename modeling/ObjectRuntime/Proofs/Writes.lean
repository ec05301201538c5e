import ObjectRuntime.Action
import ObjectRuntime.Proofs.Lineage

/-! What the steps on modules write. Walking ancestries and looking up change what is remembered,
and nothing else. Behind that each step makes one write at most, or a chain of singleton classes. -/

namespace ObjectRuntime
namespace Runtime

variable {rt : Runtime}

/-! ## Ancestries -/

/-- Linearizing changes what is remembered, and nothing else. -/
theorem linearize_forget (fuel : Nat) (m : Ref) (rt : Runtime) :
    (linearize fuel m rt).2.forget = rt.forget := by
  induction fuel generalizing m rt with
  | zero => rfl
  | succ fuel ih =>
    have merged (ps linear : List Ref) (rt : Runtime) :
        (ps.foldl (fun acc p => (mergeLinear acc.1 (linearize fuel p acc.2).1,
          (linearize fuel p acc.2).2)) (linear, rt)).2.forget = rt.forget := by
      induction ps generalizing linear rt with
      | nil => rfl
      | cons p ps ih' =>
        rw [List.foldl_cons, ih']
        exact ih p rt
    have whole (mod : Module) :
        (linearizeFrom (linearize fuel) mod.parents m rt).2.forget = rt.forget := by
      rw [← merged mod.parents [m] rt]
      simp only [linearizeFrom, forget, modifyModule, modifyCell]
      rw [Heap.forget_modify_self _ _ fun c => by cases c <;> rfl]
    rw [linearize]
    split
    next => rfl
    next mod _ =>
      split
      next =>
        split
        next => rfl
        next => exact whole mod
      next => exact whole mod

theorem ancestry_forget (rt : Runtime) (m : Ref) : (rt.ancestry m).2.forget = rt.forget :=
  linearize_forget _ m rt

theorem searchAncestry_forget (rt : Runtime) (m : Ref) (name : Sym) :
    (rt.searchAncestry m name).2.forget = rt.forget := by
  unfold searchAncestry
  have first := ancestry_forget rt m
  split
  next above rt' walked =>
    rw [walked] at first
    split
    next => exact first
    next =>
      have second := (ancestry_forget rt' CoreClass.object.ref).trans first
      split
      next above' rt'' walked' =>
        rw [walked'] at second
        split
        next => exact second
        next => exact second

theorem findConst_forget (rt : Runtime) (m : Ref) (name : Sym) :
    (rt.findConst m name).2.forget = rt.forget := by
  unfold findConst
  split
  next => rfl
  next => rfl
  next => exact searchAncestry_forget rt m name

theorem findMethod_forget (rt : Runtime) (cls : Ref) (name : Sym) (after exclude : Option Method) :
    (rt.findMethod cls name after exclude).2.forget = rt.forget := by
  unfold findMethod
  split
  · exact ancestry_forget rt cls
  · split
    · rfl
    · exact ancestry_forget rt cls

/-- An exception class is looked up by the name that is interned for it. -/
theorem failureIsA_forget (rt : Runtime) (e : Failure) (m : Ref) :
    (rt.failureIsA e m).2.forget = (rt.failureClass e).2.forget := by
  unfold failureIsA
  split
  next cls rt' found =>
    rw [found]
    exact ancestry_forget rt' cls
  next rt' found => rw [found]

/-! ## Writes -/

theorem includeOnce_writes (rt : Runtime) (m other : Ref) :
    (rt.includeOnce m other).2.forget = rt.forget ∨
      ∃ rt' : Runtime, rt'.forget = rt.forget ∧
        ¬ ((rt.module? other).map (·.isClass)).getD false ∧
        (rt.includeOnce m other).2 = (rt'.modifyModule m fun mod =>
          { mod with includes := other :: mod.includes }).hierarchyChanged := by
  unfold includeOnce
  split
  next => exact .inl rfl
  next plain =>
    have first := ancestry_forget rt m
    split
    next above rt₁ walked =>
      rw [walked] at first
      split
      next => exact .inl first
      next =>
        have second := (ancestry_forget rt₁ other).trans first
        split
        next above' rt₂ walked' =>
          rw [walked'] at second
          split
          next => exact .inl second
          next => exact .inr ⟨rt₂, second, plain, rfl⟩

theorem aliasMethod_writes (rt : Runtime) (m : Ref) (newName oldName : Sym) :
    (rt.aliasMethod m newName oldName).2.forget = rt.forget ∨
      ∃ (rt' : Runtime) (x : Method), rt'.forget = rt.forget ∧
        (rt.aliasMethod m newName oldName).2 = { rt'.modifyModule m fun mod =>
          { mod with methods := mod.methods.insert newName x } with cache := rt'.cache.clear } := by
  have found := findMethod_forget rt m oldName none none
  unfold aliasMethod
  split
  next method rt' searched =>
    rw [searched] at found
    exact .inr ⟨rt', method, found, rfl⟩
  next rt' searched =>
    rw [searched] at found
    exact .inl found

theorem removeMethod_writes (rt : Runtime) (m : Ref) (name : Sym) :
    (rt.removeMethod m name).2 = rt ∨
      (rt.removeMethod m name).2 = { rt.modifyModule m fun mod =>
        { mod with methods := mod.methods.erase name } with cache := rt.cache.clear } := by
  unfold removeMethod
  split
  next => exact .inr rfl
  next => exact .inl rfl

/-- A module without a name takes the one of the constant that it is bound to first. -/
theorem setConst_writes (rt : Runtime) (m : Ref) (name : Sym) (v : Val) :
    ∃ rt' : Runtime, (rt' = rt ∨ ∃ bound mod, v = .module bound ∧ rt.module? bound = some mod ∧
        mod.name = none ∧ rt' = rt.modifyModule bound fun mod =>
          { mod with name := some (rt.constName m name), lexicalParent := some m }) ∧
      rt.setConst m name v =
        rt'.modifyModule m fun mod => { mod with consts := mod.consts.insert name v } := by
  unfold setConst
  split
  next bound =>
    split
    next found => exact ⟨_, .inr ⟨bound, _, rfl, found, rfl, rfl⟩, rfl⟩
    next => exact ⟨rt, .inl rfl, rfl⟩
  next => exact ⟨rt, .inl rfl, rfl⟩

/-! ## Singleton classes -/

/-- The singleton class of a module is made behind those above it. What holds at first and behind
each that is made holds behind the last. -/
theorem moduleSingleton_induct {P : Runtime → Prop} (start : P rt)
    (made : ∀ {seen left : Runtime} {r : Ref} {m : Module} (sup : Ref), P seen →
      seen.module? r = some m → m.singleton = none → P left →
      P ((left.newSingleton (.module r) sup).2.modifyModule r fun m =>
        { m with singleton := some (left.newSingleton (.module r) sup).1 }))
    (fuel : Nat) (r : Ref) : P (moduleSingleton fuel r rt).2 := by
  induction fuel generalizing rt r with
  | zero => exact start
  | succ fuel ih =>
    unfold moduleSingleton
    split
    next => exact start
    next m found =>
      split
      next => exact start
      next unmade =>
        refine made _ start found unmade ?_
        split
        next => exact ih start _
        next => exact start
        next => exact start

theorem objectSingleton_induct {P : Runtime → Prop} {r : Ref} (start : P rt)
    (made : ∀ {o : Object}, rt.object? r = some o → o.singleton = none →
      P ((rt.newSingleton (.object r) o.cls).2.modifyObject r fun o' =>
        { o' with singleton := some (rt.newSingleton (.object r) o.cls).1 })) :
    P (objectSingleton r rt).2 := by
  unfold objectSingleton
  split
  next => exact start
  next o found =>
    split
    next => exact start
    next unmade => exact made found unmade

theorem singletonClass_induct {P : Runtime → Prop} (start : P rt)
    (object : ∀ {r : Ref} {o : Object}, rt.object? r = some o → o.singleton = none →
      P ((rt.newSingleton (.object r) o.cls).2.modifyObject r fun o' =>
        { o' with singleton := some (rt.newSingleton (.object r) o.cls).1 }))
    (module : ∀ {seen left : Runtime} {r : Ref} {m : Module} (sup : Ref), P seen →
      seen.module? r = some m → m.singleton = none → P left →
      P ((left.newSingleton (.module r) sup).2.modifyModule r fun m =>
        { m with singleton := some (left.newSingleton (.module r) sup).1 }))
    (v : Val) : P (rt.singletonClass v).2 := by
  unfold singletonClass
  split
  next => exact start
  next => exact start
  next => exact start
  next r => exact objectSingleton_induct start object
  next r => exact moduleSingleton_induct start module _ r
  next => exact start

end Runtime
end ObjectRuntime
