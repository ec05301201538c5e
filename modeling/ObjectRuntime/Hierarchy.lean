import ObjectRuntime.Inspect

/-! The class graph. The ancestry of a module is its linearization: the module, the
ancestries of the modules it includes, then that of its superclass, each module where
it comes first. Ancestries are remembered until an edge changes. -/

namespace ObjectRuntime

namespace Runtime

def mergeLinear (linear more : List Ref) : List Ref := linear ++ more.filter (· ∉ linear)

def linearizeFrom (up : Ref → Runtime → List Ref × Runtime) (parents : List Ref) (m : Ref)
    (rt : Runtime) : List Ref × Runtime :=
  match parents.foldl (fun (linear, rt) p =>
      match up p rt with
      | (more, rt) => (mergeLinear linear more, rt)) ([m], rt) with
  | (linear, rt) =>
    (linear, rt.modifyModule m fun mod => { mod with linear := some (rt.hierarchy, linear) })

/-- The linearization of `m`, remembered on the way for every module met. The recursion goes
along edges of the class graph, at most `fuel` deep. -/
def linearize : Nat → Ref → Runtime → List Ref × Runtime
  | 0, m, rt => ([m], rt)
  | fuel + 1, m, rt =>
    match rt.module? m with
    | none => ([m], rt)
    | some mod =>
      match mod.linear with
      | some (generation, linear) =>
        if generation = rt.hierarchy then (linear, rt)
        else linearizeFrom (linearize fuel) mod.parents m rt
      | none => linearizeFrom (linearize fuel) mod.parents m rt

/-- The ancestry of `m`. Edges form no cycle, so no path is longer than the heap. -/
def ancestry (rt : Runtime) (m : Ref) : List Ref × Runtime := linearize rt.heap.slots.size m rt

def hierarchyChanged (rt : Runtime) : Runtime :=
  { rt with hierarchy := rt.hierarchy + 1, cache := rt.cache.clear }

def includeOnce (rt : Runtime) (m other : Ref) : Except Failure Unit × Runtime :=
  if ((rt.module? other).map (·.isClass)).getD false then
    (.error (.typeError "wrong argument type Class (expected Module)"), rt)
  else
    match rt.ancestry m with
    | (above, rt) =>
      if other ∈ above then (.ok (), rt)
      else
        match rt.ancestry other with
        | (above, rt) =>
          if m ∈ above then (.error (.argumentError "cyclic include detected"), rt)
          else
            (.ok (), (rt.modifyModule m fun mod =>
              { mod with includes := other :: mod.includes }).hierarchyChanged)

/-- A new class below `sup`. Its instances are represented like those of `sup` unless a tag says
otherwise. -/
def subclass (rt : Runtime) (sup : Ref) (name : Option String) (tag : Option Tag) :
    Except Failure Ref × Runtime :=
  match rt.module? sup with
  | none => (.error (.typeError "superclass must be a Class"), rt)
  | some m =>
    if !m.isClass then
      (.error (.typeError s!"superclass must be a Class ({rt.moduleName sup} given)"), rt)
    else if m.isSingleton then
      (.error (.typeError "can't make subclass of singleton class"), rt)
    else if m.final then (.error (.typeError s!"can't make subclass of {rt.moduleName sup}"), rt)
    else
      let made : Module := { kind := .cls, name, superclass := some sup, tag := tag.getD m.tag }
      match rt.alloc (.module made) with
      | (r, rt) => (.ok r, rt)

def newModule (rt : Runtime) : Ref × Runtime := rt.alloc (.module { kind := .module })

def setFinal (rt : Runtime) (m : Ref) (final : Bool) : Runtime :=
  rt.modifyModule m fun mod => { mod with final := final || mod.isSingleton }

/-! ## Classes of values -/

def inheritedSingleton (rt : Runtime) : Nat → Option Ref → Option Ref
  | 0, _ => none
  | _, none => none
  | fuel + 1, some c =>
    match rt.module? c with
    | none => none
    | some m =>
      match m.singleton with
      | some s => some s
      | none => rt.inheritedSingleton fuel m.superclass

/-- The class dispatch starts from. A class without a singleton class of its own dispatches
through the one it would inherit from. -/
def classOf (rt : Runtime) : Val → Ref
  | .nil => CoreClass.nilClass.ref
  | .bool true => CoreClass.trueClass.ref
  | .bool false => CoreClass.falseClass.ref
  | .int _ => CoreClass.integer.ref
  | .sym _ => CoreClass.symbol.ref
  | .cell kind r =>
    match rt.heap.cell? r with
    | some (.object o) => o.singleton.getD o.cls
    | some (.module m) =>
      match m.singleton with
      | some s => s
      | none =>
        if !m.isClass then CoreClass.module.ref
        else (rt.inheritedSingleton rt.heap.slots.size m.superclass).getD CoreClass.klass.ref
    | some (.array cls _) => cls
    | some (.table cls _) => cls
    | some (.string cls _) => cls
    | _ =>
      match kind with
      | .float => CoreClass.float.ref
      | .proc => CoreClass.proc.ref
      | .bound => CoreClass.method.ref
      | _ => CoreClass.object.ref

def skipSingletons (rt : Runtime) : Nat → Ref → Ref
  | 0, cls => cls
  | fuel + 1, cls =>
    match rt.module? cls with
    | some m =>
      match m.superclass with
      | some sup => if m.isSingleton then rt.skipSingletons fuel sup else cls
      | none => cls
    | none => cls

def realClassOf (rt : Runtime) (v : Val) : Ref :=
  rt.skipSingletons rt.heap.slots.size (rt.classOf v)

def className (rt : Runtime) (v : Val) : String := rt.moduleName (rt.realClassOf v)

def isA (rt : Runtime) (v : Val) (m : Ref) : Bool × Runtime :=
  match rt.ancestry (rt.classOf v) with
  | (above, rt) => (m ∈ above, rt)

/-! ## Singleton classes -/

def newSingleton (rt : Runtime) (v : Val) (superclass : Ref) : Ref × Runtime :=
  rt.alloc (.module {
    kind := .singleton
    name := some s!"#<Class:{rt.defaultInspect v}>"
    superclass := some superclass
    attached := some v
    final := true })

/-- The singleton class of a module. That of a class is below the singleton class of its
superclass, or below `Class` at the root; that of a plain module is below `Module`. -/
def moduleSingleton : Nat → Ref → Runtime → Ref × Runtime
  | 0, r, rt => (r, rt)
  | fuel + 1, r, rt =>
    match rt.module? r with
    | none => (r, rt)
    | some m =>
      match m.singleton with
      | some s => (s, rt)
      | none =>
        match (match m.isClass, m.superclass with
          | true, some sup => moduleSingleton fuel sup rt
          | true, none => (CoreClass.klass.ref, rt)
          | false, _ => (CoreClass.module.ref, rt)) with
        | (sup, rt) =>
          match rt.newSingleton (.module r) sup with
          | (s, rt) => (s, rt.modifyModule r fun m => { m with singleton := some s })

def objectSingleton (r : Ref) (rt : Runtime) : Ref × Runtime :=
  match rt.object? r with
  | none => (r, rt)
  | some o =>
    match o.singleton with
    | some s => (s, rt)
    | none =>
      match rt.newSingleton (.object r) o.cls with
      | (s, rt) => (s, rt.modifyObject r fun o => { o with singleton := some s })

/-- The singleton class of a value, made when it is first asked for. Nil, true and false have
their own classes for it; the other immediates and the built-in containers have none. -/
def singletonClass (rt : Runtime) : Val → Except Failure Ref × Runtime
  | .nil => (.ok CoreClass.nilClass.ref, rt)
  | .bool true => (.ok CoreClass.trueClass.ref, rt)
  | .bool false => (.ok CoreClass.falseClass.ref, rt)
  | .cell .object r =>
    match objectSingleton r rt with
    | (s, rt) => (.ok s, rt)
  | .cell .module r =>
    match moduleSingleton rt.heap.slots.size r rt with
    | (s, rt) => (.ok s, rt)
  | _ => (.error (.typeError "can't define singleton"), rt)

end Runtime
end ObjectRuntime
