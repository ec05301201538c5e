import ObjectRuntime.Constant

/-! Method tables and lookup. The method a class answers a name with is the first one
its ancestry defines; answers are cached until a table or the class graph changes. -/

namespace ObjectRuntime

namespace Runtime

def defineMethod (rt : Runtime) (m : Ref) (name : Sym) (body : Body) (arity : Int) :
    Method × Runtime :=
  let method : Method := { id := rt.nextMethod, name, owner := m, body, arity }
  let rt := rt.modifyModule m fun mod => { mod with methods := mod.methods.insert name method }
  (method, { rt with nextMethod := rt.nextMethod + 1, cache := rt.cache.clear })

def behindOwner (above : List Ref) (after : Option Method) : List Ref :=
  match after with
  | none => above
  | some m => (above.dropWhile (· ≠ m.owner)).drop 1

def firstMethod (rt : Runtime) (name : Sym) (exclude : Option Method) (modules : List Ref) :
    Option Method :=
  modules.findSome? fun m =>
    match rt.method? m name with
    | some found => if exclude.map (·.id) = some found.id then none else some found
    | none => none

def searchMethod (rt : Runtime) (cls : Ref) (name : Sym) (after exclude : Option Method) :
    Option Method × Runtime :=
  match rt.ancestry cls with
  | (above, rt) => (rt.firstMethod name exclude (behindOwner above after), rt)

/-- The method `cls` answers `name` with. Plain lookups are cached. -/
def findMethod (rt : Runtime) (cls : Ref) (name : Sym) (after exclude : Option Method) :
    Option Method × Runtime :=
  if after.isSome ∨ exclude.isSome then rt.searchMethod cls name after exclude
  else
    match rt.cache.find? cls name with
    | some answer => (answer, rt)
    | none =>
      match rt.searchMethod cls name none none with
      | (answer, rt) => (answer, { rt with cache := rt.cache.store cls name answer })

def aliasMethod (rt : Runtime) (m : Ref) (newName oldName : Sym) : Except Failure Unit × Runtime :=
  match rt.findMethod m oldName none none with
  | (some method, rt) =>
    let rt := rt.modifyModule m fun mod => { mod with methods := mod.methods.insert newName method }
    (.ok (), { rt with cache := rt.cache.clear })
  | (none, rt) =>
    let message := s!"undefined method `{rt.symName oldName}' for class `{rt.moduleName m}'"
    (.error (.nameError message), rt)

def removeMethod (rt : Runtime) (m : Ref) (name : Sym) : Except Failure Unit × Runtime :=
  match rt.method? m name with
  | some _ =>
    let rt := rt.modifyModule m fun mod => { mod with methods := mod.methods.erase name }
    (.ok (), { rt with cache := rt.cache.clear })
  | none =>
    let message := s!"method `{rt.symName name}' not defined in {rt.moduleName m}"
    (.error (.nameError message), rt)

def methodLabel (rt : Runtime) (m : Method) : String :=
  let name := rt.symName m.name
  match rt.module? m.owner with
  | some { kind := .singleton, attached := some (.cell .module r), .. } =>
    s!"in `{rt.moduleName r}.{name}'"
  | _ => s!"in `{rt.moduleName m.owner}#{name}'"

def failureClass (rt : Runtime) (e : Failure) : Option Ref × Runtime :=
  match rt.intern e.kind.className with
  | (name, rt) => ((rt.const? CoreClass.object.ref name).bind (·.ofKind? .module), rt)

def failureIsA (rt : Runtime) (e : Failure) (m : Ref) : Bool × Runtime :=
  match rt.failureClass e with
  | (some cls, rt) =>
    match rt.ancestry cls with
    | (above, rt) => (m ∈ above, rt)
  | (none, rt) => (false, rt)

end Runtime
end ObjectRuntime
