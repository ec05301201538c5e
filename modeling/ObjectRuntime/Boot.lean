import ObjectRuntime.Builtins

/-! A new runtime: the core classes, the pinned objects, the first includes and
singleton classes, and the builtin methods. Booting runs on the finished heap, so it
collects when the threshold says so. -/

namespace ObjectRuntime

structure Config where
  threshold : Nat := 4096
  ratio : Ratio := .standard
  recursionLimit : Nat := 256
  methodCache : Bool := true
  drainAtShutdown : Bool := false

namespace Runtime

def coreCell (c : CoreClass) : Cell :=
  .module {
    kind := if c.isModule then .module else .cls
    name := some c.name
    superclass := c.parent?.map (·.ref)
    tag := c.tag }

/-- The core classes, then the pinned objects: main, and those for nil, true and false. -/
def firstHeap (config : Config) : Heap :=
  let heap := CoreClass.all.foldl (fun h c => (h.alloc (coreCell c) false).2)
    (.empty config.threshold config.ratio)
  [CoreClass.object, .nilClass, .trueClass, .falseClass].foldl
    (fun h c => (h.alloc (.object { cls := c.ref }) true).2) heap

def bare (config : Config) : Runtime :=
  { heap := firstHeap config
    frames := ⟨#[{ self := .object mainRef, lexicalModule := CoreClass.object.ref }]⟩
    recursionLimit := config.recursionLimit
    symbols := .initial
    cache := { enabled := config.methodCache }
    drains := config.drainAtShutdown }

def coreIncludes : List (CoreClass × CoreClass) :=
  [(.object, .kernel), (.numeric, .comparable), (.string, .comparable), (.array, .enumerable),
   (.hash, .enumerable)]

def defineMain (rt : Runtime) : Runtime :=
  [Sym.inspect, Sym.toS].foldl (fun rt name =>
    match rt.singletonClass (.object mainRef) with
    | (.ok m, rt) => (rt.defineMethod m name (.native (.builtin .mainInspect)) 0).2
    | (.error _, rt) => rt) rt

def defineBuiltin (rt : Runtime) (b : Builtin) : Runtime :=
  match b.signature with
  | (c, name, arity) => (rt.defineMethod c.ref name (.native (.builtin b)) arity).2

def boot (config : Config) : Runtime :=
  let object := CoreClass.object.ref
  let rt := CoreClass.all.foldl (fun rt c => rt.setConst object c.sym (.module c.ref)) (bare config)
  let rt := coreIncludes.foldl (fun rt (m, other) => (rt.includeOnce m.ref other.ref).2) rt
  let (_, rt) := rt.singletonClass (.module CoreClass.klass.ref)
  let (handlers, rt) := rt.alloc (.array CoreClass.array.ref #[])
  let rt := rt.setGlobal .atExitHandlers (.array handlers)
  let rt := Builtin.all.foldl defineBuiltin rt.defineMain
  rt.release 0 none

end Runtime

def CodeRef.code {η : Type} (user : Nat → Code η) : CodeRef → Code η
  | .builtin b => b.code
  | .user n => user n

def Program.run {η α : Type} (user : Nat → Code η) (p : Program η α) (rt : Runtime) (host : η) :
    Run η α :=
  Machine.run (CodeRef.code user) p rt host

end ObjectRuntime
