import ObjectRuntime.Dispatch

/-! Programs that define: classes and modules under a name, methods of single objects,
and the state of objects. -/

namespace ObjectRuntime.Program
variable {η : Type}

def defineClass (outer : Ref) (name : String) (sup : Ref) : Program η Ref := do
  let cls ← demand (.subclass sup none none)
  perform (.setConst outer (← perform (.intern name)) (.module cls))
  return cls

def defineModule (name : String) : Program η Ref := do
  let m ← perform .newModule
  perform (.setConst CoreClass.object.ref (← perform (.intern name)) (.module m))
  return m

def defineSingletonMethod (v : Val) (name : Sym) (body : Body) (arity : Int) :
    Program η Method := do
  let m ← demand (.singletonClass v)
  perform (.defineMethod m name body arity)

/-- Resolve a constant from inside `m`. A search that goes round never answers. -/
def findConst (m : Ref) (name : Sym) : Program η Val :=
  act (.findConst m name) fun
    | some answer => ofExcept answer
    | none => endless

def setIvar (v : Val) (name : Sym) (item : Val) : Program η Unit := do
  let owner ← ofExcept (Runtime.ivarOwner v)
  perform (.setIvar owner name item)

end ObjectRuntime.Program
