import ObjectRuntime.Lookup

/-! The primitive steps of a program: every way in which running code changes the
runtime, short of calling. `Action.run` is their meaning. -/

namespace ObjectRuntime

inductive Action : Type → Type
  /- names and reports -/
  | intern (name : String) : Action Sym
  | report (text : String) : Action Unit
  /- allocation -/
  | newArray (cls : Ref) (elements : List Val) : Action Ref
  | newTable (cls : Ref) : Action Ref
  | newString (cls : Ref) (text : String) : Action Ref
  | newFloat (x : Float) : Action Ref
  | newObject (cls : Ref) : Action Ref
  | newProc (proc : Proc) : Action Ref
  | newBound (receiver : Val) (method : Method) : Action Ref
  | newModule : Action Ref
  /- the collector -/
  | collect : Action Nat
  | root (v : Val) : Action UInt32
  | unroot (id : UInt32) : Action (Option Val)
  | hold (v : Val) : Action Unit
  | releaseTopLevel : Action Nat
  | setRatio (ratio : Ratio) : Action Unit
  /- contents -/
  | push (array : Ref) (v : Val) : Action Unit
  | put (array : Ref) (index : Nat) (v : Val) : Action Unit
  | insert (table : Ref) (key v : Val) : Action Unit
  | erase (table : Ref) (key : Val) : Action (Option Val)
  | append (string : Ref) (text : String) : Action Unit
  | setIvar (object : Ref) (name : Sym) (v : Val) : Action Unit
  | setGlobal (name : Sym) (v : Val) : Action Unit
  | eraseGlobal (name : Sym) : Action (Option Val)
  | setLocal (frame depth index : Nat) (v : Val) : Action Bool
  /- the object model -/
  | subclass (sup : Ref) (name : Option String) (tag : Option Tag) : Action (Except Failure Ref)
  | setFinal (m : Ref) (final : Bool) : Action Unit
  | setConst (m : Ref) (name : Sym) (v : Val) : Action Unit
  | findConst (m : Ref) (name : Sym) : Action (Option (Except Failure Val))
  | includeOnce (m other : Ref) : Action (Except Failure Unit)
  | ancestry (m : Ref) : Action (List Ref)
  | singletonClass (v : Val) : Action (Except Failure Ref)
  | isA (v : Val) (m : Ref) : Action Bool
  | failureClass (e : Failure) : Action (Option Ref)
  | failureIsA (e : Failure) (m : Ref) : Action Bool
  /- methods -/
  | defineMethod (m : Ref) (name : Sym) (body : Body) (arity : Int) : Action Method
  | aliasMethod (m : Ref) (newName oldName : Sym) : Action (Except Failure Unit)
  | removeMethod (m : Ref) (name : Sym) : Action (Except Failure Unit)
  | findMethod (cls : Ref) (name : Sym) (after exclude : Option Method) : Action (Option Method)

namespace Action

def run {α : Type} : Action α → Runtime → α × Runtime
  | intern name, rt => rt.intern name
  | report text, rt => ((), { rt with printed := rt.printed ++ text })
  | newArray cls elements, rt => rt.alloc (.array cls elements.toArray)
  | newTable cls, rt => rt.alloc (.table cls {})
  | newString cls text, rt => rt.alloc (.string cls text)
  | newFloat x, rt => rt.alloc (.float x)
  | newObject cls, rt => rt.alloc (.object { cls })
  | newProc proc, rt => rt.alloc (.proc proc)
  | newBound receiver method, rt => rt.alloc (.bound receiver method)
  | newModule, rt => rt.newModule
  | collect, rt =>
    let rt := rt.collect
    (rt.heap.lastFreed, rt)
  | root v, rt =>
    match rt.heap.roots.register v with
    | (id, roots) => (id, { rt with heap := { rt.heap with roots } })
  | unroot id, rt =>
    match rt.heap.roots.unregister id with
    | (v, roots) => (v, { rt with heap := { rt.heap with roots } })
  | hold v, rt => ((), rt.hold v)
  | releaseTopLevel, rt => rt.releaseTopLevel
  | setRatio ratio, rt => ((), { rt with heap := { rt.heap with ratio } })
  | push array v, rt => ((), rt.modifyElements array (·.push v))
  | put array index v, rt => ((), rt.modifyElements array (Frames.putAt · index v))
  | insert table key v, rt => ((), rt.modifyEntries table (·.insert key v))
  | erase table key, rt =>
    ((rt.entries? table).bind (·.get? key), rt.modifyEntries table (·.erase key))
  | append string text, rt => ((), rt.modifyText string (· ++ text))
  | setIvar object name v, rt => ((), rt.setIvar object name v)
  | setGlobal name v, rt => ((), rt.setGlobal name v)
  | eraseGlobal name, rt =>
    (rt.globals.get? name, { rt with globals := rt.globals.erase name })
  | setLocal frame depth index v, rt =>
    match rt.frames.setLocal frame depth index v with
    | (written, frames) => (written, { rt with frames })
  | subclass sup name tag, rt => rt.subclass sup name tag
  | setFinal m final, rt => ((), rt.setFinal m final)
  | setConst m name v, rt => ((), rt.setConst m name v)
  | findConst m name, rt => rt.findConst m name
  | includeOnce m other, rt => rt.includeOnce m other
  | ancestry m, rt => rt.ancestry m
  | singletonClass v, rt => rt.singletonClass v
  | isA v m, rt => rt.isA v m
  | failureClass e, rt => rt.failureClass e
  | failureIsA e m, rt => rt.failureIsA e m
  | defineMethod m name body arity, rt => rt.defineMethod m name body arity
  | aliasMethod m newName oldName, rt => rt.aliasMethod m newName oldName
  | removeMethod m name, rt => rt.removeMethod m name
  | findMethod cls name after exclude, rt => rt.findMethod cls name after exclude

end Action
end ObjectRuntime
