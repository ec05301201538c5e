import ObjectRuntime.Hierarchy

/-! Constants. Each module binds its own; a reference from inside a module searches
the modules around it, then its ancestry, then that of `Object`. -/

namespace ObjectRuntime

namespace Runtime

def constName (rt : Runtime) (m : Ref) (name : Sym) : String :=
  if m = CoreClass.object.ref then rt.symName name else s!"{rt.moduleName m}::{rt.symName name}"

/-- Bind a constant. A module that has no name yet is named after it, and lies in `m`. -/
def setConst (rt : Runtime) (m : Ref) (name : Sym) (v : Val) : Runtime :=
  let rt := match v with
    | .cell .module bound =>
      match rt.module? bound with
      | some { name := none, .. } =>
        let qualified := rt.constName m name
        rt.modifyModule bound fun mod =>
          { mod with name := some qualified, lexicalParent := some m }
      | _ => rt
    | _ => rt
  rt.modifyModule m fun mod => { mod with consts := mod.consts.insert name v }

def fetchConst (rt : Runtime) (m : Ref) (name : Sym) : Except Failure Val :=
  match rt.const? m name with
  | some v => .ok v
  | none => .error (.nameError s!"uninitialized constant {rt.constName m name}")

inductive LexicalSearch
  | found (v : Val)
  | absent
  | endless
deriving DecidableEq

/-- Search `m` and the modules around it. After as many steps as there are slots a module has
come twice, and the search goes round for ever. -/
def searchLexical (rt : Runtime) (name : Sym) : Nat → Ref → LexicalSearch
  | 0, _ => .endless
  | fuel + 1, m =>
    match rt.module? m with
    | none => .absent
    | some mod =>
      match mod.consts.get? name with
      | some v => .found v
      | none =>
        match mod.lexicalParent with
        | some p => rt.searchLexical name fuel p
        | none => .absent

def firstConst (rt : Runtime) (name : Sym) (modules : List Ref) : Option Val :=
  modules.findSome? fun m => rt.const? m name

def searchAncestry (rt : Runtime) (m : Ref) (name : Sym) : Except Failure Val × Runtime :=
  match rt.ancestry m with
  | (above, rt) =>
    match rt.firstConst name above with
    | some v => (.ok v, rt)
    | none =>
      match rt.ancestry CoreClass.object.ref with
      | (above, rt) =>
        match rt.firstConst name above with
        | some v => (.ok v, rt)
        | none => (.error (.nameError s!"uninitialized constant {rt.symName name}"), rt)

/-- Resolve a constant from inside `m`; nothing when the search has no end. -/
def findConst (rt : Runtime) (m : Ref) (name : Sym) : Option (Except Failure Val) × Runtime :=
  match rt.searchLexical name (rt.heap.slots.size + 1) m with
  | .found v => (some (.ok v), rt)
  | .endless => (none, rt)
  | .absent =>
    match rt.searchAncestry m name with
    | (answer, rt) => (some answer, rt)

end Runtime
end ObjectRuntime
