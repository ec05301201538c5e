import ObjectRuntime.Runtime

/-! The text of values. Inspection shows contents and never calls a method; an array
or table met again inside itself is cut short. Debug text shows handles. -/

namespace ObjectRuntime

namespace Runtime

def commaList (texts : List String) : String := ", ".intercalate texts

def inspectWithin (rt : Runtime) : Nat → List Ref → Val → String
  | _, _, .nil => "nil"
  | _, _, .bool b => toString b
  | _, _, .int n => toString n.toInt
  | _, _, .sym s => ":" ++ rt.symName s
  | fuel, seen, .cell kind r =>
    if r ∈ seen then (if kind = .table then "\x7b...\x7d" else "[...]")
    else
      match kind, rt.heap.cell? r with
      | .object, some (.object o) => s!"#<{rt.moduleName o.cls}:0x{hex 16 r.index}>"
      | .module, _ => rt.moduleName r
      | .array, some (.array _ elements) =>
        match fuel with
        | 0 => "[...]"
        | fuel + 1 =>
          "[" ++ commaList (elements.toList.map (rt.inspectWithin fuel (r :: seen))) ++ "]"
      | .table, some (.table _ entries) =>
        match fuel with
        | 0 => "\x7b...\x7d"
        | fuel + 1 =>
          let item := rt.inspectWithin fuel (r :: seen)
          "\x7b" ++ commaList (entries.entries.map fun e => item e.1 ++ "=>" ++ item e.2) ++ "\x7d"
      | .string, some (.string _ text) => quote text
      | .float, some (.float x) => floatText x
      | .proc, some (.proc p) =>
        s!"#<Proc:0x{hex 16 r.index}" ++ (if p.lambda then " (lambda)>" else ">")
      | .bound, some (.bound _ m) =>
        s!"#<Method: {rt.moduleName m.owner}#{rt.symName m.name}(*)>"
      | _, _ => ""

/-- The representation every value has. The arrays and tables around a value are distinct live
cells, so there are never more of them than slots. -/
def defaultInspect (rt : Runtime) (v : Val) : String :=
  rt.inspectWithin (rt.heap.slots.size + 1) [] v

end Runtime

/-! ## Debug text -/

def Ref.debug (r : Ref) (cellName : String) : String :=
  s!"Gc<{cellName}>({r.index}#{r.generation})"

def Val.debug (rt : Runtime) : Val → String
  | .nil => "nil"
  | .bool b => toString b
  | .int n => toString n.toInt
  | .sym s => ":" ++ rt.symName s
  | .cell kind r => s!"{kind.label}({r.debug kind.cellName})"

def Method.debug (rt : Runtime) (m : Method) : String :=
  "Method \x7b name: Sym(" ++ rt.symName m.name ++ "), owner: " ++ m.owner.debug "Module" ++
    ", arity: " ++ toString m.arity ++ " \x7d"

def Body.debug : Body → String
  | .native _ => "MethodBody::Native"
  | .closure _ => "MethodBody::Closure"
  | .proc p => s!"MethodBody::Proc({p.debug Kind.proc.cellName})"

end ObjectRuntime
