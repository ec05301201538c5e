import ObjectRuntime.Inspect
import ObjectRuntime.Proofs.Dangling

/-! Inspection. The text of a value is described by the containers it stands in, with no bound
on their depth: a container met again inside itself is cut short, and one that stands beside
itself is shown twice. Every value that leads to no dangling handle has one such text. -/

namespace ObjectRuntime.Runtime

/-- The text that shows a value inside of the arrays and tables `around` it. Every cell that it is
read from is there. -/
inductive Renders (rt : Runtime) : List Ref → Val → String → Prop
  | nil (around : List Ref) : Renders rt around .nil "nil"
  | bool (around : List Ref) (b : Bool) : Renders rt around (.bool b) (toString b)
  | int (around : List Ref) (n : Int64) : Renders rt around (.int n) (toString n.toInt)
  | sym (around : List Ref) (s : Sym) : Renders rt around (.sym s) (":" ++ rt.symName s)
  | object (around : List Ref) {r : Ref} {o : Object} :
      rt.heap.cell? r = some (.object o) → rt.heap.Holds (.module o.cls) →
      Renders rt around (.object r) s!"#<{rt.moduleName o.cls}:0x{hex 16 r.index}>"
  | module (around : List Ref) {r : Ref} :
      rt.heap.Holds (.module r) → Renders rt around (.module r) (rt.moduleName r)
  | string (around : List Ref) {r cls : Ref} {text : String} :
      rt.heap.cell? r = some (.string cls text) → Renders rt around (.string r) (quote text)
  | float (around : List Ref) {r : Ref} {x : Float} :
      rt.heap.cell? r = some (.float x) → Renders rt around (.float r) (floatText x)
  | proc (around : List Ref) {r : Ref} {p : Proc} : rt.heap.cell? r = some (.proc p) →
      Renders rt around (.proc r)
        (s!"#<Proc:0x{hex 16 r.index}" ++ (if p.lambda then " (lambda)>" else ">"))
  | bound (around : List Ref) {r : Ref} {receiver : Val} {m : Method} :
      rt.heap.cell? r = some (.bound receiver m) → rt.heap.Holds (.module m.owner) →
      Renders rt around (.bound r) s!"#<Method: {rt.moduleName m.owner}#{rt.symName m.name}(*)>"
  | cutArray {around : List Ref} {r : Ref} : r ∈ around → Renders rt around (.array r) "[...]"
  | array {around : List Ref} {r cls : Ref} {elements : Array Val} (text : Val → String) :
      r ∉ around → rt.heap.cell? r = some (.array cls elements) →
      (∀ v ∈ elements.toList, Renders rt (r :: around) v (text v)) →
      Renders rt around (.array r) ("[" ++ commaList (elements.toList.map text) ++ "]")
  | cutTable {around : List Ref} {r : Ref} :
      r ∈ around → Renders rt around (.table r) "\x7b...\x7d"
  | table {around : List Ref} {r cls : Ref} {entries : Table Val Val} (text : Val → String) :
      r ∉ around → rt.heap.cell? r = some (.table cls entries) →
      (∀ e ∈ entries.entries, Renders rt (r :: around) e.1 (text e.1)) →
      (∀ e ∈ entries.entries, Renders rt (r :: around) e.2 (text e.2)) →
      Renders rt around (.table r) ("\x7b" ++
        commaList (entries.entries.map fun e => text e.1 ++ "=>" ++ text e.2) ++ "\x7d")

/-- No handle that the value leads to is without its cell. -/
def Whole (rt : Runtime) (v : Val) : Prop :=
  ∀ w, Heap.Reached rt.frames rt.heap [v] w → rt.heap.Holds w

/-- The containers around a value: arrays and tables that are there, none of them twice. -/
structure Enclosing (rt : Runtime) (around : List Ref) : Prop where
  nodup : around.Nodup
  containers : ∀ r ∈ around, rt.heap.Holds (.array r) ∨ rt.heap.Holds (.table r)

variable {rt : Runtime} {around : List Ref} {v : Val} {text text' : String} {r : Ref} {c : Cell}

/-! ## What is whole -/

theorem Whole.holds (whole : rt.Whole v) : rt.heap.Holds v := whole v (.start (by simp))

theorem Whole.child {k : Kind} (whole : rt.Whole (.cell k r)) (found : rt.heap.cell? r = some c)
    (held : v ∈ c.children rt.frames) : rt.Whole v := by
  intro w reached
  refine whole w ?_
  induction reached with
  | start member =>
    rw [List.mem_singleton.mp member]
    exact .child (k := k) (.start (by simp)) found held
  | child _ found' held' ih => exact .child ih found' held'

/-- In a sound runtime every value that is there is whole. -/
theorem Sound.whole (sound : rt.Sound) (held : rt.heap.Holds v) : rt.Whole v := by
  intro w reached
  induction reached with
  | start member => exact List.mem_singleton.mp member ▸ held
  | child _ found held' _ => exact sound.cells _ _ found _ held'

/-! ## The containers around a value -/

theorem enclosing_nil (rt : Runtime) : rt.Enclosing [] := ⟨List.nodup_nil, by simp⟩

theorem Enclosing.cons (enclosing : rt.Enclosing around) (apart : r ∉ around)
    (container : rt.heap.Holds (.array r) ∨ rt.heap.Holds (.table r)) :
    rt.Enclosing (r :: around) := by
  refine ⟨List.nodup_cons.mpr ⟨apart, enclosing.nodup⟩, fun r' member => ?_⟩
  rcases List.mem_cons.mp member with rfl | outer
  · exact container
  · exact enclosing.containers r' outer

theorem Enclosing.length_le (enclosing : rt.Enclosing around) :
    around.length ≤ rt.heap.slots.size := by
  refine Heap.length_le_of_isLive enclosing.nodup fun r member => ?_
  rcases enclosing.containers r member with array | table
  · exact Heap.isLive_of_holds array
  · exact Heap.isLive_of_holds table

theorem Enclosing.length_lt (enclosing : rt.Enclosing around) (outside : r ∉ around)
    (container : rt.heap.Holds (.array r) ∨ rt.heap.Holds (.table r)) :
    around.length < rt.heap.slots.size := by
  have bound := (enclosing.cons outside container).length_le
  rwa [List.length_cons] at bound

/-- What stands around a value is known to be an array or a table by its cell. -/
theorem Enclosing.kind {k : Kind} (enclosing : rt.Enclosing around) (inside : r ∈ around)
    (held : rt.heap.Holds (.cell k r)) : k = .array ∨ k = .table := by
  obtain ⟨c, found, rfl⟩ := held
  rcases enclosing.containers r inside with ⟨c', found', array⟩ | ⟨c', found', table⟩
  · rw [found] at found'
    cases found'
    exact .inl array
  · rw [found] at found'
    cases found'
    exact .inr table

/-! ## The text -/

/-- A value has at most one text. -/
theorem Renders.unique (renders : Renders rt around v text) (renders' : Renders rt around v text') :
    text = text' := by
  induction renders generalizing text' with
  | nil | bool | int | sym | module => cases renders'; rfl
  | object _ found | string _ found | float _ found | proc _ found | bound _ found =>
    cases renders'
    next found' => cases found.symm.trans found'; rfl
  | cutArray inside | cutTable inside =>
    cases renders' <;> first | rfl | contradiction
  | array texts outside found _ ih =>
    cases renders' with
    | cutArray inside => exact absurd inside outside
    | array texts' _ found' each' =>
      cases found.symm.trans found'
      rw [List.map_congr_left fun v member => ih v member (each' v member)]
  | table texts outside found _ _ ihKeys ihValues =>
    cases renders' with
    | cutTable inside => exact absurd inside outside
    | table texts' _ found' keys' values' =>
      cases found.symm.trans found'
      rw [List.map_congr_left fun e member => ?_]
      rw [ihKeys e member (keys' e member), ihValues e member (values' e member)]

/-- What is read with enough fuel is the text. The fuel is never spent: the containers around a
value are distinct live cells. -/
theorem renders_inspectWithin {fuel : Nat} (whole : rt.Whole v) (enclosing : rt.Enclosing around)
    (enough : rt.heap.slots.size < around.length + fuel) :
    Renders rt around v (rt.inspectWithin fuel around v) := by
  induction fuel using Nat.strongRecOn generalizing around v with
  | ind fuel ih =>
    fun_cases inspectWithin rt fuel around v with
    | case1 => exact .nil around
    | case2 _ _ b => exact .bool around b
    | case3 _ _ n => exact .int around n
    | case4 _ _ s => exact .sym around s
    | case5 _ _ r inside => exact .cutTable inside
    | case6 _ _ kind r inside other =>
      rcases enclosing.kind inside whole.holds with rfl | rfl
      · exact .cutArray inside
      · exact absurd rfl other
    | case7 _ _ r outside o found =>
      exact .object around found (whole.child found (by simp [Cell.children])).holds
    | case8 _ _ r outside => exact .module around whole.holds
    | case9 _ r outside cls elements found =>
      have bound := enclosing.length_lt outside (.inl whole.holds)
      omega
    | case10 _ r outside cls elements found fuel =>
      refine .array (rt.inspectWithin fuel (r :: around)) outside found fun v member => ?_
      refine ih fuel (by omega) (whole.child found ?_) (enclosing.cons outside (.inl whole.holds)) ?_
      · simpa [Cell.children] using .inr (Array.mem_toList_iff.mp member)
      · simp only [List.length_cons]
        omega
    | case11 _ r outside cls entries found =>
      have bound := enclosing.length_lt outside (.inr whole.holds)
      omega
    | case12 _ r outside cls entries found fuel =>
      have deeper (v : Val) (held : v ∈ (Cell.table cls entries).children rt.frames) :
          Renders rt (r :: around) v (rt.inspectWithin fuel (r :: around) v) := by
        refine ih fuel (by omega) (whole.child found held)
          (enclosing.cons outside (.inr whole.holds)) ?_
        simp only [List.length_cons]
        omega
      refine .table (rt.inspectWithin fuel (r :: around)) outside found
        (fun e member => deeper e.1 ?_) fun e member => deeper e.2 ?_
      · simp only [Cell.children, List.mem_cons, List.mem_flatMap]
        exact .inr ⟨e, member, by simp⟩
      · simp only [Cell.children, List.mem_cons, List.mem_flatMap]
        exact .inr ⟨e, member, by simp⟩
    | case13 _ _ r outside cls text found => exact .string around found
    | case14 _ _ r outside x found => exact .float around found
    | case15 _ _ r outside p found => exact .proc around found
    | case16 _ _ r outside receiver m found =>
      exact .bound around found (whole.child found (by simp [Cell.children, Method.children])).holds
    | case17 _ _ kind r outside =>
      obtain ⟨c, found, rfl⟩ := whole.holds
      cases c <;> simp_all [Cell.kind]

/-- The text of a value, whatever it leads to and however it leads back to itself, shows the
containers around each place and cuts short exactly these. No bound on the depth is ever met. -/
theorem defaultInspect_spec (whole : rt.Whole v) :
    (∀ text, Renders rt [] v text ↔ rt.defaultInspect v = text) ∧
      ∀ fuel, rt.heap.slots.size < fuel → rt.inspectWithin fuel [] v = rt.defaultInspect v := by
  have shown {fuel : Nat} (enough : rt.heap.slots.size < fuel) :
      Renders rt [] v (rt.inspectWithin fuel [] v) :=
    renders_inspectWithin whole (enclosing_nil rt) (by simpa using enough)
  have shown' : Renders rt [] v (rt.defaultInspect v) := shown (Nat.lt_succ_self _)
  constructor
  · intro text
    constructor
    · intro renders
      exact shown'.unique renders
    · rintro rfl
      exact shown'
  · intro fuel enough
    exact (shown enough).unique shown'

/-- An array that holds a table twice, and the table, which holds itself with the array as the key. -/
def knotting : List Move :=
  [.act (.newArray CoreClass.array.ref []), .act (.newTable CoreClass.hash.ref),
   .act (.insert ⟨39, 0⟩ (.array ⟨38, 0⟩) (.table ⟨39, 0⟩)),
   .act (.push ⟨38, 0⟩ (.table ⟨39, 0⟩)), .act (.push ⟨38, 0⟩ (.table ⟨39, 0⟩))]

theorem permits_knotting : (boot {}).PermitsRun knotting := by
  refine ⟨.of_roots (List.forall_mem_singleton.mpr (.core .array (by decide))) rfl,
    .of_roots (List.forall_mem_singleton.mpr (.core .hash (by decide))) rfl,
    .of_roots (fun v member => .handle ?_) rfl, .of_roots (fun v member => .handle ?_) rfl,
    .of_roots (fun v member => .handle ?_) rfl, trivial⟩
  all_goals
    revert v
    decide +kernel

theorem renders_knotting : ((boot {}).after knotting).Whole (.array ⟨38, 0⟩) ∧
    Renders ((boot {}).after knotting) [] (.array ⟨38, 0⟩)
      "[\x7b[...]=>\x7b...\x7d\x7d, \x7b[...]=>\x7b...\x7d\x7d]" := by
  have whole : ((boot {}).after knotting).Whole (.array ⟨38, 0⟩) :=
    ((intact_boot {}).after permits_knotting).sound.whole (by decide +kernel)
  exact ⟨whole, ((defaultInspect_spec whole).1 _).mpr (by decide +kernel)⟩

end ObjectRuntime.Runtime
