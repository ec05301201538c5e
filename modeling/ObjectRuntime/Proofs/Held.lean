import ObjectRuntime.Proofs.Sends
import ObjectRuntime.Proofs.Supers
import ObjectRuntime.Proofs.Variables

/-! Held methods. Whoever holds a method, a method object that is reached or a frame of a running
call, can go on with it as it was, whatever becomes of the table that it was installed in. Messages
see the tables as they are. -/

namespace ObjectRuntime

namespace Frames
variable {fs fs' : Frames} {i : Nat} {f : Frame} {m : Method}

theorem currentMethod_eq (nested : fs.Nested) (slot : fs.store[i]? = some f) :
    fs.currentMethod i = f.method.or (f.parent.bind fs.currentMethod) := by
  rw [currentMethod, chain_eq nested slot, List.findSome?_cons]
  cases f.method with
  | some m => rfl
  | none => cases f.parent <;> rfl

theorem currentMethod_of_none (slot : fs.store[i]? = none) : fs.currentMethod i = none := by
  rw [currentMethod, chain_of_none slot]
  rfl

/-- The frame that the running method is found in. -/
theorem exists_of_currentMethod (nested : fs.Nested) (running : fs.currentMethod i = some m) :
    ∃ j f, fs.Encloses i j ∧ fs.store[j]? = some f ∧ f.method = some m := by
  induction i using Nat.strongRecOn with
  | ind i ih =>
    cases slot : fs.store[i]? with
    | none =>
      rw [currentMethod_of_none slot] at running
      cases running
    | some f =>
      rw [currentMethod_eq nested slot] at running
      cases method : f.method with
      | some own =>
        rw [method] at running
        cases running
        exact ⟨i, f, .here i, slot, method⟩
      | none =>
        rw [method, Option.none_or] at running
        obtain ⟨p, parent, running⟩ := Option.bind_eq_some_iff.mp running
        obtain ⟨j, g, encloses, found, runs⟩ := ih p (nested i p f slot parent) running
        exact ⟨j, g, .outer slot parent encloses, found, runs⟩

/-- A frame runs the method that it was made for. -/
theorem currentMethod_mono (nested : fs.Nested) (nested' : fs'.Nested)
    (outlines : ∀ (i : Nat) (f : Frame), fs.store[i]? = some f →
      ∃ f', fs'.store[i]? = some f' ∧ f'.outline = f.outline)
    (running : fs.currentMethod i = some m) : fs'.currentMethod i = some m := by
  induction i using Nat.strongRecOn with
  | ind i ih =>
    cases slot : fs.store[i]? with
    | none =>
      rw [currentMethod_of_none slot] at running
      cases running
    | some f =>
      obtain ⟨f', slot', same⟩ := outlines i f slot
      rw [currentMethod_eq nested slot] at running
      rw [currentMethod_eq nested' slot', Frame.of_outline same (·.method),
        Frame.of_outline same (·.parent)]
      cases own : f.method with
      | some own' =>
        rw [own] at running
        exact running
      | none =>
        rw [own, Option.none_or] at running
        obtain ⟨p, outer, running⟩ := Option.bind_eq_some_iff.mp running
        rw [Option.none_or, outer]
        exact ih p (nested i p f slot outer) running

end Frames

/-- How a super call ends that finds no method. -/
def Program.lacksSuper {η : Type} (m : Method) (self : Val) : Program η Val := do
  let name ← asks (·.symName m.name)
  let text ← inspectText self
  fail (.noMethodError s!"super: no superclass method `{name}' for {text}")

namespace Machine
variable {η : Type}

/-- A call runs the program in the frame that it opens, and when that has ended it is closed with its
outcome. At the recursion limit it is refused. -/
structure CallRuns (code : CodeRef → Code η) (rt : Runtime) (c : Call) (p : Program η Val) : Prop where
  refused : (rt.openFrame c).2.atLimit = true → ∀ budget unwinding host,
    call code budget unwinding c rt host =
      .ended ((rt.openFrame c).2.refuseCall c rt.handles.size).1
        ((rt.openFrame c).2.refuseCall c rt.handles.size).2 host
  entered : (rt.openFrame c).2.atLimit = false → ∀ budget unwinding host,
    call code (budget + 1) unwinding c rt host =
      (step (call code budget) unwinding p ((rt.openFrame c).2.pushCall (rt.openFrame c).1) host).andThen
        fun outcome left host =>
          .ended (left.closeCall c rt.handles.size outcome).1
            (left.closeCall c rt.handles.size outcome).2 host

theorem callRuns_body (code : CodeRef → Code η) (rt : Runtime) (c : Call) :
    CallRuns code rt c (body code (rt.openFrame c).2 (rt.openFrame c).1 c) where
  refused full _ _ _ := call_full full
  entered room _ _ _ := call_room room

end Machine

namespace Runtime

/-- A method object that is reached, or a frame that a running call runs or nests in, has the
method. -/
inductive Held (rt : Runtime) (m : Method) : Prop
  | object {r : Ref} {receiver : Val} : rt.Reaches (.bound r) →
      rt.bound? r = some (receiver, m) → Held rt m
  | frame {i j : Nat} {f : Frame} : i ∈ rt.calls → rt.frames.Encloses i j →
      rt.frames.store[j]? = some f → f.method = some m → Held rt m

/-- The owner of the method is there, and so is the proc that it runs, with all that the frames
hold which the proc has captured. -/
structure HoldsMethod (rt : Runtime) (m : Method) : Prop where
  owner : rt.heap.Holds (.module m.owner)
  captured : ∀ p, m.body = .proc p → ∃ q, rt.proc? p = some q ∧
    ∀ v ∈ rt.frames.values q.frame, rt.heap.Holds v

/-- Calling the method object calls its method on its receiver. The call runs the method's own code,
with the number of arguments checked against its own arity, in a frame nested in what it always was,
and there the method is the running one. -/
structure StillCalls (before rt : Runtime) (r : Ref) (receiver : Val) (m : Method) : Prop where
  bound : rt.bound? r = some (receiver, m)
  live : rt.heap.Holds receiver
  holds : rt.HoldsMethod m
  calls : ∀ {η : Type} (caller : Machine.Caller η) unwinding args block host,
    Machine.step caller unwinding (Program.callValue (.bound r) args block) rt host =
      Machine.step caller unwinding (Program.invoke (.method m receiver args block)) rt host
  runs : ∀ args block, ∃ ref, before.callCode (.method m receiver args block) = some ref ∧
    ∀ {η : Type} (code : CodeRef → Code η),
      let (frame, opened) := rt.openFrame (.method m receiver args block)
      let own : Program η Val :=
        match arityFailure m.arity args.length with
        | some e => .fail e
        | none => code ref ⟨frame, receiver, args, block⟩
      Machine.body code opened frame (.method m receiver args block) = own ∧
        Machine.CallRuns code rt (.method m receiver args block) own
  frame : ∀ args block,
    let c := Call.method m receiver args block
    (rt.callFrame c).parent = (before.callFrame c).parent ∧
      (rt.openFrame c).2.frames.currentMethod (rt.openFrame c).1 = some m

variable {rt rt' : Runtime} {m : Method} {r : Ref}

theorem bound?_eq_some (rt : Runtime) (r : Ref) (receiver : Val) (m : Method) :
    rt.bound? r = some (receiver, m) ↔ rt.heap.cell? r = some (.bound receiver m) := by
  unfold bound?
  split
  next receiver' m' found => simp [found]
  next other =>
    simp only [reduceCtorEq, false_iff]
    exact other receiver m

theorem mem_children_owner (m : Method) : .module m.owner ∈ m.children := List.mem_cons_self ..

theorem mem_children_proc {p : Ref} (body : m.body = .proc p) : .proc p ∈ m.children := by
  simp [Method.children, body]

/-- A method that is kept is reached with all that it needs. -/
theorem Held.reaches (held : rt.Held m) (nested : rt.frames.Nested) {v : Val}
    (child : v ∈ m.children) : rt.Reaches v := by
  cases held with
  | object reached found =>
    exact .child reached ((bound?_eq_some ..).mp found) (List.mem_cons_of_mem _ child)
  | frame running encloses slot method =>
    refine (Root.running running ((Frames.mem_values_iff nested _ v).mpr
      ⟨_, _, encloses, slot, ?_⟩)).reaches
    simp [Frame.values, method, child]

theorem Sound.holdsMethod (sound : rt.Sound) (held : rt.Held m) : rt.HoldsMethod m where
  owner := sound.holds (held.reaches sound.nested (mem_children_owner m))
  captured p body := by
    obtain ⟨c, found, kind⟩ := sound.holds (held.reaches sound.nested (mem_children_proc body))
    cases c with
    | proc q => exact ⟨q, (proc?_eq_some ..).mpr found, sound.cells p _ found⟩
    | _ => cases kind

/-! ## Calling a method object -/

theorem callValue_bound {η : Type} {receiver : Val} (bound : rt.bound? r = some (receiver, m))
    (caller : Machine.Caller η) (unwinding : Bool) (args : List Val) (block : Option Val) (host : η) :
    Machine.step caller unwinding (Program.callValue (.bound r) args block) rt host =
      Machine.step caller unwinding (Program.invoke (.method m receiver args block)) rt host := by
  rw [Program.callValue, Machine.step_asks, bound]
  rfl

/-- The code of a method, and the frame that its calls nest in. -/
theorem method_code (holds : rt.HoldsMethod m)
    (same : ∀ p q, m.body = .proc p → rt.proc? p = some q → rt'.proc? p = some q)
    (receiver : Val) (args : List Val) (block : Option Val) :
    let c := Call.method m receiver args block
    (∃ ref, rt.callCode c = some ref ∧ rt'.callCode c = some ref) ∧
      (rt'.callFrame c).parent = (rt.callFrame c).parent := by
  cases body : m.body with
  | native code => simp [callCode, callFrame, body]
  | closure code => simp [callCode, callFrame, body]
  | proc p =>
    obtain ⟨q, found, -⟩ := holds.captured p body
    simp [callCode, callFrame, body, found, same p q body found]

theorem callFrame_method (rt : Runtime) (m : Method) (receiver : Val) (args : List Val)
    (block : Option Val) :
    let f := rt.callFrame (.method m receiver args block)
    f.method = some m ∧ f.self = receiver ∧ f.args = args ∧ f.block = block := by
  cases body : m.body <;> simp [callFrame, body]

theorem body_method {η : Type} (code : CodeRef → Code η) {receiver : Val} {args : List Val}
    {block : Option Val} {ref : CodeRef}
    (found : rt.callCode (.method m receiver args block) = some ref) :
    let (frame, opened) := rt.openFrame (.method m receiver args block)
    Machine.body code opened frame (.method m receiver args block) =
      match arityFailure m.arity args.length with
      | some e => .fail e
      | none => code ref ⟨frame, receiver, args, block⟩ := by
  obtain ⟨-, self, own, given⟩ := callFrame_method rt m receiver args block
  have found' : (rt.openFrame (.method m receiver args block)).2.callCode
      (.method m receiver args block) = some ref := found
  simp only [Machine.body, callFailure, found']
  cases arityFailure m.arity args.length with
  | some e => rfl
  | none => simp only [Array.getD_eq_getD_getElem?, slot_openFrame, Option.getD_some, self, own, given]

theorem currentMethod_openFrame (framed : rt.Framed) (receiver : Val) (args : List Val)
    (block : Option Val) :
    let c := Call.method m receiver args block
    (rt.openFrame c).2.frames.currentMethod (rt.openFrame c).1 = some m := by
  intro c
  have nested := Frames.nested_push framed.nested (f := rt.callFrame c) fun _ => framed.parent_lt
  refine (Frames.currentMethod_eq nested (rt.slot_openFrame c)).trans ?_
  rw [(callFrame_method rt m receiver args block).1]
  rfl

/-- As long as it is reached, a method object keeps its receiver and its method. -/
theorem bound_after (wf : rt.heap.WellFormed) {moves : List Move} {receiver : Val}
    (reached : ∀ l ≤ moves.length, (rt.after (moves.take l)).Reaches (.bound r))
    (found : rt.bound? r = some (receiver, m)) {l : Nat} (le : l ≤ moves.length) :
    (rt.after (moves.take l)).bound? r = some (receiver, m) := by
  refine (bound?_eq_some ..).mpr (fixed_after (k := .bound) wf (fun k below => ?_)
    ((bound?_eq_some ..).mp found) rfl)
  rw [List.length_take] at below
  rw [List.take_take]
  exact reached _ (by omega)

theorem stillCalls_after (intact : rt.Intact) {moves : List Move} (permitted : rt.PermitsRun moves)
    {receiver : Val} (reached : ∀ l ≤ moves.length, (rt.after (moves.take l)).Reaches (.bound r))
    (found : rt.bound? r = some (receiver, m)) : StillCalls rt (rt.after moves) r receiver m := by
  have wf := intact.sound.heap
  have sound := (intact.after permitted).sound
  have held (l : Nat) (le : l ≤ moves.length) : (rt.after (moves.take l)).Held m :=
    .object (reached l le) (bound_after wf reached found le)
  have last : (rt.after moves).Reaches (.bound r) := by simpa using reached moves.length le_rfl
  have bound' : (rt.after moves).bound? r = some (receiver, m) := by
    simpa using bound_after wf reached found le_rfl
  have holds := intact.sound.holdsMethod (held 0 (Nat.zero_le _))
  have same (p : Ref) (q : Proc) (body : m.body = .proc p) (found : rt.proc? p = some q) :
      (rt.after moves).proc? p = some q := by
    refine (proc?_eq_some ..).mpr (fixed_after (k := .proc) wf (fun l below => ?_)
      ((proc?_eq_some ..).mp found) rfl)
    have nested := (intact.after (permitted.take l)).sound.nested
    exact (held l below.le).reaches nested (mem_children_proc body)
  exact {
    bound := bound'
    live := sound.holds (.child last ((bound?_eq_some ..).mp bound') (List.mem_cons_self ..))
    holds := sound.holdsMethod (.object last bound')
    calls := callValue_bound bound'
    runs := fun args block => by
      obtain ⟨⟨ref, before, after⟩, -⟩ := method_code holds same receiver args block
      refine ⟨ref, before, fun code => ⟨body_method code after, ?_⟩⟩
      exact body_method code after ▸ Machine.callRuns_body code _ _
    frame := fun args block =>
      ⟨(method_code holds same receiver args block).2,
        currentMethod_openFrame sound.framed receiver args block⟩ }

/-! ## Super and other messages -/

/-- Super finds the first entry behind the owner of the running method, by the tables as they are. -/
def SupersBehind (rt : Runtime) (frame : Nat) (self : Val) (m : Method) : Prop :=
  ∃ above left, Linear rt.parents (rt.classOf self) above ∧ left.forget = rt.forget ∧
    ∀ {η : Type} (caller : Machine.Caller η) unwinding args block host,
      Machine.step caller unwinding (Program.superSend frame self args block) rt host =
        Machine.step caller unwinding
          (match rt.firstEntry m.name none (behind m.owner above) with
            | some next => Program.callMethod next self args block
            | none => Program.lacksSuper m self) left host

/-- A message finds the first entry of the tables as they are. -/
def FindsByTables (rt : Runtime) (v : Val) (name : Sym) : Prop :=
  ∃ above left, Linear rt.parents (rt.classOf v) above ∧ left.forget = rt.forget ∧
    ∀ {η α : Type} (caller : Machine.Caller η) unwinding (next : Option Method → Program η α) host,
      Machine.step caller unwinding (Program.findFor v name >>= next) rt host =
        Machine.step caller unwinding (next (rt.firstEntry name none above)) left host

theorem Intact.supersBehind (intact : rt.Intact) {frame : Nat} {self : Val}
    (running : rt.frames.currentMethod frame = some m) (live : rt.heap.Holds self) :
    rt.SupersBehind frame self m := by
  obtain ⟨⟨above, linear, answer⟩, same, -⟩ := findMethod_spec intact.sound intact.faithful
    (intact.sound.holds_classOf live) m.name (some m) none
  refine ⟨above, _, linear, same, fun caller unwinding args block host => ?_⟩
  rw [Program.superSend, Machine.step_asks, running]
  simp only [plainSearch] at answer
  rw [← answer]
  simp only [Machine.step_asks, Machine.step_perform]
  rfl

theorem Intact.findsByTables (intact : rt.Intact) {v : Val} (live : rt.heap.Holds v) (name : Sym) :
    rt.FindsByTables v name := by
  obtain ⟨⟨above, linear, answer⟩, same, -⟩ := findMethod_spec intact.sound intact.faithful
    (intact.sound.holds_classOf live) name none none
  refine ⟨above, _, linear, same, fun caller unwinding next host => ?_⟩
  rw [Machine.step_findFor, answer]
  rfl

/-! ## Runs -/

theorem PermitsRun.drop {moves : List Move} (permitted : rt.PermitsRun moves) (n : Nat) :
    (rt.after (moves.take n)).PermitsRun (moves.drop n) := by
  induction moves generalizing rt n with
  | nil =>
    rw [List.take_nil, List.drop_nil]
    trivial
  | cons move rest ih =>
    cases n with
    | zero => exact permitted
    | succ n => exact ih permitted.2 n

/-- In every run whose moves are given nothing but what is reached, a method that is held is there
with all that it needs. A method object that stays reached calls the method that it always had, and a
running frame keeps the method that it runs, whatever is done to the tables in between; super goes on
behind the owner of that method, and every message finds what the tables hold by then. -/
theorem held_methods_survive (config : Config) (moves : List Move)
    (permitted : (boot config).PermitsRun moves) :
    let rt (n : Nat) := (boot config).after (moves.take n)
    (∀ n m, (rt n).Held m → (rt n).HoldsMethod m) ∧
    (∀ n n' r receiver m, n ≤ n' → (∀ l, n ≤ l → l ≤ n' → (rt l).Reaches (.bound r)) →
      (rt n).bound? r = some (receiver, m) → StillCalls (rt n) (rt n') r receiver m) ∧
    (∀ n n' i m, n ≤ n' → (rt n).frames.currentMethod i = some m →
      (rt n').frames.currentMethod i = some m ∧ (i ∈ (rt n').calls → (rt n').Held m)) ∧
    (∀ n frame self m, (rt n).frames.currentMethod frame = some m → (rt n).heap.Holds self →
      (rt n).SupersBehind frame self m) ∧
    ∀ n v name, (rt n).heap.Holds v → (rt n).FindsByTables v name := by
  intro rt
  have intact (n : Nat) : (rt n).Intact := (intact_boot config).after (permitted.take n)
  have along {n n' : Nat} (le : n ≤ n') : rt n' = (rt n).after ((moves.take n').drop n) :=
    (after_drop le (boot config) moves).symm
  refine ⟨fun n m held => (intact n).sound.holdsMethod held,
    fun n n' r receiver m le reached found => ?_, fun n n' i m le running => ?_,
    fun n frame self m running live => (intact n).supersBehind running live,
    fun n v name live => (intact n).findsByTables live name⟩
  · have later : (rt n).PermitsRun ((moves.take n').drop n) := by
      have whole := (permitted.take n').drop n
      rwa [List.take_take, min_eq_left le] at whole
    refine along le ▸ stillCalls_after (intact n) later (fun l below => ?_) found
    rw [List.length_drop, List.length_take] at below
    have within : n + l ≤ n' := by omega
    rw [show rt n = (boot config).after (moves.take n) from rfl, after_drop_take within]
    exact reached (n + l) (Nat.le_add_right n l) within
  · have kept : (rt n').frames.currentMethod i = some m :=
      Frames.currentMethod_mono (intact n).sound.nested (intact n').sound.nested
        (fun _ _ slot => along le ▸ outline_after _ slot) running
    refine ⟨kept, fun called => ?_⟩
    obtain ⟨j, f, encloses, slot, method⟩ :=
      Frames.exists_of_currentMethod (intact n').sound.nested kept
    exact .frame called encloses slot method

def kept : Method :=
  { id := (boot {}).nextMethod, name := ⟨40⟩, owner := ⟨38, 0⟩, body := .proc ⟨39, 0⟩, arity := 0 }

/-- A class with a method that runs a closure, an object of it and a method object, which a global
keeps. Outside of the scope that made them the method is redefined, then removed, and what is not
reached any more is collected. -/
def redefining : List Move :=
  [.enterScope, .act (.subclass CoreClass.object.ref none none),
   .act (.newProc ⟨topFrame, .user 0, 0, false⟩),
   .act (.defineMethod ⟨38, 0⟩ ⟨40⟩ (.proc ⟨39, 0⟩) 0), .act (.newObject ⟨38, 0⟩),
   .act (.newBound (.object ⟨40, 0⟩) kept), .act (.setGlobal ⟨41⟩ (.bound ⟨41, 0⟩)),
   .leaveScope 0 (.value .nil), .act (.defineMethod ⟨38, 0⟩ ⟨40⟩ (.native (.user 1)) 1),
   .act (.removeMethod ⟨38, 0⟩ ⟨40⟩), .act .collect]

theorem permits_redefining : (boot {}).PermitsRun redefining := by
  have owner {rt : Runtime} (global : .bound ⟨41, 0⟩ ∈ rt.globals.values)
      (bound : rt.bound? ⟨41, 0⟩ = some (.object ⟨40, 0⟩, kept)) :
      ∀ v ∈ [Val.module ⟨38, 0⟩], rt.Available v := by
    have named : rt.Reaches (.bound ⟨41, 0⟩) := (Root.global global).reaches
    have reached : rt.Reaches (.module ⟨38, 0⟩) := .child named ((bound?_eq_some ..).mp bound)
      (List.mem_cons_of_mem _ (mem_children_owner kept))
    exact List.forall_mem_singleton.mpr reached.available
  refine ⟨trivial, .of_roots (List.forall_mem_singleton.mpr (.core .object (by decide))) rfl,
    ⟨nofun, fun i captured => ?_⟩,
    .of_roots (List.forall_mem_cons.mpr ⟨.handle ?_, List.forall_mem_singleton.mpr (.handle ?_)⟩) rfl,
    .of_roots (List.forall_mem_singleton.mpr (.handle ?_)) rfl,
    .of_roots (List.forall_mem_cons.mpr ⟨.handle ?_, List.forall_mem_cons.mpr
      ⟨.handle ?_, List.forall_mem_singleton.mpr (.handle ?_)⟩⟩) rfl,
    .of_roots (List.forall_mem_singleton.mpr (.handle ?_)) rfl, fun v same => ?_,
    ⟨owner ?_ ?_, nofun⟩, ⟨owner ?_ ?_, nofun⟩, .of_roots (fun _ member => nomatch member) rfl, trivial⟩
  case refine_1 =>
    cases captured
    exact ⟨by decide +kernel, fun v held => (Root.top held).available⟩
  case refine_9 =>
    cases same
    exact .inl rfl
  all_goals decide +kernel

theorem removed_method_is_called : let rt (n : Nat) := (boot {}).after (redefining.take n)
    ((boot {}).PermitsRun redefining ∧ (rt 6).bound? ⟨41, 0⟩ = some (.object ⟨40, 0⟩, kept)) ∧
      (rt 11).method? ⟨38, 0⟩ ⟨40⟩ = none ∧
      StillCalls (rt 6) (rt 11) ⟨41, 0⟩ (.object ⟨40, 0⟩) kept := by
  intro rt
  have found : (rt 6).bound? ⟨41, 0⟩ = some (.object ⟨40, 0⟩, kept) := by decide +kernel
  refine ⟨⟨permits_redefining, found⟩, by decide +kernel,
    (held_methods_survive {} redefining permits_redefining).2.1 6 11 ⟨41, 0⟩ (.object ⟨40, 0⟩) kept
      (by decide) (fun l after before => ?_) found⟩
  have global (l : Nat) (named : .bound ⟨41, 0⟩ ∈ (rt l).globals.values) :
      (rt l).Reaches (.bound ⟨41, 0⟩) := (Root.global named).reaches
  obtain rfl | rfl | rfl | rfl | rfl | rfl : l = 6 ∨ l = 7 ∨ l = 8 ∨ l = 9 ∨ l = 10 ∨ l = 11 := by
    omega
  · exact (Root.handle (by decide +kernel)).reaches
  all_goals exact global _ (by decide +kernel)

end Runtime
end ObjectRuntime
