import ObjectRuntime.Proofs.Immutable
import ObjectRuntime.Proofs.Dangling

/-! Captured variables. A variable is a slot of a frame, which every frame and every closure nested
in that frame sees at its own depth. What is read there is what was last written there, through
whichever of them, and it outlives the call as long as a closure or a running frame sees it. -/

namespace ObjectRuntime

namespace Frames

/-- Frame `j` lies `depth` levels up from frame `i`. -/
inductive Around (fs : Frames) : Nat → Nat → Nat → Prop
  | here {i : Nat} {f : Frame} : fs.store[i]? = some f → Around fs i 0 i
  | outer {i p depth j : Nat} {f : Frame} : fs.store[i]? = some f → f.parent = some p →
      Around fs p depth j → Around fs i (depth + 1) j

/-- What slot `index` of frame `j` holds; nil where nothing was written. -/
def valueAt (fs : Frames) (j index : Nat) : Val := (fs.store.getD j default).locals.getD index .nil

variable {fs : Frames} {i j p depth index : Nat} {f : Frame}

theorem Around.slot (around : fs.Around i depth j) : ∃ f, fs.store[j]? = some f := by
  induction around with
  | here slot => exact ⟨_, slot⟩
  | outer _ _ _ ih => exact ih

/-- What lies around a frame stays so, since only variables of frames change. -/
theorem Around.mono {fs' : Frames} (around : fs.Around i depth j)
    (outlines : ∀ (i : Nat) (f : Frame), fs.store[i]? = some f →
      ∃ f', fs'.store[i]? = some f' ∧ f'.outline = f.outline) : fs'.Around i depth j := by
  induction around with
  | here slot =>
    obtain ⟨f', slot', -⟩ := outlines _ _ slot
    exact .here slot'
  | outer slot parent _ ih =>
    obtain ⟨f', slot', same⟩ := outlines _ _ slot
    exact .outer slot' ((Frame.of_outline same (·.parent)).trans parent) ih

theorem store_push_of_lt (fs : Frames) (f : Frame) (below : i < fs.store.size) :
    (fs.push f).2.store[i]? = fs.store[i]? := by
  simp [push, Array.getElem?_push, Nat.ne_of_lt below]

/-- A new frame lies around none of those before it. -/
theorem Around.of_push (nested : fs.Nested) {new : Frame} (around : (fs.push new).2.Around i depth j)
    (below : i < fs.store.size) : fs.Around i depth j := by
  induction around with
  | here slot =>
    rw [store_push_of_lt fs new below] at slot
    exact .here slot
  | outer slot parent _ ih =>
    rw [store_push_of_lt fs new below] at slot
    exact .outer slot parent (ih (Nat.lt_trans (nested _ _ _ slot parent) below))

theorem chain_eq (nested : fs.Nested) (slot : fs.store[i]? = some f) :
    fs.chain i = (i, f) :: match f.parent with
      | some p => fs.chain p
      | none => [] := by
  unfold chain
  rw [chainWithin]
  simp only [slot]
  cases parent : f.parent with
  | none => rfl
  | some p =>
    simp only
    rw [chainWithin_eq nested (nested i p f slot parent) (Nat.lt_succ_self p)]

theorem chain_of_none (slot : fs.store[i]? = none) : fs.chain i = [] := by
  simp [chain, chainWithin, slot]

theorem ancestor?_zero (nested : fs.Nested) (slot : fs.store[i]? = some f) :
    fs.ancestor? i 0 = some i := by
  simp only [ancestor?, chain_eq nested slot, List.getElem?_cons_zero, Option.map_some]

theorem ancestor?_succ (nested : fs.Nested) (slot : fs.store[i]? = some f) (depth : Nat) :
    fs.ancestor? i (depth + 1) = f.parent.bind fun p => fs.ancestor? p depth := by
  simp only [ancestor?, chain_eq nested slot, List.getElem?_cons_succ]
  cases f.parent <;> rfl

theorem slot_of_ancestor? (found : fs.ancestor? i depth = some j) : ∃ f, fs.store[i]? = some f := by
  cases slot : fs.store[i]? with
  | some f => exact ⟨f, rfl⟩
  | none => simp [ancestor?, chain_of_none slot] at found

/-- The chain that is walked is that of the frames around, and it ends where they do. -/
theorem ancestor?_eq_some (nested : fs.Nested) :
    fs.ancestor? i depth = some j ↔ fs.Around i depth j := by
  constructor
  · intro found
    induction depth generalizing i with
    | zero =>
      obtain ⟨f, slot⟩ := slot_of_ancestor? found
      obtain rfl := Option.some.inj ((ancestor?_zero nested slot).symm.trans found)
      exact .here slot
    | succ depth ih =>
      obtain ⟨f, slot⟩ := slot_of_ancestor? found
      rw [ancestor?_succ nested slot] at found
      obtain ⟨p, parent, found⟩ := Option.bind_eq_some_iff.mp found
      exact .outer slot parent (ih found)
  · intro around
    induction around with
    | here slot => exact ancestor?_zero nested slot
    | outer slot parent _ ih => rw [ancestor?_succ nested slot, parent, Option.bind_some, ih]

theorem ancestor?_eq_none (nested : fs.Nested) :
    fs.ancestor? i depth = none ↔ ∀ j, ¬ fs.Around i depth j := by
  rw [Option.eq_none_iff_forall_ne_some]
  exact forall_congr' fun j => not_congr (ancestor?_eq_some nested)

theorem valueAt_of_slot (slot : fs.store[j]? = some f) (index : Nat) :
    fs.valueAt j index = f.locals.getD index .nil := by
  simp only [valueAt, Array.getD_eq_getD_getElem?, slot, Option.getD_some]

theorem valueAt_of_none (slot : fs.store[j]? = none) (index : Nat) : fs.valueAt j index = .nil := by
  simp only [valueAt, Array.getD_eq_getD_getElem?, slot, Option.getD_none]
  rfl

theorem getLocal_eq (fs : Frames) (i depth index : Nat) :
    fs.getLocal i depth index = ((fs.ancestor? i depth).map (fs.valueAt · index)).getD .nil := by
  unfold getLocal
  cases fs.ancestor? i depth <;> rfl

/-! ## Writing -/

theorem getD_putAt (vals : Array Val) (index : Nat) (v : Val) (k : Nat) :
    (putAt vals index v).getD k .nil = if k = index then v else vals.getD k .nil := by
  unfold putAt
  split
  next inside =>
    simp only [Array.getD_eq_getD_getElem?, Array.getElem?_set]
    by_cases same : index = k
    · simp [same]
    · simp [same, Ne.symm same]
  next beyond =>
    simp only [Array.getD_eq_getD_getElem?, Array.getElem?_push, Array.size_append,
      Array.size_replicate, Nat.add_sub_of_le (Nat.le_of_not_lt beyond)]
    by_cases same : k = index
    · simp [same]
    · simp only [if_neg same, Array.getElem?_append, Array.getElem?_replicate]
      split
      next => rfl
      next outside =>
        rw [Array.getElem?_eq_none (Nat.le_of_not_lt outside)]
        split <;> rfl

theorem store_setLocal (found : fs.ancestor? i depth = some j) (index : Nat) (v : Val) :
    fs.setLocal i depth index v =
      (true, ⟨fs.store.modify j fun f => { f with locals := putAt f.locals index v }⟩) := by
  simp only [setLocal, found]

/-- A write changes no slot but the one it is made to. -/
theorem valueAt_setLocal (found : fs.ancestor? i depth = some j) (there : j < fs.store.size)
    (index : Nat) (v : Val) (k index' : Nat) : (fs.setLocal i depth index v).2.valueAt k index' =
      if k = j ∧ index' = index then v else fs.valueAt k index' := by
  rw [store_setLocal found]
  simp only [valueAt, Array.getD_eq_getD_getElem?, Array.getElem?_modify]
  by_cases here : j = k
  · subst here
    simp only [if_true, Array.getElem?_eq_getElem there, Option.map_some, Option.getD_some, true_and]
    rw [← Array.getD_eq_getD_getElem?, getD_putAt, Array.getD_eq_getD_getElem?]
  · simp only [if_neg here, Ne.symm here, false_and, if_false]

end Frames

/-! ## Frames that procs capture -/

def Move.captured : Move → Option Nat
  | .act action => action.captured
  | _ => none

/-- The proc whose code a call runs. -/
def Call.closure? : Call → Option Ref
  | .proc p _ _ => some p
  | .method m _ _ _ =>
    match m.body with
    | .proc p => some p
    | _ => none

namespace Runtime

/-- Frames nest, and every proc captures a frame that is there. -/
structure Framed (rt : Runtime) : Prop where
  heap : rt.heap.WellFormed
  nested : rt.frames.Nested
  top : topFrame < rt.frames.store.size
  captured : ∀ (r : Ref) (p : Proc), rt.heap.cell? r = some (.proc p) →
    p.frame < rt.frames.store.size

/-- Every proc that is made captures a frame that is there. -/
def CapturesRun : Runtime → List Move → Prop
  | _, [] => True
  | rt, move :: rest =>
    (∀ i, move.captured = some i → i < rt.frames.store.size) ∧ (move.run rt).2.CapturesRun rest

variable {rt rt' : Runtime} {i j depth index : Nat}

theorem proc?_eq_some (rt : Runtime) (r : Ref) (p : Proc) :
    rt.proc? r = some p ↔ rt.heap.cell? r = some (.proc p) := by
  unfold proc?
  split
  next q found => simp [found]
  next other =>
    simp only [reduceCtorEq, false_iff]
    exact other p

theorem Sound.framed (sound : rt.Sound) : rt.Framed :=
  ⟨sound.heap, sound.nested, sound.top, sound.captured⟩

theorem PermitsRun.captures {moves : List Move} (permitted : rt.PermitsRun moves) :
    rt.CapturesRun moves := by
  induction moves generalizing rt with
  | nil => trivial
  | cons move rest ih =>
    refine ⟨fun i captured => ?_, ih permitted.2⟩
    cases move with
    | act action => exact (permitted.1.captured i captured).1
    | _ => cases captured

theorem CapturesRun.take {moves : List Move} (captures : rt.CapturesRun moves) (n : Nat) :
    rt.CapturesRun (moves.take n) := by
  induction moves generalizing rt n with
  | nil => simpa using captures
  | cons move rest ih =>
    cases n with
    | zero => trivial
    | succ n => exact ⟨captures.1, ih captures.2 n⟩

namespace Framed

theorem captures_lt (framed : rt.Framed) (p : Ref) :
    ((rt.proc? p).map (·.frame)).getD topFrame < rt.frames.store.size := by
  cases found : rt.proc? p with
  | none => exact framed.top
  | some q => exact framed.captured p q ((proc?_eq_some ..).mp found)

theorem parent_lt (framed : rt.Framed) {c : Call} {p : Nat}
    (parent : (rt.callFrame c).parent = some p) : p < rt.frames.store.size := by
  cases c with
  | proc q args block =>
    cases parent
    exact framed.captures_lt q
  | method m receiver args block =>
    cases body : m.body <;> simp only [callFrame, body] at parent <;> cases parent
    exact framed.captures_lt _

theorem act (framed : rt.Framed) {α : Type} {action : Action α}
    (captures : ∀ i, action.captured = some i → i < rt.frames.store.size) :
    (action.run rt).2.Framed := by
  have bound {r : Ref} {p : Proc} (found : (action.run rt).2.heap.cell? r = some (.proc p)) :
      p.frame < rt.frames.store.size := by
    rcases proc_of_act framed.heap found with before | new
    · exact framed.captured r p before
    · exact captures p.frame new
  have heap := wellFormed_act action framed.heap
  have same (frames : (action.run rt).2.frames = rt.frames) : (action.run rt).2.Framed :=
    ⟨heap, frames ▸ framed.nested, frames ▸ framed.top, fun r p found => frames ▸ bound found⟩
  cases plain : action.isPlain with
  | true => exact same (frames_act plain rt)
  | false =>
    cases action with
    | newProc | newBound => exact same (frames_room rt)
    | setLocal frame depth index v =>
      have size := Frames.size_setLocal rt.frames frame depth index v
      exact ⟨heap, Frames.nested_setLocal framed.nested frame depth index v, size ▸ framed.top,
        fun r p found => size ▸ bound found⟩
    | _ => cases plain

theorem move (framed : rt.Framed) {move : Move}
    (captures : ∀ i, move.captured = some i → i < rt.frames.store.size) :
    (move.run rt).2.Framed := by
  cases other : move.isAct with
  | true =>
    cases move with
    | act action => exact framed.act captures
    | _ => cases other
  | false =>
    have heap : (move.run rt).2.heap = rt.heap := heap_move other
    have frames : (move.run rt).2.frames = _ := frames_move other
    have same (frames : (move.run rt).2.frames = rt.frames) : (move.run rt).2.Framed :=
      ⟨heap ▸ framed.heap, frames ▸ framed.nested, frames ▸ framed.top, fun r p found =>
        frames ▸ framed.captured r p (heap ▸ found)⟩
    cases move with
    | enterCall c =>
      have grown : rt.frames.store.size ≤ ((Move.enterCall c).run rt).2.frames.store.size := by
        rw [frames]
        simp [Frames.push]
      refine ⟨heap ▸ framed.heap, ?_, Nat.lt_of_lt_of_le framed.top grown, fun r p found => ?_⟩
      · rw [frames]
        exact Frames.nested_push framed.nested fun p parent => framed.parent_lt parent
      · exact Nat.lt_of_lt_of_le (framed.captured r p (heap ▸ found)) grown
    | _ => exact same frames

theorem after (framed : rt.Framed) {moves : List Move} (captures : rt.CapturesRun moves) :
    (rt.after moves).Framed := by
  induction moves generalizing rt with
  | nil => exact framed
  | cons move rest ih => exact ih (framed.move captures.1) captures.2

end Framed

end Runtime

/-! ## What was written -/

/-- One write of a variable: its frame, its index there, and the value. -/
structure Write where
  frame : Nat
  index : Nat
  value : Val

def lastWritten (writes : List Write) (frame index : Nat) : Option Val :=
  ((writes.filter fun w => w.frame = frame ∧ w.index = index).getLast?).map (·.value)

theorem lastWritten_append (first second : List Write) (frame index : Nat) :
    lastWritten (first ++ second) frame index =
      (lastWritten second frame index).or (lastWritten first frame index) := by
  simp only [lastWritten, List.filter_append, List.getLast?_append, Option.map_or]

/-- The write that a move makes: none beyond the frames around. -/
def Move.write? (fs : Frames) : Move → Option Write
  | .act (.setLocal i depth index v) => (fs.ancestor? i depth).map fun frame => ⟨frame, index, v⟩
  | _ => none

namespace Runtime

/-- The writes of a run, in order. -/
def writes : Runtime → List Move → List Write
  | _, [] => []
  | rt, move :: rest => (move.write? rt.frames).toList ++ (move.run rt).2.writes rest

variable {rt rt' : Runtime} {i j depth index : Nat}

theorem valueAt_push (rt : Runtime) (c : Call) (j index : Nat) :
    (rt.frames.push (rt.callFrame c)).2.valueAt j index = rt.frames.valueAt j index := by
  have fresh : (rt.callFrame c).locals = #[] := by
    cases c with
    | proc => rfl
    | method m receiver args block => cases body : m.body <;> simp [callFrame, body]
  simp only [Frames.valueAt, Frames.push, Array.getD_eq_getD_getElem?, Array.getElem?_push]
  split
  next new =>
    subst new
    simp only [Option.getD_some, fresh, Array.getElem?_eq_none (le_refl rt.frames.store.size)]
    rfl
  next => rfl

theorem valueAt_write (framed : rt.Framed) (frame depth k : Nat) (v : Val) (j index : Nat) :
    (rt.frames.setLocal frame depth k v).2.valueAt j index =
      (lastWritten ((Move.act (.setLocal frame depth k v)).write? rt.frames).toList j index).getD
        (rt.frames.valueAt j index) := by
  cases found : rt.frames.ancestor? frame depth with
  | none => simp [Frames.setLocal, Move.write?, found, lastWritten]
  | some a =>
    obtain ⟨f, slot⟩ := ((Frames.ancestor?_eq_some framed.nested).mp found).slot
    obtain ⟨there, -⟩ := Array.getElem?_eq_some_iff.mp slot
    rw [Frames.valueAt_setLocal found there]
    by_cases same : j = a ∧ index = k
    · simp [Move.write?, found, lastWritten, same]
    · have apart : ¬ (a = j ∧ k = index) := fun both => same ⟨both.1.symm, both.2.symm⟩
      simp [Move.write?, found, lastWritten, same, apart]

/-- A move changes the slot that it writes, and no other. -/
theorem valueAt_move (framed : rt.Framed) (move : Move) (j index : Nat) :
    (move.run rt).2.frames.valueAt j index =
      (lastWritten (move.write? rt.frames).toList j index).getD (rt.frames.valueAt j index) := by
  cases other : move.isAct with
  | false =>
    rw [frames_move other]
    cases move with
    | act => cases other
    | enterCall c => exact valueAt_push rt c j index
    | _ => rfl
  | true =>
    cases move with
    | act action =>
      cases plain : action.isPlain with
      | true =>
        rw [show (Move.act action).run rt = action.run rt from rfl, frames_act plain rt]
        cases action with
        | setLocal => cases plain
        | _ => rfl
      | false =>
        cases action with
        | newProc | newBound =>
          exact congrArg (fun fs => Frames.valueAt fs j index) (frames_room rt)
        | setLocal frame depth k v =>
          exact valueAt_write framed frame depth k v j index
        | _ => cases plain
    | _ => cases other

/-- A slot holds what was last written to it. -/
theorem valueAt_after (framed : rt.Framed) {moves : List Move} (captures : rt.CapturesRun moves)
    (j index : Nat) : (rt.after moves).frames.valueAt j index =
      (lastWritten (rt.writes moves) j index).getD (rt.frames.valueAt j index) := by
  induction moves generalizing rt with
  | nil => rfl
  | cons move rest ih =>
    have later := ih (framed.move captures.1) captures.2
    rw [valueAt_move framed] at later
    rw [writes, lastWritten_append, Machine.after_cons, later]
    cases lastWritten ((move.run rt).2.writes rest) j index <;> rfl

/-! ## What sees a variable -/

/-- A closure that is reached, or a running frame, has frame `j` around it. -/
def Covers (rt : Runtime) (j : Nat) : Prop :=
  (∃ r p, rt.Reaches (.proc r) ∧ rt.proc? r = some p ∧ rt.frames.Encloses p.frame j) ∨
    ∃ i ∈ rt.calls, rt.frames.Encloses i j

theorem mem_values_of_valueAt {f : Frame} {v : Val} (nested : rt.frames.Nested)
    (encloses : rt.frames.Encloses i j) (slot : rt.frames.store[j]? = some f)
    (held : f.locals.getD index .nil = v) (real : v ≠ .nil) : v ∈ rt.frames.values i := by
  refine (Frames.mem_values_iff nested i v).mpr ⟨j, f, encloses, slot, ?_⟩
  have member : v ∈ f.locals := by
    rw [Array.getD_eq_getD_getElem?] at held
    cases entry : f.locals[index]? with
    | none =>
      rw [entry] at held
      exact absurd held.symm real
    | some w =>
      rw [entry] at held
      exact held ▸ Array.mem_of_getElem? entry
  simp [Frame.values, member]

/-- What a variable holds is reached wherever the variable is seen from. -/
theorem Covers.reaches (covers : rt.Covers j) (nested : rt.frames.Nested) {v : Val}
    (held : rt.frames.valueAt j index = v) (real : v ≠ .nil) : rt.Reaches v := by
  cases slot : rt.frames.store[j]? with
  | none => exact absurd (held.symm.trans (Frames.valueAt_of_none slot index)) real
  | some f =>
    have here := (Frames.valueAt_of_slot slot index).symm.trans held
    rcases covers with ⟨r, p, reached, found, encloses⟩ | ⟨i, running, encloses⟩
    · exact .child reached ((proc?_eq_some ..).mp found)
        (mem_values_of_valueAt nested encloses slot here real)
    · exact (Root.running running (mem_values_of_valueAt nested encloses slot here real)).reaches

theorem isLive_move (wf : rt.heap.WellFormed) (move : Move) {k : Kind} {r : Ref}
    (reached : rt.Reaches (.cell k r)) (live : rt.heap.isLive r) : (move.run rt).2.heap.isLive r := by
  cases move with
  | act action => exact isLive_act wf action reached live
  | _ =>
    rw [heap_move rfl]
    exact live

/-- What is reached all along a run is there at its end. -/
theorem isLive_after {moves : List Move} (wf : rt.heap.WellFormed) {k : Kind} {r : Ref}
    (reached : ∀ l < moves.length, (rt.after (moves.take l)).Reaches (.cell k r))
    (live : rt.heap.isLive r) : (rt.after moves).heap.isLive r := by
  induction moves generalizing rt with
  | nil => exact live
  | cons move rest ih =>
    have now : rt.Reaches (.cell k r) := reached 0 (Nat.zero_lt_succ _)
    refine ih (wellFormed_move move wf) (fun l below => ?_) (isLive_move wf move now live)
    exact reached (l + 1) (Nat.succ_lt_succ below)

/-- How frames share their variables: each sees the frames around it, and reads what was last
written there. A write is made where it is seen from, and nowhere else. Beyond the last frame
around there is nothing to write or to read. -/
structure SharesVariables (rt : Runtime) (writes : List Write) : Prop where
  reads : ∀ i depth j index, rt.frames.Around i depth j →
    rt.frames.getLocal i depth index = (lastWritten writes j index).getD .nil
  written : ∀ i depth j index v, rt.frames.Around i depth j →
    let left := ((Action.setLocal i depth index v).run rt).2
    ((Action.setLocal i depth index v).run rt).1 = true ∧ left = { rt with frames := left.frames } ∧
      left.frames.store.size = rt.frames.store.size ∧
      (∀ (k : Nat) (f : Frame), rt.frames.store[k]? = some f →
        ∃ f', left.frames.store[k]? = some f' ∧ f'.outline = f.outline) ∧
      ∀ k index', left.frames.valueAt k index' =
        if k = j ∧ index' = index then v else rt.frames.valueAt k index'
  beyond : ∀ i depth index v, (∀ j, ¬ rt.frames.Around i depth j) →
    (Action.setLocal i depth index v).run rt = (false, rt) ∧ rt.frames.getLocal i depth index = .nil
  closures : ∀ c p q depth j, c.closure? = some p → rt.proc? p = some q →
    ((rt.openFrame c).2.frames.Around (rt.openFrame c).1 (depth + 1) j ↔
      rt.frames.Around q.frame depth j)

theorem slot_openFrame (rt : Runtime) (c : Call) :
    (rt.openFrame c).2.frames.store[(rt.openFrame c).1]? = some (rt.callFrame c) := by
  simp [openFrame, Frames.push]

theorem around_openFrame (framed : rt.Framed) {c : Call} {p : Ref} {q : Proc}
    (runs : c.closure? = some p) (found : rt.proc? p = some q) :
    (rt.openFrame c).2.frames.Around (rt.openFrame c).1 (depth + 1) j ↔
      rt.frames.Around q.frame depth j := by
  have parent : (rt.callFrame c).parent = some q.frame := by
    cases c with
    | proc p' args block =>
      cases runs
      simp [callFrame, found]
    | method m receiver args block =>
      cases body : m.body <;> simp only [Call.closure?, body] at runs <;> cases runs
      simp [callFrame, body, found]
  have slot := rt.slot_openFrame c
  have inside := framed.captured p q ((proc?_eq_some ..).mp found)
  constructor
  · intro around
    cases around with
    | outer slot' outer around =>
      rw [slot] at slot'
      cases slot'
      cases parent.symm.trans outer
      exact around.of_push framed.nested inside
  · intro around
    refine .outer slot parent (around.mono fun k f there => ⟨f, ?_, rfl⟩)
    obtain ⟨below, -⟩ := Array.getElem?_eq_some_iff.mp there
    exact (Frames.store_push_of_lt rt.frames _ below).trans there

theorem sharesVariables (framed : rt.Framed) {writes : List Write}
    (held : ∀ j index, rt.frames.valueAt j index = (lastWritten writes j index).getD .nil) :
    rt.SharesVariables writes where
  reads i depth j index around := by
    rw [Frames.getLocal_eq, (Frames.ancestor?_eq_some framed.nested).mpr around]
    exact held j index
  written i depth j index v around := by
    have found := (Frames.ancestor?_eq_some framed.nested).mpr around
    obtain ⟨f, slot⟩ := around.slot
    obtain ⟨there, -⟩ := Array.getElem?_eq_some_iff.mp slot
    refine ⟨?_, rfl, Frames.size_setLocal rt.frames i depth index v,
      fun k f => outline_setLocal rt.frames i depth index v, Frames.valueAt_setLocal found there index v⟩
    exact congrArg Prod.fst (Frames.store_setLocal found index v)
  beyond i depth index v none := by
    have lost := (Frames.ancestor?_eq_none framed.nested).mpr none
    constructor
    · simp only [Action.run, Frames.setLocal, lost]
    · rw [Frames.getLocal_eq, lost]
      rfl
  closures c p q depth j runs found := around_openFrame framed runs found

theorem frames_boot (config : Config) : (boot config).frames = (bare config).frames :=
  (Leaves.boot (k := .proc) config nofun).frames

theorem valueAt_boot (config : Config) (j index : Nat) :
    (boot config).frames.valueAt j index = .nil := by
  rw [frames_boot]
  cases j with
  | zero => rfl
  | succ j => exact Frames.valueAt_of_none rfl index

theorem after_drop {n m : Nat} (le : n ≤ m) (rt : Runtime) (moves : List Move) :
    (rt.after (moves.take n)).after ((moves.take m).drop n) = rt.after (moves.take m) := by
  have split := List.take_append_drop n (moves.take m)
  rw [List.take_take, min_eq_left le] at split
  rw [← Machine.after_append, split]

theorem after_drop_take {n m l : Nat} (le : n + l ≤ m) (rt : Runtime) (moves : List Move) :
    (rt.after (moves.take n)).after (((moves.take m).drop n).take l) =
      rt.after (moves.take (n + l)) := by
  rw [List.take_drop, List.take_take, min_eq_left le, after_drop (Nat.le_add_right n l)]

/-- In every run in which procs capture frames that are there: frames share their variables, and
what lies around a frame stays there. What a variable holds is there for as long as it holds it and
a closure that is reached or a running frame sees it, if it was there when it was written; and
whatever is given only what is reached writes nothing else. -/
theorem variables_last (config : Config) (moves : List Move)
    (captures : (boot config).CapturesRun moves) :
    let rt (n : Nat) := (boot config).after (moves.take n)
    (∀ n, (rt n).SharesVariables ((boot config).writes (moves.take n))) ∧
    (∀ n m i depth j, n ≤ m → (rt n).frames.Around i depth j → (rt m).frames.Around i depth j) ∧
    (∀ n m j index k r, n ≤ m →
      (∀ l, n ≤ l → l < m → (rt l).frames.valueAt j index = .cell k r ∧ (rt l).Covers j) →
      (rt n).heap.isLive r → (rt m).heap.isLive r) ∧
    ((boot config).PermitsRun moves → ∀ n j index, (rt n).Covers j →
      (rt n).heap.Holds ((rt n).frames.valueAt j index)) := by
  intro rt
  have start : (boot config).Framed := (intact_boot config).sound.framed
  have framed (n : Nat) : (rt n).Framed := start.after (captures.take n)
  have along {n m : Nat} (le : n ≤ m) : rt m = (rt n).after ((moves.take m).drop n) :=
    (after_drop le (boot config) moves).symm
  refine ⟨fun n => sharesVariables (framed n) fun j index => ?_, fun n m i depth j le around => ?_,
    fun n m j index k r le seen live => ?_, fun permitted n j index covers => ?_⟩
  · rw [valueAt_after start (captures.take n), valueAt_boot]
  · rw [along le]
    exact around.mono fun _ _ => outline_after _
  · rw [along le]
    refine isLive_after (k := k) (framed n).heap (fun l below => ?_) live
    have within : n + l < m := by
      rw [List.length_drop, List.length_take] at below
      omega
    obtain ⟨held, covers⟩ := seen (n + l) (Nat.le_add_right n l) within
    rw [show rt n = (boot config).after (moves.take n) from rfl, after_drop_take within.le]
    exact covers.reaches (framed (n + l)).nested held nofun
  · have sound := ((intact_boot config).after (permitted.take n)).sound
    by_cases nothing : (rt n).frames.valueAt j index = .nil
    · rw [nothing]
      trivial
    · exact sound.holds (covers.reaches sound.nested rfl nothing)

/-- A closure is called, and in its frame another one is made, which captures the variable that holds
a string. The first call returns, the second closure is called behind a collection. -/
def capturing : List Move :=
  [.enterScope, .act (.newProc ⟨topFrame, .user 0, 0, false⟩), .enterCall (.proc ⟨38, 0⟩ [] none),
   .act (.newString CoreClass.string.ref "shared"), .act (.setLocal 1 0 2 (.string ⟨39, 0⟩)),
   .act (.newProc ⟨1, .user 1, 0, false⟩),
   .closeCall (.proc ⟨38, 0⟩ [] none) 1 (.value (.proc ⟨40, 0⟩)), .act .collect,
   .enterCall (.proc ⟨40, 0⟩ [] none)]

theorem captures_capturing : (boot {}).CapturesRun capturing := by
  refine ⟨nofun, fun i captured => ?_, nofun, nofun, nofun, fun i captured => ?_, nofun, nofun, nofun,
    trivial⟩
  all_goals
    cases captured
    decide +kernel

theorem variable_outlives_call : let rt := (boot {}).after (capturing.take 9)
    (boot {}).CapturesRun capturing ∧ rt.frames.getLocal 2 1 2 = .string ⟨39, 0⟩ ∧
      rt.heap.isLive ⟨39, 0⟩ := by
  obtain ⟨shares, -, stays, -⟩ := variables_last {} capturing captures_capturing
  have framed : ((boot {}).after (capturing.take 9)).Framed :=
    (intact_boot {}).sound.framed.after (captures_capturing.take 9)
  have around : ((boot {}).after (capturing.take 9)).frames.Around 2 1 1 :=
    (Frames.ancestor?_eq_some framed.nested).mp (by decide +kernel)
  refine ⟨captures_capturing, ?_, stays 5 9 1 2 .string ⟨39, 0⟩ (by decide) (fun l after before => ?_)
    (by decide +kernel)⟩
  · rw [(shares 9).reads 2 1 1 2 around]
    decide +kernel
  · have running (l : Nat) (called : 1 ∈ ((boot {}).after (capturing.take l)).calls) :
        ((boot {}).after (capturing.take l)).Covers 1 := .inr ⟨1, called, .here 1⟩
    have closure (l : Nat) (held : .proc ⟨40, 0⟩ ∈ ((boot {}).after (capturing.take l)).handles)
        (there : ((boot {}).after (capturing.take l)).proc? ⟨40, 0⟩ = some ⟨1, .user 1, 0, false⟩) :
        ((boot {}).after (capturing.take l)).Covers 1 :=
      .inl ⟨_, _, (Root.handle held).reaches, there, .here 1⟩
    obtain rfl | rfl | rfl | rfl : l = 5 ∨ l = 6 ∨ l = 7 ∨ l = 8 := by omega
    · exact ⟨by decide +kernel, running 5 (by decide +kernel)⟩
    · exact ⟨by decide +kernel, running 6 (by decide +kernel)⟩
    · exact ⟨by decide +kernel, closure 7 (by decide +kernel) (by decide +kernel)⟩
    · exact ⟨by decide +kernel, closure 8 (by decide +kernel) (by decide +kernel)⟩

/-- Writing beyond the last frame around answers false, which is not nil. -/
theorem setLocal_beyond_answers_false : (boot {}).frames.ancestor? topFrame 1 = none ∧
    Val.bool ((Action.setLocal topFrame 1 0 (.int 7)).run (boot {})).1 = .bool false ∧
      Val.bool ((Action.setLocal topFrame 1 0 (.int 7)).run (boot {})).1 ≠ .nil := by
  decide +kernel

end Runtime
end ObjectRuntime
