import ObjectRuntime.Proofs.Sheltering

/-! What no program writes. Data of one kind are made and written by the steps for that kind only, and
no step writes a proc or a method object: a step makes one where there was none, or takes one away that
nothing reaches, and never changes one. Of the frames a step changes nothing but the variable that it
writes. -/

namespace ObjectRuntime

def Kind.isFixed : Kind → Bool
  | .proc | .bound => true
  | _ => false

/-- The steps that neither make a fixed cell nor write a variable. -/
def Action.isPlain {α : Type} : Action α → Bool
  | newProc _ | newBound _ _ | setLocal .. => false
  | _ => true

/-- The kind of data that a step makes or writes. -/
def Action.data {α : Type} : Action α → Option Kind
  | newArray .. | push .. | put .. => some .array
  | newTable _ | insert .. | erase .. => some .table
  | newString .. | append .. => some .string
  | newFloat _ => some .float
  | newProc _ => some .proc
  | newBound .. => some .bound
  | _ => none

def Action.writesFrame {α : Type} : Action α → Bool
  | setLocal .. => true
  | _ => false

/-- The cell is data of the kind, neither an object nor a module. -/
def Cell.isDataOf (k : Kind) : Cell → Bool
  | object _ | module _ => false
  | c => c.kind = k

theorem Cell.kind_of_isDataOf {k : Kind} {c : Cell} (data : c.isDataOf k = true) : c.kind = k := by
  cases c with
  | object | module => cases data
  | _ => exact of_decide_eq_true data

theorem Cell.isDataOf_of_forget {k : Kind} {c c' : Cell} (same : c'.forget = c.forget)
    (data : c'.isDataOf k = true) : c' = c := by
  cases c' with
  | object | module => cases data
  | _ => cases c <;> cases same; rfl

theorem Cell.isDataOf_of_isFixed {c : Cell} (fixed : c.kind.isFixed = true) :
    c.isDataOf c.kind = true := by
  cases c with
  | proc | bound => rfl
  | _ => cases fixed

theorem Frame.of_outline {α : Type} {f f' : Frame} (same : f'.outline = f.outline) (g : Frame → α)
    (kept : ∀ f : Frame, g f.outline = g f := by intro; rfl) : g f' = g f := by
  rw [← kept, same, kept]

namespace Runtime

/-- The frames are the same, and all data of the kind that are there were there. -/
structure Leaves (k : Kind) (rt rt' : Runtime) : Prop where
  heap : rt.heap.WellFormed → rt'.heap.WellFormed
  frames : rt'.frames = rt.frames
  cells : rt.heap.WellFormed → ∀ r c, rt'.heap.cell? r = some c → c.isDataOf k = true →
    rt.heap.cell? r = some c

variable {k : Kind} {rt rt' rt'' : Runtime}

namespace Leaves

theorem refl (rt : Runtime) : Leaves k rt rt := ⟨id, rfl, fun _ _ _ found _ => found⟩

theorem trans (first : Leaves k rt rt') (second : Leaves k rt' rt'') : Leaves k rt rt'' where
  heap wf := second.heap (first.heap wf)
  frames := second.frames.trans first.frames
  cells wf r c found data := first.cells wf r c (second.cells (first.heap wf) r c found data) data

theorem of_store (same : SameStore rt rt') : Leaves k rt rt' where
  heap := same.wellFormed
  frames := same.frames
  cells _ r _ found _ := (same.cell? r).symm.trans found

theorem of_forget (same : rt'.forget = rt.forget) : Leaves k rt rt' where
  heap := (Extends.of_forget same).heap
  frames := congrArg (fun rt => rt.frames) same
  cells _ r c found data := by
    obtain ⟨c', found', forgotten⟩ := cell?_of_forget same found
    rw [found', Cell.isDataOf_of_forget forgotten.symm data]

theorem modifyCell (rt : Runtime) (r : Ref) {f : Cell → Cell}
    (unwritten : ∀ c, (f c).isDataOf k = true → f c = c) : Leaves k rt (rt.modifyCell r f) where
  heap wf := Heap.wellFormed_modify wf r f
  frames := rfl
  cells _ a c found data := by
    simp only [Runtime.modifyCell, Heap.cell?_modify] at found
    split at found
    next same =>
      obtain ⟨c', found', rfl⟩ := Option.map_eq_some_iff.mp found
      rw [same, found', unwritten c' data]
    next => exact found

theorem modifyModule (rt : Runtime) (r : Ref) (f : Module → Module) :
    Leaves k rt (rt.modifyModule r f) :=
  modifyCell rt r fun c data => by
    cases c with
    | module m => cases data
    | _ => rfl

/-- Writing data of another kind. -/
theorem modifyData (rt : Runtime) (r : Ref) {f : Cell → Cell} {kind : Kind} (apart : kind ≠ k)
    (only : ∀ c, (f c).kind = kind ∨ f c = c) : Leaves k rt (rt.modifyCell r f) :=
  modifyCell rt r fun c data =>
    (only c).resolve_left fun same => apart (same.symm.trans (Cell.kind_of_isDataOf data))

theorem collect (rt : Runtime) : Leaves k rt rt.collect where
  heap wf := Heap.wellFormed_collect wf rt.frames rt.rootValues
  frames := rfl
  cells _ _ _ found _ := ((Heap.cell?_collect ..).mp found).1

theorem room (rt : Runtime) : Leaves k rt rt.room := by
  unfold Runtime.room
  split
  · exact collect rt
  · exact refl rt

/-- A cell that is made is the only one that was not there. -/
theorem cell?_alloc (wf : rt.heap.WellFormed) {c made : Cell} {r : Ref}
    (found : (rt.alloc made).2.heap.cell? r = some c) (data : c.isDataOf k = true) :
    rt.heap.cell? r = some c ∨ c = made := by
  rw [alloc_eq, cell?_place (wellFormed_room wf)] at found
  split at found
  next => exact .inr (Option.some.inj found).symm
  next => exact .inl ((room rt).cells wf r c found data)

theorem alloc (rt : Runtime) {made : Cell} (other : made.isDataOf k = false) :
    Leaves k rt (rt.alloc made).2 where
  heap := (Extends.alloc rt made).heap
  frames := frames_room rt
  cells wf r c found data := by
    rcases cell?_alloc wf found data with before | rfl
    · exact before
    · rw [other] at data
      cases data

/-! ## Steps -/

theorem hold (rt : Runtime) (v : Val) : Leaves k rt (rt.hold v) := by
  unfold Runtime.hold
  split
  · exact refl rt
  · exact of_store ⟨⟨rfl, rfl, rfl⟩, rfl⟩

theorem releaseTopLevel (rt : Runtime) : Leaves k rt rt.releaseTopLevel.2 := by
  unfold Runtime.releaseTopLevel
  split
  · exact of_store ⟨⟨rfl, rfl, rfl⟩, rfl⟩
  · exact refl rt

theorem ancestry (rt : Runtime) (m : Ref) : Leaves k rt (rt.ancestry m).2 :=
  of_forget (ancestry_forget rt m)

theorem subclass (rt : Runtime) (sup : Ref) (name : Option String) (tag : Option Tag) :
    Leaves k rt (rt.subclass sup name tag).2 := by
  rcases subclass_cases rt sup name tag with ⟨e, same⟩ | ⟨_, made, -, same⟩
  · rw [same]
    exact refl rt
  · rw [same]
    exact alloc rt rfl

theorem setConst (rt : Runtime) (m : Ref) (name : Sym) (v : Val) :
    Leaves k rt (rt.setConst m name v) := by
  obtain ⟨rt', named, writes⟩ := setConst_writes rt m name v
  have before : Leaves k rt rt' := by
    rcases named with rfl | ⟨bound, _, -, -, -, rfl⟩
    · exact refl rt'
    · exact modifyModule rt bound _
  rw [writes]
  exact before.trans (modifyModule rt' m _)

theorem includeOnce (rt : Runtime) (m other : Ref) : Leaves k rt (rt.includeOnce m other).2 := by
  rcases includeOnce_writes rt m other with same | ⟨rt', same, -, writes⟩
  · exact of_forget same
  · rw [writes]
    exact ((of_forget same).trans (modifyModule rt' m _)).trans (of_store ⟨⟨rfl, rfl, rfl⟩, rfl⟩)

theorem singletonClass (rt : Runtime) (v : Val) : Leaves k rt (rt.singletonClass v).2 := by
  refine singletonClass_induct (refl rt) (fun _ _ => ?_) (fun _ _ _ _ before => ?_) v
  · refine (alloc rt rfl).trans (modifyCell _ _ fun c data => ?_)
    cases c with
    | object o => cases data
    | _ => rfl
  · exact before.trans ((alloc _ rfl).trans (modifyModule _ _ _))

theorem writeTable (rt : Runtime) (m : Ref) (f : Module → Module) (next : Nat) (cache : MethodCache) :
    Leaves k rt { rt.modifyModule m f with nextMethod := next, cache } :=
  (modifyModule rt m f).trans (of_store ⟨⟨rfl, rfl, rfl⟩, rfl⟩)

theorem aliasMethod (rt : Runtime) (m : Ref) (newName oldName : Sym) :
    Leaves k rt (rt.aliasMethod m newName oldName).2 := by
  rcases aliasMethod_writes rt m newName oldName with same | ⟨rt', x, same, writes⟩
  · exact of_forget same
  · rw [writes]
    exact (of_forget same).trans (writeTable rt' m _ rt'.nextMethod _)

theorem removeMethod (rt : Runtime) (m : Ref) (name : Sym) :
    Leaves k rt (rt.removeMethod m name).2 := by
  rcases removeMethod_writes rt m name with same | writes
  · rw [same]
    exact refl rt
  · rw [writes]
    exact writeTable rt m _ rt.nextMethod _

theorem failureIsA (rt : Runtime) (e : Failure) (m : Ref) : Leaves k rt (rt.failureIsA e m).2 := by
  have named : Leaves k rt (rt.failureClass e).2 := of_store ⟨⟨rfl, rfl, rfl⟩, rfl⟩
  exact named.trans (of_forget (failureIsA_forget rt e m))

/-- A step for data of another kind. -/
theorem act {α : Type} {action : Action α} (other : action.data ≠ some k)
    (aside : action.writesFrame = false) (rt : Runtime) : Leaves k rt (action.run rt).2 := by
  have apart {kind : Kind} (handles : action.data = some kind) : kind ≠ k :=
    fun same => other (same ▸ handles)
  have make {made : Cell} (handles : action.data = some made.kind) : Leaves k rt (rt.alloc made).2 :=
    alloc rt (Bool.eq_false_iff.mpr fun data => apart handles (Cell.kind_of_isDataOf data))
  cases action with
  | newArray | newTable | newString | newFloat | newProc | newBound => exact make rfl
  | newObject | newModule => exact alloc rt rfl
  | collect => exact collect rt
  | hold v => exact hold rt v
  | releaseTopLevel => exact releaseTopLevel rt
  | push | put | insert | erase | append =>
    exact modifyData rt _ (apart rfl) fun c => by cases c <;> first | exact .inl rfl | exact .inr rfl
  | setIvar object => exact modifyCell rt object fun c data => by cases c <;> first | rfl | cases data
  | subclass sup name tag => exact subclass rt sup name tag
  | setFinal m final => exact modifyModule rt m _
  | setConst m name v => exact setConst rt m name v
  | findConst m name => exact of_forget (findConst_forget rt m name)
  | includeOnce m mixin => exact includeOnce rt m mixin
  | ancestry m => exact ancestry rt m
  | singletonClass v => exact singletonClass rt v
  | isA v m => exact ancestry rt (rt.classOf v)
  | failureIsA e m => exact failureIsA rt e m
  | defineMethod m name body arity => exact writeTable rt m _ (rt.nextMethod + 1) _
  | aliasMethod m newName oldName => exact aliasMethod rt m newName oldName
  | removeMethod m name => exact removeMethod rt m name
  | findMethod cls name after exclude => exact of_forget (findMethod_forget rt cls name after exclude)
  | intern | report | root | unroot | setRatio | setGlobal | eraseGlobal | failureClass =>
    exact of_store ⟨⟨rfl, rfl, rfl⟩, rfl⟩
  | setLocal => cases aside

/-- A plain step leaves the cells that are never written. -/
theorem act_plain {α : Type} {action : Action α} (plain : action.isPlain = true) (rt : Runtime)
    (fixed : k.isFixed = true) : Leaves k rt (action.run rt).2 := by
  have aside : action.writesFrame = false := by cases action <;> first | rfl | cases plain
  refine act (fun handles => ?_) aside rt
  cases k with
  | proc | bound =>
    cases action with
    | newProc | newBound => cases plain
    | _ => cases handles
  | _ => cases fixed

/-- Booting makes an array, and no other data. -/
theorem boot (config : Config) (other : k ≠ .array) : Leaves k (bare config) (Runtime.boot config) := by
  refine boot_relates refl trans (fun _ _ => .setConst ..) fun {rt _} _ boots => ?_
  cases boots with
  | includes m other => exact .includeOnce ..
  | singleton => exact .singletonClass ..
  | handlers =>
    have apart : (Cell.array CoreClass.array.ref #[]).isDataOf k = false :=
      decide_eq_false (Ne.symm other)
    exact (alloc rt apart).trans (.of_store ⟨⟨rfl, rfl, rfl⟩, rfl⟩)
  | method => exact .writeTable ..
  | release => exact .of_store ⟨⟨rfl, rfl, rfl⟩, rfl⟩

end Leaves

/-! ## Moves -/

theorem frames_act {α : Type} {action : Action α} (plain : action.isPlain = true) (rt : Runtime) :
    (action.run rt).2.frames = rt.frames :=
  (Leaves.act_plain (k := .proc) plain rt rfl).frames

/-- A proc that is there was there, or is made by the step. -/
theorem proc_of_act (wf : rt.heap.WellFormed) {α : Type} {action : Action α} {r : Ref} {p : Proc}
    (found : (action.run rt).2.heap.cell? r = some (.proc p)) :
    rt.heap.cell? r = some (.proc p) ∨ action.captured = some p.frame := by
  cases plain : action.isPlain with
  | true => exact .inl ((Leaves.act_plain (k := .proc) plain rt rfl).cells wf r _ found rfl)
  | false =>
    cases action with
    | newProc made =>
      rcases Leaves.cell?_alloc (k := .proc) wf found rfl with before | new
      · exact .inl before
      · cases new
        exact .inr rfl
    | newBound receiver m =>
      rcases Leaves.cell?_alloc (k := .proc) wf found rfl with before | new
      · exact .inl before
      · cases new
    | setLocal => exact .inl found
    | _ => cases plain

/-- A fixed cell that is reached stays what it is. -/
theorem fixed_act (wf : rt.heap.WellFormed) {α : Type} (action : Action α) {k : Kind} {r : Ref}
    {c : Cell} (reached : rt.Reaches (.cell k r)) (found : rt.heap.cell? r = some c)
    (fixed : c.kind.isFixed = true) : (action.run rt).2.heap.cell? r = some c := by
  cases makes : action.makes with
  | true =>
    obtain ⟨c', found', records⟩ := (Shelters.act wf makes).cells k r c reached found
    cases records with
    | same => exact found'
    | _ => cases fixed
  | false =>
    obtain ⟨c', found', widens⟩ := (Widens.act makes rt).cells wf r c found
    cases plain : action.isPlain with
    | true =>
      have fixed' : c'.kind.isFixed = true := widens.kind ▸ fixed
      have before := (Leaves.act_plain plain rt fixed').cells wf r c' found'
        (Cell.isDataOf_of_isFixed fixed')
      rw [found] at before
      rwa [Option.some.inj before]
    | false =>
      cases action with
      | setLocal => exact found
      | newProc | newBound => cases makes
      | _ => cases plain

theorem fixed_move (wf : rt.heap.WellFormed) (move : Move) {k : Kind} {r : Ref} {c : Cell}
    (reached : rt.Reaches (.cell k r)) (found : rt.heap.cell? r = some c)
    (fixed : c.kind.isFixed = true) : (move.run rt).2.heap.cell? r = some c := by
  cases move with
  | act action => exact fixed_act wf action reached found fixed
  | _ =>
    rw [heap_move rfl]
    exact found

theorem fixed_after {moves : List Move} (wf : rt.heap.WellFormed) {k : Kind} {r : Ref} {c : Cell}
    (reached : ∀ l < moves.length, (rt.after (moves.take l)).Reaches (.cell k r))
    (found : rt.heap.cell? r = some c) (fixed : c.kind.isFixed = true) :
    (rt.after moves).heap.cell? r = some c := by
  induction moves generalizing rt with
  | nil => exact found
  | cons move rest ih =>
    have now : rt.Reaches (.cell k r) := reached 0 (Nat.zero_lt_succ _)
    refine ih (wellFormed_move move wf) (fun l below => ?_) (fixed_move wf move now found fixed)
    exact reached (l + 1) (Nat.succ_lt_succ below)

/-- Entering a call makes a frame; leaving one, and every other move but a step, makes none. -/
theorem frames_move {move : Move} (other : move.isAct = false) :
    (move.run rt).2.frames = match move with
      | .enterCall c => (rt.frames.push (rt.callFrame c)).2
      | _ => rt.frames := by
  have released (rt : Runtime) (mark : Nat) (keep : Option Val) :
      (rt.release mark keep).frames = rt.frames := by rw [release_eq]
  have left (rt : Runtime) (c : Call) (mark : Nat) (outcome : Outcome Val) :
      (rt.leaveCall c mark outcome).2.frames = rt.frames := by
    cases outcome with
    | value v => exact released rt mark (some v)
    | failure e => exact released rt mark none
    | panic message => rfl
  cases move with
  | act action => cases other
  | enterCall c =>
    rw [Machine.enterCall_after]
    split <;> rfl
  | refuseCall c mark => exact left ..
  | closeCall c mark outcome =>
    simp only [Move.run, closeCall, left]
    split <;> rfl
  | leaveScope mark outcome =>
    simp only [Move.run, Runtime.leaveScope]
    split
    · rfl
    · exact released ..
  | letGo mark outcome =>
    simp only [Move.run, Runtime.letGo]
    split
    · rfl
    · exact released ..
  | enterScope | restore => rfl

theorem outline_setLocal (fs : Frames) (i depth index : Nat) (v : Val) {j : Nat} {f : Frame}
    (slot : fs.store[j]? = some f) :
    ∃ f', (fs.setLocal i depth index v).2.store[j]? = some f' ∧ f'.outline = f.outline := by
  unfold Frames.setLocal
  split
  · simp only [Array.getElem?_modify, slot]
    split <;> exact ⟨_, rfl, rfl⟩
  · exact ⟨f, slot, rfl⟩

/-- A frame that was made is there from then on, and changes in its variables only. -/
theorem outline_move (move : Move) {j : Nat} {f : Frame} (slot : rt.frames.store[j]? = some f) :
    ∃ f', (move.run rt).2.frames.store[j]? = some f' ∧ f'.outline = f.outline := by
  have same {fs : Frames} (same : fs = rt.frames) :
      ∃ f', fs.store[j]? = some f' ∧ f'.outline = f.outline := ⟨f, same ▸ slot, rfl⟩
  cases other : move.isAct with
  | true =>
    cases move with
    | act action =>
      cases plain : action.isPlain with
      | true => exact same (frames_act plain rt)
      | false =>
        cases action with
        | newProc | newBound => exact same (frames_room rt)
        | setLocal i depth index v => exact outline_setLocal rt.frames i depth index v slot
        | _ => cases plain
    | _ => cases other
  | false =>
    rw [frames_move other]
    cases move with
    | enterCall c =>
      refine ⟨f, ?_, rfl⟩
      obtain ⟨there, -⟩ := Array.getElem?_eq_some_iff.mp slot
      simpa [Frames.push, Array.getElem?_push, Nat.ne_of_lt there] using slot
    | _ => exact same rfl

theorem outline_after (moves : List Move) {j : Nat} {f : Frame} (slot : rt.frames.store[j]? = some f) :
    ∃ f', (rt.after moves).frames.store[j]? = some f' ∧ f'.outline = f.outline := by
  induction moves generalizing rt f with
  | nil => exact ⟨f, slot, rfl⟩
  | cons move rest ih =>
    obtain ⟨f', slot', same⟩ := outline_move move slot
    obtain ⟨f'', slot'', same'⟩ := ih slot'
    exact ⟨f'', slot'', same'.trans same⟩

end Runtime
end ObjectRuntime
