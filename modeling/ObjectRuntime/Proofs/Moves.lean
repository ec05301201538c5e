import ObjectRuntime.Machine
import ObjectRuntime.Proofs.Singletons

/-! Moves. Whatever runs moves the state by primitive steps and by the steps that calls,
scopes and held values are made of. A move that is given nothing but what is reached keeps
a runtime intact, so a run of such moves does, however long it is. -/

namespace ObjectRuntime

/-- One change of state: a primitive step, or a step of running a call, a scope or a program that
holds a value. -/
inductive Move : Type 1
  | act {α : Type} (action : Action α)
  | enterCall (c : Call)
  | refuseCall (c : Call) (mark : Nat)
  | closeCall (c : Call) (mark : Nat) (outcome : Outcome Val)
  | enterScope
  | leaveScope (mark : Nat) (outcome : Outcome Val)
  | letGo (mark : Nat) (outcome : Outcome Unit)
  | restore (marks : Marks)

namespace Move

/-- What a move answers with. A call that is let in answers with its frame. -/
def Answer : Move → Type
  | @act α _ => α
  | enterCall _ => Option Nat
  | refuseCall _ _ | closeCall _ _ _ => Outcome Val
  | _ => Unit

def run : (move : Move) → Runtime → move.Answer × Runtime
  | act action, rt => action.run rt
  | enterCall c, rt =>
    match rt.openFrame c with
    | (frame, rt) => if rt.atLimit then (none, rt) else (some frame, rt.pushCall frame)
  | refuseCall c mark, rt => rt.refuseCall c mark
  | closeCall c mark outcome, rt => rt.closeCall c mark outcome
  | enterScope, rt => ((), rt.enterScope)
  | leaveScope mark outcome, rt => ((), rt.leaveScope mark outcome)
  | letGo mark outcome, rt => ((), rt.letGo mark outcome)
  | restore marks, rt => ((), rt.restore marks)

end Move

def Call.given : Call → List Val
  | method m receiver args block => receiver :: (m.children ++ args ++ block.toList)
  | proc p args block => .proc p :: (args ++ block.toList)

namespace Runtime

def PermitsMove (rt : Runtime) : Move → Prop
  | .act action => rt.Permits action
  | .enterCall c => ∀ v ∈ c.given, rt.Available v
  | .closeCall _ _ outcome | .leaveScope _ outcome => ∀ v, outcome = .value v → rt.Available v
  | _ => True

def after (rt : Runtime) (moves : List Move) : Runtime :=
  moves.foldl (fun rt move => (move.run rt).2) rt

def PermitsRun : Runtime → List Move → Prop
  | _, [] => True
  | rt, move :: rest => rt.PermitsMove move ∧ (move.run rt).2.PermitsRun rest

variable {rt rt' : Runtime}

/-! ## Primitive steps -/

theorem Intact.act (intact : rt.Intact) {α : Type} {action : Action α}
    (permitted : rt.Permits action) : (action.run rt).2.Intact := by
  have given := permitted.given
  have live (v : Val) (member : v ∈ action.given) : rt.heap.Holds v := intact.holds (given v member)
  cases action with
  | intern name => exact intact.intern name
  | report text => exact intact.aside ⟨⟨rfl, rfl, rfl⟩, rfl⟩ ⟨rfl, rfl⟩ ⟨rfl, rfl, rfl, rfl⟩
  | newArray cls elements =>
    refine intact.allocData rfl fun v held => given v ?_
    simpa [Cell.children, Action.given] using held
  | newTable cls =>
    refine intact.allocData rfl fun v held => given v ?_
    simpa [Cell.children, Action.given] using held
  | newString cls text => exact intact.allocData rfl given
  | newFloat x => exact intact.allocData rfl given
  | newObject cls =>
    refine intact.allocData rfl fun v held => given v ?_
    simpa [Cell.children, Table.values, Action.given] using held
  | newProc proc =>
    obtain ⟨bound, reached⟩ := permitted.captured proc.frame rfl
    refine intact.alloc reached ?_ ?_
    · intro p same
      cases same
      exact bound
    · intro m same
      cases same
  | newBound receiver method => exact intact.allocData rfl given
  | newModule => exact intact.newModule
  | collect => exact intact.collect
  | root v =>
    exact intact.addRoot (live v (by simp [Action.given])) ⟨⟨rfl, rfl, rfl⟩, rfl⟩ ⟨rfl, rfl⟩ rfl
      (fun _ => .inl) (fun _ => .inl) fun w => mem_register
  | unroot entry =>
    exact intact.addRoot (v := .nil) trivial ⟨⟨rfl, rfl, rfl⟩, rfl⟩ ⟨rfl, rfl⟩ rfl
      (fun _ => .inl) (fun _ => .inl) fun w member => .inl (mem_unregister member)
  | hold v => exact intact.hold (live v (by simp [Action.given]))
  | releaseTopLevel =>
    have released : (rt.release 0 none).Intact := intact.releaseAll 0
    simp only [Action.run, Runtime.releaseTopLevel]
    split
    · exact released
    · exact intact
  | setRatio ratio => exact intact.aside ⟨⟨rfl, rfl, rfl⟩, rfl⟩ ⟨rfl, rfl⟩ ⟨rfl, rfl, rfl, rfl⟩
  | push array v =>
    refine intact.modifyElements array fun elements w member => ?_
    rcases Array.mem_push.mp member with old | rfl
    · exact .inl old
    · exact .inr (live w (by simp [Action.given]))
  | put array index v =>
    refine intact.modifyElements array fun elements w member => ?_
    rcases Frames.mem_putAt member with old | rfl | rfl
    · exact .inl old
    · exact .inr (live w (by simp [Action.given]))
    · exact .inr trivial
  | insert table key v =>
    refine intact.modifyEntries table fun t e member => ?_
    rcases Table.mem_write member with old | rfl
    · exact .inl old
    · exact .inr ⟨live key (by simp [Action.given]), live v (by simp [Action.given])⟩
  | erase table key => exact intact.modifyEntries table fun t e member => .inl (Table.mem_drop member)
  | append string text => exact intact.modifyText string _
  | setIvar object name v =>
    refine intact.modifyObject object (fun _ => rfl) (fun _ _ => .inl) fun o w member => ?_
    rcases Table.mem_values_insert member with old | rfl
    · exact .inl old
    · exact .inr (live w (by simp [Action.given]))
  | setGlobal name v => exact intact.setGlobal name (live v (by simp [Action.given]))
  | eraseGlobal name =>
    exact intact.addRoot (v := .nil) trivial ⟨⟨rfl, rfl, rfl⟩, rfl⟩ ⟨rfl, rfl⟩ rfl
      (fun _ member => .inl (Table.mem_values_erase member)) (fun _ => .inl) fun _ => .inl
  | setLocal frame depth index v =>
    exact intact.setLocal frame depth index (live v (by simp [Action.given]))
  | subclass sup name tag => exact intact.subclass name tag (given _ (by simp [Action.given]))
  | setFinal m final => exact intact.setFinal m final
  | setConst m name v =>
    exact intact.setConst name (live _ (by simp [Action.given])) (live v (by simp [Action.given]))
  | findConst m name => exact intact.findConst m name
  | includeOnce m other => exact intact.includeOnce m (live _ (by simp [Action.given]))
  | ancestry m => exact intact.ancestry m
  | singletonClass v => exact intact.singletonClass (given v (by simp [Action.given]))
  | isA v m => exact intact.isA v m
  | failureClass e => exact intact.failureClass e
  | failureIsA e m => exact intact.failureIsA e m
  | defineMethod m name body arity =>
    refine intact.defineMethod name body arity (live _ ?_) fun p same => live _ ?_
    · cases body <;> simp [Action.given]
    · simp [Action.given, same]
  | aliasMethod m newName oldName =>
    exact intact.aliasMethod newName oldName (live _ (by simp [Action.given]))
  | removeMethod m name => exact intact.removeMethod m name
  | findMethod cls name after exclude =>
    exact intact.findMethod name after exclude (live _ (by simp [Action.given]))

/-! ## Calls and scopes -/

theorem Sound.captures (sound : rt.Sound) (p : Ref) :
    ((rt.proc? p).map (·.frame)).getD topFrame < rt.frames.store.size ∧
      ∀ v ∈ rt.frames.values (((rt.proc? p).map (·.frame)).getD topFrame), rt.heap.Holds v := by
  cases found : rt.proc? p with
  | none => exact ⟨sound.top, fun v held => sound.roots v (.top held)⟩
  | some q =>
    have cell : rt.heap.cell? p = some (.proc q) := by
      unfold proc? at found
      split at found
      next same =>
        cases found
        exact same
      next => cases found
    exact ⟨sound.captured p q cell, sound.cells p _ cell⟩

theorem mem_values_of_slot (sound : rt.Sound) {i : Nat} (bound : i < rt.frames.store.size) :
    (rt.frames.store.getD i default).self ∈ rt.frames.values i ∧
      .module (rt.frames.store.getD i default).lexicalModule ∈ rt.frames.values i := by
  have slot : rt.frames.store[i]? = some (rt.frames.store.getD i default) := by
    simp [bound]
  rw [Frames.values_eq sound.nested slot]
  simp [Frame.values]

theorem Sound.callFrame (sound : rt.Sound) {c : Call} (given : ∀ v ∈ c.given, rt.Available v) :
    (∀ p, (rt.callFrame c).parent = some p → p < rt.frames.store.size ∧
      ∀ v ∈ rt.frames.values p, rt.heap.Holds v) ∧
      ∀ v ∈ (rt.callFrame c).values, rt.heap.Holds v := by
  have live (v : Val) (member : v ∈ c.given) : rt.heap.Holds v :=
    sound.holds_available (given v member)
  cases c with
  | proc p args block =>
    obtain ⟨bound, held⟩ := sound.captures p
    obtain ⟨self, lexical⟩ := mem_values_of_slot sound bound
    refine ⟨fun q parent => ?_, fun v member => ?_⟩
    · cases parent
      exact ⟨bound, held⟩
    · simp only [Runtime.callFrame, Frame.values, Option.toList_none, List.flatMap_nil,
        List.nil_append, List.mem_cons, List.mem_append, List.append_nil] at member
      rcases member with rfl | rfl | block | arg
      · exact held _ self
      · exact held _ lexical
      · exact live v (by simp [Call.given] at block ⊢; exact .inr (.inr block))
      · exact live v (by simp [Call.given, arg])
  | method m receiver args block =>
    have own (lexicalModule : Ref) (lexical : rt.heap.Holds (.module lexicalModule))
        (parent : Option Nat) (v : Val) (member : v ∈ Frame.values
          { parent, self := receiver, method := some m, lexicalModule, args, block }) :
        rt.heap.Holds v := by
      simp only [Frame.values, Option.toList_some, List.flatMap_cons, List.flatMap_nil,
        List.append_nil, List.mem_cons, List.mem_append] at member
      rcases member with rfl | rfl | (method | block) | arg
      · exact live v (by simp [Call.given])
      · exact lexical
      · exact live v (by simp [Call.given, method])
      · exact live v (by simp [Call.given, block])
      · exact live v (by simp [Call.given, arg])
    have owner : rt.heap.Holds (.module m.owner) := live _ (by simp [Call.given, Method.children])
    cases body : m.body with
    | proc p =>
      obtain ⟨bound, held⟩ := sound.captures p
      simp only [Runtime.callFrame, body]
      refine ⟨fun q parent => ?_, own _ (held _ (mem_values_of_slot sound bound).2) _⟩
      cases parent
      exact ⟨bound, held⟩
    | native code =>
      simp only [Runtime.callFrame, body]
      exact ⟨fun _ parent => (nomatch parent), own _ owner none⟩
    | closure code =>
      simp only [Runtime.callFrame, body]
      exact ⟨fun _ parent => (nomatch parent), own _ owner none⟩

theorem Intact.pushCall (intact : rt.Intact) {frame : Nat}
    (bound : frame < rt.frames.store.size)
    (held : ∀ v ∈ rt.frames.values frame, rt.heap.Holds v) : (rt.pushCall frame).Intact := by
  refine intact.reroot ⟨⟨rfl, rfl, rfl⟩, rfl⟩ ⟨rfl, rfl⟩ (fun i member => ?_) fun v root => ?_
  · rcases Array.mem_push.mp member with old | rfl
    · exact intact.sound.running i old
    · exact bound
  · cases root with
    | core c member => exact intact.sound.roots _ (.core c member)
    | top held => exact intact.sound.roots _ (.top held)
    | global held => exact intact.sound.roots _ (.global held)
    | handle held => exact intact.sound.roots _ (.handle held)
    | registered held => exact intact.sound.roots _ (.registered held)
    | pinned slot occupied pinned => exact intact.sound.roots _ (.pinned slot occupied pinned)
    | running member here =>
      rcases Array.mem_push.mp member with old | rfl
      · exact intact.sound.roots v (.running old here)
      · exact held v here

theorem Intact.openCall (intact : rt.Intact) {c : Call} (given : ∀ v ∈ c.given, rt.Available v) :
    (rt.openFrame c).2.Intact ∧ ((rt.openFrame c).2.pushCall (rt.openFrame c).1).Intact := by
  obtain ⟨parents, own⟩ := intact.sound.callFrame given
  have nested (p : Nat) (parent : (rt.callFrame c).parent = some p) :
      p < rt.frames.store.size := (parents p parent).1
  have made : (rt.openFrame c).2.Intact :=
    intact.keep (intact.sound.pushFrame nested) (fun _ m found => ⟨m, found, rfl, rfl, .inr rfl⟩)
      rfl fun _ member => ⟨member, id⟩
  have bound : (rt.openFrame c).1 < (rt.openFrame c).2.frames.store.size := by
    simp [openFrame, Frames.push]
  refine ⟨made, made.pushCall bound fun v here => ?_⟩
  have values := Frames.values_push_self intact.sound.nested (f := rt.callFrame c) nested
  change v ∈ (rt.frames.push (rt.callFrame c)).2.values (rt.frames.push (rt.callFrame c)).1 at here
  rw [values] at here
  rcases List.mem_append.mp here with mine | around
  · exact own v mine
  · cases parent : (rt.callFrame c).parent with
    | none => simp [parent] at around
    | some p =>
      simp only [parent] at around
      exact (parents p parent).2 v around

theorem Intact.leaveCalls (intact : rt.Intact) (calls : Array Nat)
    (fewer : ∀ i ∈ calls, i ∈ rt.calls) : Intact { rt with calls } := by
  have same : SameStore rt { rt with calls } := ⟨⟨rfl, rfl, rfl⟩, rfl⟩
  refine intact.reroot same ⟨rfl, rfl⟩ (fun i member => intact.sound.running i (fewer i member))
    fun v root => intact.sound.roots v ?_
  have old := same.root (P := fun _ => False) fewer (fun _ => .inl) (fun _ => .inl) (fun _ => .inl) root
  exact old.resolve_right id

theorem Intact.popCall (intact : rt.Intact) : rt.popCall.Intact := by
  refine intact.leaveCalls rt.calls.pop fun i member => ?_
  rw [← Array.mem_toList_iff] at member ⊢
  rw [Array.toList_pop] at member
  exact (List.dropLast_sublist _).mem member

theorem Intact.leaveCall (intact : rt.Intact) (c : Call) (mark : Nat) {outcome : Outcome Val}
    (live : ∀ v, outcome = .value v → rt.heap.Holds v) : (rt.leaveCall c mark outcome).2.Intact := by
  cases outcome with
  | value v =>
    have released : (rt.release mark (some v)).Intact := intact.release mark fun w same => by
      cases same
      exact live v rfl
    exact released
  | failure e =>
    have released : (rt.release mark none).Intact := intact.releaseAll mark
    exact released
  | panic message => exact intact

theorem Intact.move (intact : rt.Intact) {move : Move} (permitted : rt.PermitsMove move) :
    (move.run rt).2.Intact := by
  have result {outcome : Outcome Val} (available : ∀ v, outcome = .value v → rt.Available v)
      (v : Val) (same : outcome = .value v) : rt.heap.Holds v := intact.holds (available v same)
  cases move with
  | act action => exact intact.act permitted
  | enterCall c =>
    obtain ⟨made, running⟩ := intact.openCall permitted
    simp only [Move.run]
    split
    · exact made
    · exact running
  | refuseCall c mark => exact intact.leaveCall c mark fun v same => by cases same
  | closeCall c mark outcome =>
    simp only [Move.run, Runtime.closeCall]
    split
    · exact intact.leaveCall c mark (result permitted)
    · exact intact.popCall.leaveCall c mark (result permitted)
  | enterScope => exact intact.aside ⟨⟨rfl, rfl, rfl⟩, rfl⟩ ⟨rfl, rfl⟩ ⟨rfl, rfl, rfl, rfl⟩
  | leaveScope mark outcome =>
    have left : Intact { rt with scopes := rt.scopes - 1 } :=
      intact.aside ⟨⟨rfl, rfl, rfl⟩, rfl⟩ ⟨rfl, rfl⟩ ⟨rfl, rfl, rfl, rfl⟩
    simp only [Move.run, Runtime.leaveScope]
    split
    · exact intact
    · refine left.release mark fun v kept => ?_
      split at kept
      · cases kept
      · cases outcome with
        | value w =>
          cases kept
          exact result permitted v rfl
        | _ => cases kept
  | letGo mark outcome =>
    simp only [Move.run, Runtime.letGo]
    split
    · exact intact
    · exact intact.releaseAll mark
  | restore marks =>
    have fewer : Intact { rt with calls := rt.calls.take marks.calls } :=
      intact.leaveCalls _ fun _ => mem_of_mem_take
    have released : (Runtime.release { rt with calls := rt.calls.take marks.calls }
        marks.handles none).Intact := fewer.releaseAll marks.handles
    exact released.aside ⟨⟨rfl, rfl, rfl⟩, rfl⟩ ⟨rfl, rfl⟩ ⟨rfl, rfl, rfl, rfl⟩

theorem Intact.after (intact : rt.Intact) {moves : List Move} (permitted : rt.PermitsRun moves) :
    (rt.after moves).Intact := by
  induction moves generalizing rt with
  | nil => exact intact
  | cons move rest ih => exact ih (intact.move permitted.1) permitted.2

end Runtime
end ObjectRuntime
