import ObjectRuntime.Proofs.Held
import ObjectRuntime.Proofs.Membership

/-! Owners. A method may come into the table of a module through aliases of aliases, but its owner
is the module or stands above it, and stays there. So super always finds the owner of the method
that it is called from in the ancestry that it searches. -/

namespace ObjectRuntime.Runtime

variable {rt rt' : Runtime} {allowed : Editing} {r a : Ref} {v : Val} {m : Method}

/-- What is in the table of a module is owned by the module or by one above it. -/
def OwnedAbove (rt : Runtime) : Prop :=
  ∀ r mod, rt.module? r = some mod → ∀ m ∈ mod.methods.values, Above rt.parents r m.owner

/-- An edit that enters a method enters one that is owned by the module or by one above it. -/
def EntersOwned : Editing := fun rt r e => ∀ name x, e = .enter name x → Above rt.parents r x.owner

/-! ## Edges -/

theorem SameOutlines.parents (same : SameOutlines rt rt') : rt'.parents = rt.parents := by
  funext r
  have outlines := same.modules r
  simp only [Runtime.parents]
  cases found : rt.module? r with
  | none =>
    rw [found, Option.map_none, Option.map_eq_none_iff] at outlines
    rw [outlines]
  | some mod =>
    obtain ⟨mod', found', outline⟩ := same.later found
    rw [found']
    exact Module.of_outline outline Module.parents

theorem parents_collect {k : Kind} (reached : rt.Reaches (.cell k r)) :
    rt.collect.parents r = rt.parents r := by
  simp only [Runtime.parents, module?, cell?_collect_of_reaches reached]

/-- A collection leaves what stands above a module that it keeps. -/
theorem above_collect {k : Kind} (reached : rt.Reaches (.cell k r))
    (above : Above rt.parents r a) : Above rt.collect.parents r a := by
  induction above generalizing k with
  | self r => exact .self r
  | @parent r p a edge _ ih =>
    have higher : rt.Reaches (.module p) := by
      cases found : rt.module? r with
      | none => simp [Runtime.parents, found] at edge
      | some mod =>
        rw [Runtime.parents, found] at edge
        exact .child reached ((module?_eq_some ..).mp found)
          (Module.mem_children.mpr (.parent edge))
    exact .parent (parents_collect reached ▸ edge) (ih higher)

theorem parents_place (wf : rt.heap.WellFormed) (c : Cell) (x p : Ref) (edge : p ∈ rt.parents x) :
    p ∈ (rt.place c).2.parents x :=
  (Widens.place rt c).parents wf x p edge

theorem parents_edit (rt : Runtime) (m : Ref) (e : Edit) (x p : Ref) (edge : p ∈ rt.parents x) :
    p ∈ (rt.modifyModule m e.apply).parents x := by
  simp only [Runtime.parents, module?_modifyModule] at edge ⊢
  split
  next same =>
    subst same
    cases found : rt.module? x with
    | none => simp [found] at edge
    | some mod =>
      simp only [found, Option.map_some, Option.getD_some] at edge ⊢
      cases e with
      | addInclude other => exact List.mem_cons_of_mem _ edge
      | _ => exact edge
  next => exact edge

/-! ## Changes -/

/-- No change leaves an entry without its owner above, when none enters one. -/
theorem Change.ownedAbove (change : Change EntersOwned rt rt') (wf : rt.heap.WellFormed)
    (owned : rt.OwnedAbove) : rt'.OwnedAbove := by
  intro r mod found m entry
  cases change with
  | quiet same =>
    obtain ⟨mod', found', outline⟩ := same.before found
    rw [same.parents]
    refine owned r mod' found' m ?_
    rwa [Module.of_outline outline (·.methods)]
  | collect =>
    obtain ⟨cell, k, reached⟩ := (Heap.cell?_collect ..).mp ((module?_eq_some ..).mp found)
    exact above_collect reached (owned r mod ((module?_eq_some ..).mpr cell) m entry)
  | place c bare =>
    rw [module?_eq_some, cell?_place wf] at found
    split at found
    next =>
      cases found
      rw [((Cell.isBare_module mod).mp bare).2.1] at entry
      cases entry
    next => exact (owned r mod ((module?_eq_some ..).mpr found) m entry).mono (parents_place wf c)
  | edit m' e may =>
    refine Above.mono ?_ (parents_edit rt m' e)
    rw [module?_modifyModule] at found
    split at found
    next same =>
      subst same
      obtain ⟨mod', found', rfl⟩ := Option.map_eq_some_iff.mp found
      have old := owned r mod' found' m
      cases e with
      | enter name x =>
        rcases Table.mem_values_insert entry with before | rfl
        · exact old before
        · exact may name m rfl
      | remove name => exact old (Table.mem_values_erase entry)
      | _ => exact old entry
    next => exact owned r mod found m entry

/-! ## Moves -/

/-- What a lookup finds is owned by the class or by a module above it. -/
theorem OwnedAbove.found (owned : rt.OwnedAbove) (intact : rt.Intact) {cls : Ref}
    (live : rt.heap.Holds (.module cls)) {name : Sym} {after exclude : Option Method}
    (found : (rt.findMethod cls name after exclude).1 = some m) : Above rt.parents cls m.owner := by
  obtain ⟨⟨above, linear, answer⟩, -⟩ :=
    findMethod_spec intact.sound intact.faithful live name after exclude
  have listed : ∃ a ∈ above, rt.method? a name = some m := by
    rw [found] at answer
    cases after with
    | none => exact method?_of_firstEntry answer.symm
    | some x =>
      obtain ⟨a, member, entry⟩ := method?_of_firstEntry answer.symm
      exact ⟨a, mem_of_mem_behind member, entry⟩
  obtain ⟨a, member, entry⟩ := listed
  obtain ⟨mod, there, entered⟩ := Option.bind_eq_some_iff.mp entry
  exact (linear.mem_iff.mp member).trans (owned a mod there m (Table.mem_values_of_get entered))

/-- An alias enters what a lookup finds. -/
theorem entersOwned_alias (intact : rt.Intact) (owned : rt.OwnedAbove) {m : Ref}
    (live : rt.heap.Holds (.module m)) (newName oldName : Sym) :
    Changes EntersOwned rt (rt.aliasMethod m newName oldName).2 := by
  have same := findMethod_forget rt m oldName none none
  have higher {x : Method} (found : (rt.findMethod m oldName none none).1 = some x) :
      Above rt.parents m x.owner := owned.found intact live found
  unfold aliasMethod
  generalize rt.findMethod m oldName none none = searched at same higher ⊢
  obtain ⟨found, rt₁⟩ := searched
  cases found with
  | none => exact Changes.quiet (.of_forget same)
  | some x =>
    have walked : Changes EntersOwned rt rt₁ := Changes.quiet (.of_forget same)
    refine walked.trans (Changes.edit m (.enter newName x) (fun name y entered => ?_) ⟨rfl, rfl, rfl⟩)
    cases entered
    rw [← parents_forget, same, parents_forget]
    exact higher rfl

theorem entersOwned_move (intact : rt.Intact) (owned : rt.OwnedAbove) {move : Move}
    (permitted : rt.PermitsMove move) : Changes EntersOwned rt (move.run rt).2 := by
  cases aliases : move.isAlias with
  | false =>
    refine (Changes.move intact permitted).mono fun rt r e edits name x entered => ?_
    subst entered
    rw [owner_of_edits aliases edits]
    exact .self r
  | true =>
    cases move with
    | act action =>
      cases action with
      | aliasMethod m newName oldName =>
        exact entersOwned_alias intact owned
          (intact.holds (permitted.given _ (List.mem_singleton_self _))) newName oldName
      | _ => cases aliases
    | _ => cases aliases

theorem ownedAbove_after {moves : List Move} (intact : rt.Intact) (owned : rt.OwnedAbove)
    (permitted : rt.PermitsRun moves) : (rt.after moves).OwnedAbove := by
  induction moves generalizing rt with
  | nil => exact owned
  | cons move rest ih =>
    refine ih (intact.move permitted.1) ?_ permitted.2
    exact (entersOwned_move intact owned permitted.1).keep (P := OwnedAbove)
      (fun wf owned change => change.ownedAbove wf owned) intact.sound.heap owned

theorem ownedAbove_boot (config : Config) : (boot config).OwnedAbove := by
  have started : Changes EntersOwned (bare config) (boot config) := by
    refine (Changes.boot config).mono fun rt r e starting name x entered => ?_
    subst entered
    cases starting
    exact .self _
  refine started.keep (P := OwnedAbove) (fun wf owned change => change.ownedAbove wf owned)
    (intact_bare config).sound.heap fun r mod found m entry => ?_
  rw [((Cell.isBare_module mod).mp (bare_module found).1).2.1] at entry
  cases entry

/-! ## Super -/

/-- The ancestry that super searches for `v` lists the owner of the method, and super calls the
first entry behind the owner. It fails only when there is none. -/
def SupersFromOwner (rt : Runtime) (v : Val) (m : Method) : Prop :=
  ∃ front rest, (rt.ancestry (rt.classOf v)).1 = front ++ m.owner :: rest ∧ m.owner ∉ front ∧
    ∀ frame, rt.frames.currentMethod frame = some m → ∃ left, left.forget = rt.forget ∧
      ∀ {η : Type} (caller : Machine.Caller η) unwinding args block host,
        Machine.step caller unwinding (Program.superSend frame v args block) rt host =
          Machine.step caller unwinding
            (match rt.firstEntry m.name none rest with
              | some next => Program.callMethod next v args block
              | none => Program.lacksSuper m v) left host

theorem behind_of_append {owner : Ref} {front : List Ref} (absent : owner ∉ front)
    (rest : List Ref) : behind owner (front ++ owner :: rest) = rest := by
  induction front with
  | nil => exact if_pos rfl
  | cons first front ih =>
    rw [List.mem_cons, not_or] at absent
    rw [List.cons_append, behind, if_neg (Ne.symm absent.1), ih absent.2]

theorem Intact.supersFromOwner (intact : rt.Intact) (live : rt.heap.Holds v)
    (above : Above rt.parents (rt.classOf v) m.owner) : rt.SupersFromOwner v m := by
  obtain ⟨linear, -⟩ := ancestry_spec intact.sound intact.faithful (rt.classOf v)
  obtain ⟨front, rest, split, absent⟩ := List.eq_append_cons_of_mem (linear.mem_iff.mpr above)
  refine ⟨front, rest, split, absent, fun frame running => ?_⟩
  obtain ⟨above', left, linear', same, goesOn⟩ := intact.supersBehind running live
  rw [linear'.unique linear, split, behind_of_append absent] at goesOn
  exact ⟨left, same, goesOn⟩

/-- In every run that makes objects of classes only, the owner of each entry of a method table is in
the ancestry of the module of the table, however the entry came there. The owner of what a message
to a value finds, or super, is in the ancestry of the class of the value, at once and as long as the
value is there, and super goes on behind it. -/
theorem owners_stay_above (config : Config) (moves : List Move)
    (permitted : (boot config).PermitsRun moves) (classes : Instances IsClass (boot config) moves) :
    let rt := (boot config).after moves
    (∀ r mod, rt.module? r = some mod → ∀ m ∈ mod.methods.values, m.owner ∈ (rt.ancestry r).1) ∧
    ∀ v name after exclude m, rt.heap.Holds v →
      (rt.findMethod (rt.classOf v) name after exclude).1 = some m →
        rt.SupersFromOwner v m ∧
        ∀ later, rt.PermitsRun later → Instances IsClass rt later →
          (rt.after later).heap.Holds v →
          (∀ k r, v = .cell k r → timesFreed r.index rt later < 2 ^ 32) →
            (rt.after later).SupersFromOwner v m := by
  have intact := (intact_boot config).after permitted
  have owned := ownedAbove_after (intact_boot config) (ownedAbove_boot config) permitted
  obtain ⟨mirrored, classy⟩ := classy_run config permitted classes
  generalize (boot config).after moves = rt at intact owned mirrored classy ⊢
  refine ⟨fun r mod found m entry => ?_, fun v name after exclude m live found => ?_⟩
  · obtain ⟨linear, -⟩ := ancestry_spec intact.sound intact.faithful r
    exact linear.mem_iff.mpr (owned r mod found m entry)
  · have above := owned.found intact (intact.sound.holds_classOf live) found
    refine ⟨intact.supersFromOwner live above, fun later permitted classes still few => ?_⟩
    refine (intact.after permitted).supersFromOwner still ?_
    refine above_run intact mirrored classy permitted classes live (fun k r same => ?_) above
    subst same
    exact timesFreed_eq_zero live still (few k r rfl)

/-- The method of the first module, which the object finds through the alias, is owned by a module
that the ancestry still lists when the object and its class have singleton classes. -/
theorem aliased_owner_stays : let rt := (boot {}).after aliasing
    ((boot {}).PermitsRun aliasing ∧ Instances IsClass (boot {}) aliasing ∧
      rt.PermitsRun deepening ∧ Instances IsClass rt deepening) ∧
    (rt.after deepening).classOf (.object ⟨42, 0⟩) ≠ rt.classOf (.object ⟨42, 0⟩) ∧
    ∃ m, (rt.findMethod (rt.classOf (.object ⟨42, 0⟩)) ⟨40⟩ none none).1 = some m ∧
      m.owner = ⟨38, 0⟩ ∧ (rt.after deepening).SupersFromOwner (.object ⟨42, 0⟩) m := by
  have permitted : ((boot {}).after aliasing).PermitsRun deepening := by
    refine ⟨.of_roots (fun _ member => nomatch member) rfl,
      .of_roots (List.forall_mem_cons.mpr ⟨.handle ?_, List.forall_mem_singleton.mpr (.handle ?_)⟩) rfl,
      .of_roots (List.forall_mem_singleton.mpr (.handle ?_)) rfl,
      .of_roots (List.forall_mem_singleton.mpr (.handle ?_)) rfl,
      .of_roots (fun _ member => nomatch member) rfl, trivial⟩
    all_goals decide +kernel
  have classes : Instances IsClass (boot {}) aliasing := by
    refine ⟨nofun, nofun, nofun, nofun, nofun, nofun, nofun, nofun, nofun, fun cls made => ?_, trivial⟩
    cases made
    decide +kernel
  have classes' : Instances IsClass ((boot {}).after aliasing) deepening :=
    ⟨nofun, nofun, nofun, nofun, nofun, trivial⟩
  have facts : timesFreed 42 ((boot {}).after aliasing) deepening < 2 ^ 32 ∧
      (((boot {}).after aliasing).after deepening).classOf (.object ⟨42, 0⟩) ≠
        ((boot {}).after aliasing).classOf (.object ⟨42, 0⟩) ∧
      (((boot {}).after aliasing).findMethod (((boot {}).after aliasing).classOf (.object ⟨42, 0⟩))
        ⟨40⟩ none none).1.map (·.owner) = some ⟨38, 0⟩ ∧
      ((boot {}).after aliasing).heap.Holds (.object ⟨42, 0⟩) ∧
      (((boot {}).after aliasing).after deepening).heap.Holds (.object ⟨42, 0⟩) := by
    decide +kernel
  obtain ⟨few, changed, answer, before, after⟩ := facts
  obtain ⟨m, found, owner⟩ := Option.map_eq_some_iff.mp answer
  refine ⟨⟨permits_aliasing, classes, permitted, classes'⟩, changed, m, found, owner, ?_⟩
  refine ((owners_stay_above {} aliasing permits_aliasing classes).2 _ _ _ _ m before found).2
    deepening permitted classes' after fun k r same => ?_
  cases same
  exact few

end ObjectRuntime.Runtime
