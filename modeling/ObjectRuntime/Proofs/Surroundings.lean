import ObjectRuntime.Proofs.Changes

/-! Modules inside modules. A module lies in the one that first bound it under a name, and a
constant is searched for from the inside out. Only binding a module that has no name yet puts a
module inside another, and modules go round in a circle only when one is bound somewhere inside
itself; otherwise every search ends. -/

namespace ObjectRuntime

def Move.isBinding : Move → Bool
  | .act (.setConst _ _ _) => true
  | _ => false

namespace Runtime

/-- The module around a module, if there is one. -/
def outer (rt : Runtime) (m : Ref) : List Ref :=
  ((rt.module? m).bind (·.lexicalParent)).toList

/-- No module lies inside itself. -/
def Nested (rt : Runtime) : Prop := ∀ m, ∃ around, Linear rt.outer m around

variable {rt rt' : Runtime}

theorem mem_outer {m p : Ref} :
    p ∈ rt.outer m ↔ ∃ mod, rt.module? m = some mod ∧ mod.lexicalParent = some p := by
  rw [outer, Option.mem_toList, Option.bind_eq_some_iff]

/-! ## Searching -/

theorem Sound.holds_outer (sound : rt.Sound) {m p : Ref} (member : p ∈ rt.outer m) :
    rt.heap.Holds (.module p) := by
  obtain ⟨mod, found, lexical⟩ := mem_outer.mp member
  exact sound.cells m _ ((module?_eq_some ..).mp found) _ (Module.mem_children.mpr (.lexical lexical))

theorem Sound.holds_around (sound : rt.Sound) {m a : Ref} (around : Above rt.outer m a)
    (live : rt.heap.Holds (.module m)) : rt.heap.Holds (.module a) := by
  induction around with
  | self => exact live
  | parent member _ ih => exact ih (sound.holds_outer member)

theorem Sound.around_le (sound : rt.Sound) {m : Ref} {around : List Ref}
    (linear : Linear rt.outer m around) : around.length ≤ rt.heap.slots.size + 1 := by
  by_cases live : rt.heap.Holds (.module m)
  · exact Nat.le_succ_of_le (length_le_of_held linear.nodup fun a member =>
      sound.holds_around (linear.mem_iff.mp member) live)
  · have alone : rt.outer m = [] := by
      cases found : rt.module? m with
      | none => simp [outer, found]
      | some mod => exact absurd (holds_of_module found) live
    rw [linear.unique (.alone alone), List.length_singleton]
    omega

theorem searchLexical_ends (name : Sym) (fuel : Nat) {m : Ref} {around : List Ref}
    (linear : Linear rt.outer m around) (enough : around.length ≤ fuel) :
    rt.searchLexical name fuel m ≠ .endless := by
  induction fuel generalizing m around with
  | zero => exact absurd linear.length_pos (by omega)
  | succ fuel ih =>
    rw [searchLexical]
    cases found : rt.module? m with
    | none => simp
    | some mod =>
      simp only
      cases mod.consts.get? name with
      | some v => simp
      | none =>
        cases lexical : mod.lexicalParent with
        | none => simp
        | some p =>
          obtain ⟨around', linear', shorter⟩ :=
            linear.of_parent (mem_outer.mpr ⟨mod, found, lexical⟩)
          exact ih linear' (by omega)

/-- Among modules that lie in each other, a name that none of them binds is searched for without
end. -/
theorem searchLexical_endless {name : Sym} {C : Ref → Prop}
    (round : ∀ m, C m → rt.const? m name = none ∧ ∃ p ∈ rt.outer m, C p) (fuel : Nat)
    {m : Ref} (inside : C m) : rt.searchLexical name fuel m = .endless := by
  induction fuel generalizing m with
  | zero => rfl
  | succ fuel ih =>
    obtain ⟨unbound, p, member, inside'⟩ := round m inside
    obtain ⟨mod, found, lexical⟩ := mem_outer.mp member
    simp only [const?, found, Option.bind_some] at unbound
    simp only [searchLexical, found, unbound, lexical]
    exact ih inside'

/-- In nested modules every constant is resolved, or fails with an error that says so. -/
theorem Nested.findConst (nested : rt.Nested) (sound : rt.Sound) (m : Ref) (name : Sym) :
    (∃ v, (rt.findConst m name).1 = some (.ok v)) ∨
      ∃ message, (rt.findConst m name).1 = some (.error (.nameError message)) := by
  obtain ⟨around, linear⟩ := nested m
  have ends := searchLexical_ends name _ linear (sound.around_le linear)
  unfold Runtime.findConst
  split
  next v _ => exact .inl ⟨v, rfl⟩
  next same => exact absurd same ends
  next =>
    unfold searchAncestry
    simp only
    split
    next v _ => exact .inl ⟨v, rfl⟩
    next =>
      split
      next v _ => exact .inl ⟨v, rfl⟩
      next => exact .inr ⟨_, rfl⟩

/-! ## Enclosing -/

/-- A move that binds a module without a name into itself, or into one that lies inside it. -/
inductive Closes (rt : Runtime) : Move → Prop
  | binds {m bound : Ref} {mod : Module} (name : Sym) (found : rt.module? bound = some mod)
      (unnamed : mod.name = none) (inside : Above rt.outer m bound) :
      Closes rt (.act (.setConst m name (.module bound)))

theorem Closes.isBinding {move : Move} (closes : rt.Closes move) : move.isBinding = true := by
  cases closes
  rfl

def NeverCloses : Runtime → List Move → Prop
  | _, [] => True
  | rt, move :: rest => ¬ rt.Closes move ∧ (move.run rt).2.NeverCloses rest

/-- Without an enclosing edit no module gets another one around it. -/
theorem outer_subset {allowed : Editing} (changes : Changes allowed rt rt')
    (never : ∀ rt m p name, ¬ allowed rt m (.enclose p name)) (wf : rt.heap.WellFormed) (m : Ref) :
    ∀ p ∈ rt'.outer m, p ∈ rt.outer m := by
  intro p member
  obtain ⟨mod, found, lexical⟩ := mem_outer.mp member
  refine changes.each (Q := fun r mod => ∀ p, mod.lexicalParent = some p → p ∈ rt.outer r)
    (fun same old p lexical => ?_) (fun bare p lexical => ?_) (fun {_ _ _ e} allows _ old => ?_) wf
    (fun r mod found p lexical => mem_outer.mpr ⟨mod, found, lexical⟩) m mod found p lexical
  · exact old p (Module.of_outline same (·.lexicalParent) ▸ lexical)
  · rw [((Cell.isBare_module _).mp bare).2.2] at lexical
    cases lexical
  · cases e with
    | enclose p name => exact absurd allows (never _ _ p name)
    | _ => exact old

theorem Nested.mono (nested : rt.Nested) (fewer : ∀ m, ∀ p ∈ rt'.outer m, p ∈ rt.outer m) :
    rt'.Nested :=
  Linear.exists_of_fewer nested fewer

theorem SameOutlines.outer (same : SameOutlines rt rt') : rt'.outer = rt.outer := by
  have lexical (found : Option Module) : (found.map Module.outline).bind (·.lexicalParent) =
      found.bind (·.lexicalParent) := by
    cases found <;> rfl
  funext r
  simp only [Runtime.outer]
  rw [← lexical, same.modules, lexical]

/-- A module that is bound before it has a name comes to lie in the module that binds it. -/
theorem outer_setConst {m bound : Ref} (name : Sym) {mod : Module}
    (found : rt.module? bound = some mod) (unnamed : mod.name = none) (r : Ref) :
    (rt.setConst m name (.module bound)).outer r = if r = bound then [m] else rt.outer r := by
  have written : rt.setConst m name (.module bound) =
      (rt.modifyModule bound (Edit.enclose m (rt.constName m name)).apply).modifyModule m
        fun mod => { mod with consts := mod.consts.insert name (.module bound) } := by
    cases mod
    cases unnamed
    simp only [setConst, found]
    rfl
  have rest := SameOutlines.modifyModule (rt.modifyModule bound (Edit.enclose m
    (rt.constName m name)).apply) m (f := fun mod => { mod with
      consts := mod.consts.insert name (.module bound) }) fun _ => rfl
  rw [written, rest.outer]
  simp only [outer, module?_modifyModule]
  split
  next => simp [found, Edit.apply]
  next => rfl

/-- Binding a constant keeps modules nested just when it does not close a circle. -/
theorem nested_setConst (nested : rt.Nested) (m : Ref) (name : Sym) (v : Val) :
    (rt.setConst m name v).Nested ↔ ¬ rt.Closes (.act (.setConst m name v)) := by
  by_cases encloses : ∃ bound mod, v = .module bound ∧ rt.module? bound = some mod ∧ mod.name = none
  · obtain ⟨bound, mod, rfl, found, unnamed⟩ := encloses
    have edges := outer_setConst (m := m) name found unnamed
    constructor
    · rintro after ⟨_, _, _, inside⟩
      obtain ⟨around, linear⟩ := after bound
      refine linear.acyclic (by rw [edges, if_pos rfl]; exact List.mem_singleton.mpr rfl)
        (inside.upto fun x apart => ?_)
      rw [edges, if_neg apart]
    · intro free
      refine Linear.exists_of_edges (m := bound) [m] nested (fun x apart => ?_) (fun p member => ?_)
        fun p member inside => ?_
      · rw [edges, if_neg apart]
      · rw [edges, if_pos rfl] at member
        exact .inl member
      · rw [List.mem_singleton.mp member] at inside
        exact free (.binds name found unnamed inside)
  · have same : SameOutlines rt (rt.setConst m name v) :=
      .setConst m name fun bound mod isModule found unnamed =>
        encloses ⟨bound, mod, isModule, found, unnamed⟩
    constructor
    · rintro - ⟨_, found, unnamed, -⟩
      exact encloses ⟨_, _, rfl, found, unnamed⟩
    · intro _
      rw [Nested, same.outer]
      exact nested

/-- A module that was just made lies around none, so that naming it closes no circle. -/
theorem fresh_never_closes (sound : rt.Sound) {c : Module} {m : Ref}
    (reached : rt.Reaches (.module m)) (name : Sym) : ¬ (rt.alloc (.module c)).2.Closes
      (.act (.setConst m name (.module (rt.alloc (.module c)).1))) := by
  rw [alloc_eq]
  -- what lies inside the new module would have been inside something that was not there
  have apart {x r : Ref} (inside : Above (rt.room.place (.module c)).2.outer x r)
      (live : rt.room.heap.Holds (.module x)) : rt.room.heap.Holds (.module r) := by
    induction inside with
    | self => exact live
    | parent member _ ih =>
      rw [outer, module?_place sound.room.heap _ (Heap.isLive_of_holds live)] at member
      exact ih (sound.room.holds_outer member)
  rintro ⟨_, _, _, inside⟩
  obtain ⟨c', found, -⟩ := apart inside (sound.room.holds reached.room)
  rw [place_fresh sound.room.heap] at found
  cases found

theorem subclass_never_closes (sound : rt.Sound) {m sup r : Ref} {text : Option String}
    {tag : Option Tag} (reached : rt.Reaches (.module m)) (name : Sym)
    (made : rt.subclass sup text tag = (.ok r, rt')) :
    ¬ rt'.Closes (.act (.setConst m name (.module r))) := by
  rcases subclass_cases rt sup text tag with ⟨e, same⟩ | ⟨_, c, -, same⟩
  · cases same.symm.trans made
  · cases same.symm.trans made
    exact fresh_never_closes sound reached name

/-! ## Runs -/

theorem Nested.move (nested : rt.Nested) (intact : rt.Intact) {move : Move}
    (permitted : rt.PermitsMove move) (free : ¬ rt.Closes move) : (move.run rt).2.Nested := by
  by_cases binds : ∃ m name v, move = .act (.setConst m name v)
  · obtain ⟨m, name, v, rfl⟩ := binds
    exact (nested_setConst nested m name v).mpr free
  · refine nested.mono (outer_subset (Changes.move intact permitted) (fun rt m p name edits => ?_)
      intact.sound.heap)
    cases move with
    | act action =>
      cases edits with
      | encloses => exact binds ⟨_, _, _, rfl⟩
    | _ => cases edits

theorem Nested.after (nested : rt.Nested) (intact : rt.Intact) {moves : List Move}
    (permitted : rt.PermitsRun moves) (free : rt.NeverCloses moves) : (rt.after moves).Nested := by
  induction moves generalizing rt with
  | nil => exact nested
  | cons move rest ih =>
    exact ih (nested.move intact permitted.1 free.1) (intact.move permitted.1) permitted.2 free.2

/-- The modules of a new runtime lie in none. -/
theorem nested_boot (config : Config) : (boot config).Nested := by
  have before (m p : Ref) : p ∉ (bare config).outer m := by
    intro member
    obtain ⟨mod, found, lexical⟩ := mem_outer.mp member
    rw [((Cell.isBare_module mod).mp (bare_module found).1).2.2] at lexical
    cases lexical
  have none (m p : Ref) : p ∉ (boot config).outer m := fun member =>
    before m p (outer_subset (Changes.boot config) (fun _ _ _ _ starting => by cases starting)
      (intact_bare config).sound.heap m p member)
  exact fun m => Linear.of_parents fun p member => absurd member (none m p)

/-- In a run that never binds a nameless module into itself or into a module inside it, modules
stay nested, and every constant that is searched for from any module is found, or the search fails
with an error that says so. The next constant that is bound keeps them nested just when it does no
such thing either. -/
theorem constants_resolve (config : Config) (moves : List Move)
    (permitted : (boot config).PermitsRun moves) (free : (boot config).NeverCloses moves) :
    let rt := (boot config).after moves
    (WellFounded fun p m => p ∈ rt.outer m) ∧
      (∀ m name, (∃ v, (rt.findConst m name).1 = some (.ok v)) ∨
        ∃ message, (rt.findConst m name).1 = some (.error (.nameError message))) ∧
      ∀ m name v, (rt.setConst m name v).Nested ↔ ¬ rt.Closes (.act (.setConst m name v)) := by
  have intact := (intact_boot config).after permitted
  have nested := (nested_boot config).after (intact_boot config) permitted free
  exact ⟨⟨fun m => (nested m).choose_spec.acc⟩, nested.findConst intact.sound,
    nested_setConst nested⟩

/-- Two classes, one bound in `Object`, and the other in the first. -/
def nesting : List Move :=
  [.act (.subclass CoreClass.object.ref none none), .act (.subclass CoreClass.object.ref none none),
   .act (.setConst CoreClass.object.ref ⟨40⟩ (.module ⟨38, 0⟩)),
   .act (.setConst ⟨38, 0⟩ ⟨41⟩ (.module ⟨39, 0⟩))]

theorem permits_nesting : (boot {}).PermitsRun nesting := by
  refine ⟨.of_roots (List.forall_mem_singleton.mpr (.core .object (by decide))) rfl,
    .of_roots (List.forall_mem_singleton.mpr (.core .object (by decide))) rfl,
    .of_roots (List.forall_mem_cons.mpr ⟨.core .object (by decide),
      List.forall_mem_singleton.mpr (.handle ?_)⟩) rfl,
    .of_roots (List.forall_mem_cons.mpr ⟨.handle ?_,
      List.forall_mem_singleton.mpr (.handle ?_)⟩) rfl, trivial⟩
  all_goals decide +kernel

theorem nesting_never_closes : (boot {}).NeverCloses nesting := by
  have alone {rt : Runtime} {m a : Ref} (none : rt.outer m = []) (apart : a ≠ m) :
      ¬ Above rt.outer m a := by
    rw [above_iff, none]
    simp [apart]
  refine ⟨fun closes => ?_, fun closes => ?_, fun closes => ?_, fun closes => ?_, trivial⟩
  · exact absurd closes.isBinding Bool.false_ne_true
  · exact absurd closes.isBinding Bool.false_ne_true
  · obtain ⟨_, _, _, inside⟩ := closes
    exact alone (by decide +kernel) (by decide) inside
  · obtain ⟨_, _, _, inside⟩ := closes
    rcases above_iff.mp inside with same | ⟨p, member, further⟩
    · exact absurd same (by decide)
    · have around : ((boot {}).after (nesting.take 3)).outer ⟨38, 0⟩ = [CoreClass.object.ref] := by
        decide +kernel
      obtain rfl := List.mem_singleton.mp (around ▸ member)
      exact alone (by decide +kernel) (by decide) further

theorem nesting_resolves : ((boot {}).PermitsRun nesting ∧ (boot {}).NeverCloses nesting) ∧
    WellFounded fun p m => p ∈ ((boot {}).after nesting).outer m :=
  ⟨⟨permits_nesting, nesting_never_closes⟩,
    (constants_resolve {} nesting permits_nesting nesting_never_closes).1⟩

/-- Two nameless classes, each bound in the other. -/
def closing : List Move :=
  [.act (.subclass CoreClass.object.ref none none), .act (.subclass CoreClass.object.ref none none),
   .act (.setConst ⟨38, 0⟩ ⟨40⟩ (.module ⟨39, 0⟩)),
   .act (.setConst ⟨39, 0⟩ ⟨40⟩ (.module ⟨38, 0⟩))]

theorem permits_closing : (boot {}).PermitsRun closing := by
  refine ⟨.of_roots (List.forall_mem_singleton.mpr (.core .object (by decide))) rfl,
    .of_roots (List.forall_mem_singleton.mpr (.core .object (by decide))) rfl,
    .of_roots (List.forall_mem_cons.mpr ⟨.handle ?_,
      List.forall_mem_singleton.mpr (.handle ?_)⟩) rfl,
    .of_roots (List.forall_mem_cons.mpr ⟨.handle ?_,
      List.forall_mem_singleton.mpr (.handle ?_)⟩) rfl, trivial⟩
  all_goals decide +kernel

/-- The two classes lie inside each other, and a search for a constant that neither binds goes
round between them for ever. -/
theorem closing_goes_round : (boot {}).PermitsRun closing ∧
    (let rt := (boot {}).after closing;
      ⟨39, 0⟩ ∈ rt.outer ⟨38, 0⟩ ∧ ⟨38, 0⟩ ∈ rt.outer ⟨39, 0⟩ ∧
        (∀ fuel, rt.searchLexical ⟨41⟩ fuel ⟨38, 0⟩ = .endless) ∧
        (rt.findConst ⟨38, 0⟩ ⟨41⟩).1 = none) := by
  have first : ⟨39, 0⟩ ∈ ((boot {}).after closing).outer ⟨38, 0⟩ := by decide +kernel
  have second : ⟨38, 0⟩ ∈ ((boot {}).after closing).outer ⟨39, 0⟩ := by decide +kernel
  refine ⟨permits_closing, first, second, fun fuel => ?_, by decide +kernel⟩
  refine searchLexical_endless (C := fun m => m = ⟨38, 0⟩ ∨ m = ⟨39, 0⟩) ?_ fuel (.inl rfl)
  rintro m (rfl | rfl)
  · exact ⟨by decide +kernel, _, first, .inr rfl⟩
  · exact ⟨by decide +kernel, _, second, .inl rfl⟩

end Runtime
end ObjectRuntime
