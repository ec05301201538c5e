import ObjectRuntime.Proofs.Changes
import ObjectRuntime.Proofs.Oblivious

/-! Calling super. Each method that `super` finds stands behind the owner of the one it is called
from. It stands behind the place where that one was found as well, unless a table has an entry
behind the owner of its method: then `super` may find the same method for ever. -/

namespace ObjectRuntime

def Move.isAlias : Move → Bool
  | .act (.aliasMethod _ _ _) => true
  | _ => false

namespace Runtime

variable {rt rt' : Runtime}

/-! ## The class of a value -/

theorem Sound.holds_inherited (sound : rt.Sound) (fuel : Nat) {start : Option Ref} {s : Ref}
    (answer : rt.inheritedSingleton fuel start = some s) : rt.heap.Holds (.module s) := by
  induction fuel generalizing start with
  | zero => cases start <;> cases answer
  | succ fuel ih =>
    cases start with
    | none => cases answer
    | some c =>
      rw [inheritedSingleton] at answer
      split at answer
      next => cases answer
      next m found =>
        split at answer
        next s' made =>
          cases answer
          exact sound.cells c _ ((module?_eq_some ..).mp found) _
            (Module.mem_children.mpr (.singleton made))
        next => exact ih answer

theorem Sound.holds_classOf (sound : rt.Sound) {v : Val} (live : rt.heap.Holds v) :
    rt.heap.Holds (.module (rt.classOf v)) := by
  have core (c : CoreClass) : rt.heap.Holds (.module c.ref) :=
    sound.roots _ (.core c (by cases c <;> decide))
  cases v with
  | nil => exact core .nilClass
  | bool b => cases b <;> exact core _
  | int n => exact core .integer
  | sym s => exact core .symbol
  | cell kind r =>
    obtain ⟨c, found, same⟩ := live
    have child (v : Val) (held : v ∈ c.children rt.frames) : rt.heap.Holds v :=
      sound.cells r c found v held
    simp only [classOf, found]
    cases c with
    | object o =>
      cases single : o.singleton with
      | none => exact child _ (by simp [Cell.children, single])
      | some s => exact child _ (by simp [Cell.children, single])
    | module m =>
      simp only
      cases single : m.singleton with
      | some s => exact child _ (Module.mem_children.mpr (.singleton single))
      | none =>
        simp only
        split
        next => exact core .module
        next =>
          cases inherited : rt.inheritedSingleton rt.heap.slots.size m.superclass with
          | none => exact core .klass
          | some s => exact sound.holds_inherited _ inherited
    | array cls elements => exact child _ (by simp [Cell.children])
    | table cls entries => exact child _ (by simp [Cell.children])
    | string cls text => exact child _ (by simp [Cell.children])
    | float x => cases same; exact core .float
    | proc p => cases same; exact core .proc
    | bound receiver m => cases same; exact core .method

/-! ## Lists behind an owner -/

theorem behind_suffix (owner : Ref) (above : List Ref) : behind owner above <:+ above := by
  rw [← behind_eq]
  exact (List.drop_suffix _ _).trans (List.dropWhile_suffix _)

theorem not_mem_behind {owner : Ref} {above : List Ref} (nodup : above.Nodup) :
    owner ∉ behind owner above := by
  induction above with
  | nil => exact List.not_mem_nil
  | cons m rest ih =>
    obtain ⟨fresh, nodup'⟩ := List.nodup_cons.mp nodup
    rw [behind]
    split
    next here => exact here ▸ fresh
    next => exact ih nodup'

/-- Of two ends of a list, the one without a member of the other is the shorter. -/
theorem length_lt_of_suffix {above first second : List Ref} {a : Ref} (ends : first <:+ above)
    (ends' : second <:+ above) (member : a ∈ first) (absent : a ∉ second) :
    second.length < first.length := by
  rcases List.suffix_or_suffix_of_suffix ends ends' with shorter | shorter
  · exact absurd (shorter.mem member) absent
  · refine Nat.lt_of_le_of_ne shorter.length_le fun same => absent ?_
    rw [shorter.eq_of_length same]
    exact member

/-! ## The chain of supers -/

/-- The method that a message finds in a class, and the one that `super` finds from it some times
over. -/
def superChain (rt : Runtime) (cls : Ref) (name : Sym) : Nat → Option Method × Runtime
  | 0 => rt.findMethod cls name none none
  | k + 1 =>
    match rt.superChain cls name k with
    | (some m, rt) => rt.findMethod cls m.name (some m) none
    | (none, rt) => (none, rt)

/-- The chain by the tables alone, along one list of modules. -/
def superEntry (rt : Runtime) (above : List Ref) (name : Sym) : Nat → Option Method
  | 0 => rt.firstEntry name none above
  | k + 1 => (rt.superEntry above name k).bind fun m =>
      rt.firstEntry m.name none (behind m.owner above)

theorem superChain_spec (intact : rt.Intact) {cls : Ref} {above : List Ref}
    (live : rt.heap.Holds (.module cls)) (linear : Linear rt.parents cls above) (name : Sym)
    (k : Nat) : (rt.superChain cls name k).1 = rt.superEntry above name k ∧
      (rt.superChain cls name k).2.forget = rt.forget ∧ (rt.superChain cls name k).2.Intact := by
  -- a lookup in a state of the chain answers by the tables of the first state
  have find {rt' : Runtime} (same : rt'.forget = rt.forget) (intact' : rt'.Intact) (name : Sym)
      (after : Option Method) :
      (rt'.findMethod cls name after none).1 = rt.plainSearch name after none above ∧
        (rt'.findMethod cls name after none).2.forget = rt.forget ∧
        (rt'.findMethod cls name after none).2.Intact := by
    have live' := (holds_of_forget same _).mpr live
    obtain ⟨⟨above', linear', answer⟩, forgotten, -⟩ :=
      findMethod_spec intact'.sound intact'.faithful live' name after none
    rw [← parents_forget, same, parents_forget] at linear'
    rw [linear'.unique linear, ← plainSearch_forget, same, plainSearch_forget] at answer
    exact ⟨answer, forgotten.trans same, intact'.findMethod name after none live'⟩
  induction k with
  | zero => exact find rfl intact name none
  | succ k ih =>
    obtain ⟨answer, same, intact'⟩ := ih
    rw [superChain, superEntry, ← answer]
    generalize rt.superChain cls name k = state at same intact' ⊢
    obtain ⟨m, rt'⟩ := state
    cases m with
    | none => exact ⟨rfl, same, intact'⟩
    | some m => exact find same intact' m.name (some m)

/-! ## Progress -/

/-- No entry of a table stands behind the owner of its method. -/
def Forward (rt : Runtime) (above : List Ref) : Prop :=
  ∀ a ∈ above, ∀ name m, rt.method? a name = some m → a ∉ behind m.owner above

/-- The modules that are searched the next time. -/
def searched (rt : Runtime) (above : List Ref) (name : Sym) : Nat → List Ref
  | 0 => above
  | k + 1 => ((rt.superEntry above name k).map fun m => behind m.owner above).getD []

theorem searched_suffix (rt : Runtime) (above : List Ref) (name : Sym) (k : Nat) :
    rt.searched above name k <:+ above := by
  cases k with
  | zero => exact List.suffix_refl above
  | succ k =>
    rw [searched]
    cases rt.superEntry above name k with
    | none => exact List.nil_suffix
    | some m => exact behind_suffix m.owner above

theorem searched_succ {above : List Ref} {name : Sym} {k : Nat} {m : Method}
    (found : rt.superEntry above name k = some m) :
    rt.searched above name (k + 1) = behind m.owner above := by
  rw [searched, found]
  rfl

/-- A method of the chain is an entry of a module that was searched for it. -/
theorem entry_of_superEntry {above : List Ref} {name : Sym} {k : Nat} {m : Method}
    (found : rt.superEntry above name k = some m) :
    ∃ a ∈ rt.searched above name k, ∃ name', rt.method? a name' = some m := by
  cases k with
  | zero =>
    obtain ⟨a, member, entry⟩ := method?_of_firstEntry found
    exact ⟨a, member, name, entry⟩
  | succ k =>
    obtain ⟨m', found', next⟩ := Option.bind_eq_some_iff.mp found
    obtain ⟨a, member, entry⟩ := method?_of_firstEntry next
    exact ⟨a, searched_succ found' ▸ member, m'.name, entry⟩

theorem Forward.searched_lt {above : List Ref} (forward : rt.Forward above) {name : Sym} {k : Nat}
    {m : Method} (found : rt.superEntry above name k = some m) :
    (rt.searched above name (k + 1)).length < (rt.searched above name k).length := by
  obtain ⟨a, member, name', entry⟩ := entry_of_superEntry found
  have ends := rt.searched_suffix above name k
  refine length_lt_of_suffix ends (rt.searched_suffix above name (k + 1)) member ?_
  rw [searched_succ found]
  exact forward a (ends.mem member) name' m entry

theorem superEntry_before {above : List Ref} {name : Sym} {j k : Nat} (before : j ≤ k) {m : Method}
    (found : rt.superEntry above name k = some m) : ∃ m', rt.superEntry above name j = some m' := by
  induction before generalizing m with
  | refl => exact ⟨m, found⟩
  | step _ ih =>
    obtain ⟨m', found', -⟩ := Option.bind_eq_some_iff.mp found
    exact ih found'

/-- Every step of the chain uses up a module of the list. -/
theorem Forward.searched_add_le {above : List Ref} (forward : rt.Forward above) {name : Sym}
    {j d : Nat} {m : Method} (found : rt.superEntry above name (j + d) = some m) :
    (rt.searched above name (j + d)).length + d ≤ (rt.searched above name j).length := by
  induction d generalizing m with
  | zero => exact Nat.le_refl _
  | succ d ih =>
    obtain ⟨m', found'⟩ := superEntry_before (Nat.le_succ (j + d)) found
    have shorter := forward.searched_lt found'
    have bound := ih found'
    change (rt.searched above name (j + d + 1)).length + (d + 1) ≤ _
    omega

theorem Forward.distinct {above : List Ref} (forward : rt.Forward above) {name : Sym} {j k : Nat}
    (before : j < k) {m m' : Method} (first : rt.superEntry above name j = some m)
    (second : rt.superEntry above name k = some m') : m ≠ m' := by
  rintro rfl
  obtain ⟨d, rfl⟩ : ∃ d, k = j + 1 + d := ⟨k - (j + 1), by omega⟩
  have bound := forward.searched_add_le second
  have shorter := forward.searched_lt second
  -- behind one method the same modules are searched whenever it is found
  rw [searched_succ second, ← searched_succ first] at shorter
  omega

theorem Forward.ends {above : List Ref} (forward : rt.Forward above) (name : Sym) {k : Nat}
    (long : above.length ≤ k) : rt.superEntry above name k = none := by
  cases found : rt.superEntry above name k with
  | none => rfl
  | some m =>
    obtain ⟨m', found'⟩ := superEntry_before long found
    obtain ⟨a, member, -⟩ := entry_of_superEntry found'
    have room := List.length_pos_of_mem member
    have bound := forward.searched_add_le (j := 0) (d := above.length)
      (by rw [Nat.zero_add]; exact found')
    rw [Nat.zero_add] at bound
    have whole : rt.searched above name 0 = above := rfl
    rw [whole] at bound
    omega

/-! ## Runs without aliases -/

/-- Every method stands in the table of its owner. -/
def Owned (rt : Runtime) : Prop :=
  ∀ r mod, rt.module? r = some mod → ∀ m ∈ mod.methods.values, m.owner = r

theorem Owned.forward (owned : rt.Owned) {above : List Ref} (nodup : above.Nodup) :
    rt.Forward above := by
  intro a _ name m entry
  obtain ⟨mod, found, listed⟩ := Option.bind_eq_some_iff.mp entry
  rw [owned a mod found m (Table.mem_values_of_get listed)]
  exact not_mem_behind nodup

theorem owner_of_edits {move : Move} (free : move.isAlias = false) {r : Ref} {name : Sym} {m : Method}
    (edits : move.Edits rt r (.enter name m)) : m.owner = r := by
  cases move with
  | act action =>
    cases edits with
    | defines => rfl
    | aliases => cases free
  | _ => cases edits

theorem owned_after (config : Config) {moves : List Move}
    (permitted : (boot config).PermitsRun moves)
    (free : ∀ move ∈ moves, move.isAlias = false) : ((boot config).after moves).Owned := by
  have none {mod : Module} (bare : (Cell.module mod).isBare = true) (r : Ref) (m : Method)
      (entry : m ∈ mod.methods.values) : m.owner = r := by
    rw [((Cell.isBare_module mod).mp bare).2.1] at entry
    cases entry
  refine (Changes.from_start config permitted).each
    (Q := fun r mod => ∀ m ∈ mod.methods.values, m.owner = r)
    (fun same old => Module.of_outline same (·.methods) ▸ old) (fun bare => none bare _)
    (fun {_ _ mod e} allows _ old m entry => ?_) (intact_bare config).sound.heap
    fun r mod found => none (bare_module found).1 r
  cases e with
  | enter name x =>
    rcases Table.mem_values_insert entry with before | rfl
    · exact old m before
    · rcases allows with starting | ⟨move, member, edits⟩
      · cases starting
        rfl
      · exact owner_of_edits (free move member) edits
  | remove name => exact old m (Table.mem_values_erase entry)
  | _ => exact old m entry

/-- From any method that a message to a live value finds, `super` finds one new method after another
and ends, after at most as many steps as there are modules in the ancestry: in a run that makes no
alias, and in every other where no entry of the ancestry stands behind the owner of its method. -/
theorem super_advances (config : Config) (moves : List Move)
    (permitted : (boot config).PermitsRun moves) (v : Val)
    (live : ((boot config).after moves).heap.Holds v) (name : Sym)
    (straight : (∀ move ∈ moves, move.isAlias = false) ∨
      ((boot config).after moves).Forward
        (((boot config).after moves).ancestry (((boot config).after moves).classOf v)).1) :
    let rt := (boot config).after moves
    (∀ j k m m', j < k → (rt.superChain (rt.classOf v) name j).1 = some m →
      (rt.superChain (rt.classOf v) name k).1 = some m' → m ≠ m') ∧
    ∀ k, (rt.ancestry (rt.classOf v)).1.length ≤ k →
      (rt.superChain (rt.classOf v) name k).1 = none := by
  have intact := (intact_boot config).after permitted
  have here := intact.sound.holds_classOf live
  obtain ⟨linear, -⟩ := ancestry_spec intact.sound intact.faithful
    (((boot config).after moves).classOf v)
  have forward := straight.elim
    (fun free => (owned_after config permitted free).forward linear.nodup) id
  simp only [(superChain_spec intact here linear name _).1]
  exact ⟨fun _ _ _ _ before => forward.distinct before, fun _ => forward.ends name⟩

/-- A class, a class below it, a method of one name in each, and an object of the lower class. -/
def overriding : List Move :=
  [.act (.subclass CoreClass.object.ref none none), .act (.subclass ⟨38, 0⟩ none none),
   .act (.defineMethod ⟨38, 0⟩ ⟨40⟩ (.native (.user 0)) 0),
   .act (.defineMethod ⟨39, 0⟩ ⟨40⟩ (.native (.user 1)) 0), .act (.newObject ⟨39, 0⟩)]

theorem permits_overriding : (boot {}).PermitsRun overriding := by
  refine ⟨.of_roots (List.forall_mem_singleton.mpr (.core .object (by decide))) rfl,
    .of_roots (List.forall_mem_singleton.mpr (.handle ?_)) rfl,
    .of_roots (List.forall_mem_singleton.mpr (.handle ?_)) rfl,
    .of_roots (List.forall_mem_singleton.mpr (.handle ?_)) rfl,
    .of_roots (List.forall_mem_singleton.mpr (.handle ?_)) rfl, trivial⟩
  all_goals decide +kernel

theorem overriding_advances : let rt := (boot {}).after overriding;
    ((boot {}).PermitsRun overriding ∧ rt.heap.Holds (.object ⟨40, 0⟩) ∧
      ∀ move ∈ overriding, move.isAlias = false) ∧
    ∀ k, (rt.ancestry (rt.classOf (.object ⟨40, 0⟩))).1.length ≤ k →
      (rt.superChain (rt.classOf (.object ⟨40, 0⟩)) ⟨40⟩ k).1 = none :=
  have live : ((boot {}).after overriding).heap.Holds (.object ⟨40, 0⟩) := by decide +kernel
  have free : ∀ move ∈ overriding, move.isAlias = false := by decide
  ⟨⟨permits_overriding, live, free⟩,
    (super_advances {} overriding permits_overriding _ live ⟨40⟩ (.inl free)).2⟩

/-- Two modules, the second including the first, and two classes, the upper including the second
module, the lower the first. The method of the first module has an alias in the second, which the
ancestry of the lower class lists last. -/
def aliasing : List Move :=
  [.act .newModule, .act .newModule, .act (.subclass CoreClass.object.ref none none),
   .act (.subclass ⟨40, 0⟩ none none), .act (.includeOnce ⟨41, 0⟩ ⟨38, 0⟩),
   .act (.includeOnce ⟨39, 0⟩ ⟨38, 0⟩), .act (.includeOnce ⟨40, 0⟩ ⟨39, 0⟩),
   .act (.defineMethod ⟨38, 0⟩ ⟨40⟩ (.native (.user 0)) 0),
   .act (.aliasMethod ⟨39, 0⟩ ⟨40⟩ ⟨40⟩), .act (.newObject ⟨41, 0⟩)]

theorem permits_aliasing : (boot {}).PermitsRun aliasing := by
  refine ⟨.of_roots (fun _ member => nomatch member) rfl,
    .of_roots (fun _ member => nomatch member) rfl,
    .of_roots (List.forall_mem_singleton.mpr (.core .object (by decide))) rfl,
    .of_roots (List.forall_mem_singleton.mpr (.handle ?_)) rfl,
    .of_roots (List.forall_mem_cons.mpr ⟨.handle ?_, List.forall_mem_singleton.mpr (.handle ?_)⟩) rfl,
    .of_roots (List.forall_mem_cons.mpr ⟨.handle ?_, List.forall_mem_singleton.mpr (.handle ?_)⟩) rfl,
    .of_roots (List.forall_mem_cons.mpr ⟨.handle ?_, List.forall_mem_singleton.mpr (.handle ?_)⟩) rfl,
    .of_roots (List.forall_mem_singleton.mpr (.handle ?_)) rfl,
    .of_roots (List.forall_mem_singleton.mpr (.handle ?_)) rfl,
    .of_roots (List.forall_mem_singleton.mpr (.handle ?_)) rfl, trivial⟩
  all_goals decide +kernel

/-- From the method that the object answers with, `super` finds that very method. -/
theorem aliasing_repeats : (boot {}).PermitsRun aliasing ∧
    (let rt := (boot {}).after aliasing;
      ((rt.superChain (rt.classOf (.object ⟨42, 0⟩)) ⟨40⟩ 0).1.isSome = true ∧
        (rt.superChain (rt.classOf (.object ⟨42, 0⟩)) ⟨40⟩ 1).1 =
          (rt.superChain (rt.classOf (.object ⟨42, 0⟩)) ⟨40⟩ 0).1)) :=
  ⟨permits_aliasing, by decide +kernel⟩

end Runtime
end ObjectRuntime
