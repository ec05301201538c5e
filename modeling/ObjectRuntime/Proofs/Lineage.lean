import ObjectRuntime.Lookup
import ObjectRuntime.Proofs.Linearization
import ObjectRuntime.Proofs.Table
import ObjectRuntime.Proofs.Reachability

/-! Lineage. What a runtime remembers of its class graph agrees with the edges and the
method tables it has: a linearization remembered in the present generation is the one the
edges give, and a cached answer is the one a plain search finds. -/

namespace ObjectRuntime

/-! ## What a module holds -/

/-- A value that a module holds, and where it holds it. -/
inductive Module.Child (m : Module) : Val → Prop
  | superclass {p : Ref} (edge : m.superclass = some p) : m.Child (.module p)
  | included {p : Ref} (edge : p ∈ m.includes) : m.Child (.module p)
  | method {x : Method} {v : Val} (entry : x ∈ m.methods.values) (held : v ∈ x.children) : m.Child v
  | const {v : Val} (entry : v ∈ m.consts.values) : m.Child v
  | singleton {s : Ref} (made : m.singleton = some s) : m.Child (.module s)
  | attached {v : Val} (attached : m.attached = some v) : m.Child v
  | lexical {s : Ref} (outer : m.lexicalParent = some s) : m.Child (.module s)

theorem Module.mem_children {m : Module} {v : Val} : v ∈ m.children ↔ m.Child v := by
  simp only [children, List.mem_append, List.mem_map, List.mem_flatMap, Option.mem_toList]
  constructor
  · rintro ((((((⟨p, edge, rfl⟩ | ⟨p, edge, rfl⟩) | ⟨x, entry, held⟩) | entry) | ⟨s, made, rfl⟩) |
      attached) | ⟨s, outer, rfl⟩)
    · exact .superclass edge
    · exact .included edge
    · exact .method entry held
    · exact .const entry
    · exact .singleton made
    · exact .attached attached
    · exact .lexical outer
  · intro child
    cases child with
    | superclass edge => exact .inl (.inl (.inl (.inl (.inl (.inl ⟨_, edge, rfl⟩)))))
    | included edge => exact .inl (.inl (.inl (.inl (.inl (.inr ⟨_, edge, rfl⟩)))))
    | method entry held => exact .inl (.inl (.inl (.inl (.inr ⟨_, entry, held⟩))))
    | const entry => exact .inl (.inl (.inl (.inr entry)))
    | singleton made => exact .inl (.inl (.inr ⟨_, made, rfl⟩))
    | attached attached => exact .inl (.inr attached)
    | lexical outer => exact .inr ⟨_, outer, rfl⟩

theorem Module.Child.parent {m : Module} {p : Ref} (edge : p ∈ m.parents) :
    m.Child (.module p) := by
  rcases List.mem_append.mp edge with included | superclass
  · exact .included included
  · exact .superclass (Option.mem_toList.mp superclass)

/-- A module that is just made holds its superclass and what it is attached to. -/
theorem Module.Child.of_made {m : Module} {v : Val} (child : m.Child v) (includes : m.includes = [])
    (methods : m.methods.values = []) (consts : m.consts.values = [])
    (singleton : m.singleton = none) (outer : m.lexicalParent = none) :
    (∃ p, m.superclass = some p ∧ v = .module p) ∨ m.attached = some v := by
  cases child with
  | superclass edge => exact .inl ⟨_, edge, rfl⟩
  | attached same => exact .inr same
  | included edge => simp [includes] at edge
  | method entry => simp [methods] at entry
  | const entry => simp [consts] at entry
  | singleton made => simp [singleton] at made
  | lexical same => simp [outer] at same

namespace Runtime

/-! ## The plain search -/

def parents (rt : Runtime) (m : Ref) : List Ref := ((rt.module? m).map (·.parents)).getD []

/-- What stands behind a module in a list; nothing when it is not in the list. -/
def behind (owner : Ref) : List Ref → List Ref
  | [] => []
  | m :: rest => if m = owner then rest else behind owner rest

def firstEntry (rt : Runtime) (name : Sym) (exclude : Option Method) : List Ref → Option Method
  | [] => none
  | m :: rest =>
    match rt.method? m name with
    | some found =>
      if exclude.map (·.id) = some found.id then rt.firstEntry name exclude rest else some found
    | none => rt.firstEntry name exclude rest

/-- What a lookup finds in a linearization: the first entry behind the owner of `after`. -/
def plainSearch (rt : Runtime) (name : Sym) (after exclude : Option Method) (above : List Ref) :
    Option Method :=
  match after with
  | none => rt.firstEntry name exclude above
  | some m => rt.firstEntry name exclude (behind m.owner above)

/-- The answer of a plain lookup, in the linearization that the edges give. -/
def Answers (rt : Runtime) (cls : Ref) (name : Sym) (after exclude answer : Option Method) : Prop :=
  ∃ above, Linear rt.parents cls above ∧ answer = rt.plainSearch name after exclude above

/-- A class that is made below another is a new module; when none is made, nothing changes. -/
theorem subclass_cases (rt : Runtime) (sup : Ref) (name : Option String) (tag : Option Tag) :
    (∃ e, rt.subclass sup name tag = (.error e, rt)) ∨
      ∃ (tag' : Tag) (made : Module),
        made = { kind := .cls, name, superclass := some sup, tag := tag' } ∧
        rt.subclass sup name tag =
          (.ok (rt.alloc (.module made)).1, (rt.alloc (.module made)).2) := by
  unfold subclass
  split
  next => exact .inl ⟨_, rfl⟩
  next =>
    split
    next => exact .inl ⟨_, rfl⟩
    next =>
      split
      next => exact .inl ⟨_, rfl⟩
      next =>
        split
        next => exact .inl ⟨_, rfl⟩
        next => exact .inr ⟨_, _, rfl, rfl⟩

theorem module?_eq_some (rt : Runtime) (r : Ref) (m : Module) :
    rt.module? r = some m ↔ rt.heap.cell? r = some (.module m) := by
  unfold module?
  cases rt.heap.cell? r with
  | none => simp
  | some c => cases c <;> simp

theorem firstMethod_eq (rt : Runtime) (name : Sym) (exclude : Option Method) (above : List Ref) :
    rt.firstMethod name exclude above = rt.firstEntry name exclude above := by
  unfold firstMethod
  induction above with
  | nil => rfl
  | cons m rest ih =>
    rw [List.findSome?_cons, firstEntry, ih]
    cases rt.method? m name with
    | none => rfl
    | some found =>
      by_cases excluded : exclude.map (·.id) = some found.id <;> simp [excluded]

theorem behind_eq (owner : Ref) (above : List Ref) :
    (above.dropWhile (· ≠ owner)).drop 1 = behind owner above := by
  induction above with
  | nil => rfl
  | cons m rest ih =>
    by_cases here : m = owner
    · simp [behind, here]
    · simpa [behind, here, List.dropWhile_cons] using ih

theorem plainSearch_eq (rt : Runtime) (name : Sym) (after exclude : Option Method)
    (above : List Ref) :
    rt.firstMethod name exclude (behindOwner above after) =
      rt.plainSearch name after exclude above := by
  rw [firstMethod_eq]
  cases after with
  | none => rfl
  | some m =>
    simp only [behindOwner, plainSearch]
    rw [← behind_eq]

theorem firstEntry_congr {rt rt' : Runtime} {name : Sym} {exclude : Option Method}
    {above : List Ref} (same : ∀ a ∈ above, rt'.method? a name = rt.method? a name) :
    rt'.firstEntry name exclude above = rt.firstEntry name exclude above := by
  induction above with
  | nil => rfl
  | cons m rest ih =>
    simp only [firstEntry, same m (by simp), ih fun a later => same a (List.mem_cons_of_mem _ later)]

theorem mem_of_mem_behind {owner a : Ref} {above : List Ref} (member : a ∈ behind owner above) :
    a ∈ above := by
  rw [← behind_eq] at member
  exact (List.dropWhile_sublist _).mem (List.mem_of_mem_drop member)

theorem Answers.congr {rt rt' : Runtime} {cls : Ref} {name : Sym}
    {after exclude answer : Option Method} (found : rt.Answers cls name after exclude answer)
    (parents : ∀ a, Above rt.parents cls a → rt'.parents a = rt.parents a)
    (methods : ∀ a, Above rt.parents cls a → rt'.method? a name = rt.method? a name) :
    rt'.Answers cls name after exclude answer := by
  obtain ⟨above, linear, rfl⟩ := found
  refine ⟨above, linear.congr parents, ?_⟩
  have same (a : Ref) (member : a ∈ above) : rt'.method? a name = rt.method? a name :=
    methods a (linear.mem_iff.mp member)
  cases after with
  | none => exact (firstEntry_congr same).symm
  | some m => exact (firstEntry_congr fun a member => same a (mem_of_mem_behind member)).symm

theorem method?_of_firstEntry {rt : Runtime} {name : Sym} {exclude : Option Method}
    {above : List Ref} {found : Method} (answer : rt.firstEntry name exclude above = some found) :
    ∃ a ∈ above, rt.method? a name = some found := by
  induction above with
  | nil => cases answer
  | cons m rest ih =>
    rw [firstEntry] at answer
    have later (answer : rt.firstEntry name exclude rest = some found) :
        ∃ a ∈ m :: rest, rt.method? a name = some found := by
      obtain ⟨a, member, entry⟩ := ih answer
      exact ⟨a, List.mem_cons_of_mem _ member, entry⟩
    cases entry : rt.method? m name with
    | none =>
      rw [entry] at answer
      exact later answer
    | some found' =>
      simp only [entry] at answer
      split at answer
      next => exact later answer
      next =>
        cases answer
        exact ⟨m, by simp, entry⟩

/-! ## Memory that agrees with the graph -/

/-- Everything remembered is what the edges and the method tables say. Linearizations of an
older generation list modules that are still above theirs, as edges are only ever added. -/
structure Faithful (rt : Runtime) : Prop where
  graded : ∀ m, ∃ above, Linear rt.parents m above
  remembered : ∀ (r : Ref) (m : Module) (generation : Nat) (above : List Ref),
    rt.module? r = some m → m.linear = some (generation, above) → generation ≤ rt.hierarchy ∧
      (∀ a ∈ above, Above rt.parents r a) ∧
      (generation = rt.hierarchy → Linear rt.parents r above)
  cached : ∀ e ∈ rt.cache.entries.entries, rt.heap.Holds (.module e.1.1) ∧
    rt.Answers e.1.1 e.1.2 none none e.2

/-- The same runtime but for the linearizations that its modules remember. -/
structure Alike (rt rt' : Runtime) : Prop where
  rest : rt' = { rt with heap := rt'.heap }
  heap : rt'.heap.forget = rt.heap.forget

theorem module?_forget (rt : Runtime) (r : Ref) :
    rt.forget.module? r = (rt.module? r).map Module.forget := by
  simp only [module?, forget, Heap.cell?_forget]
  cases rt.heap.cell? r with
  | none => rfl
  | some c => cases c <;> rfl

theorem parents_forget (rt : Runtime) : rt.forget.parents = rt.parents := by
  funext m
  simp only [parents, module?_forget]
  cases rt.module? m <;> rfl

theorem method?_forget (rt : Runtime) (m : Ref) (name : Sym) :
    rt.forget.method? m name = rt.method? m name := by
  simp only [method?, module?_forget]
  cases rt.module? m <;> rfl

namespace Alike
variable {rt rt' rt'' : Runtime}

theorem refl (rt : Runtime) : Alike rt rt := ⟨rfl, rfl⟩

theorem trans (first : Alike rt rt') (second : Alike rt' rt'') : Alike rt rt'' where
  rest := by
    rw [second.rest, first.rest]
  heap := second.heap.trans first.heap

theorem symm (alike : Alike rt rt') : Alike rt' rt where
  rest := by
    rw [alike.rest]
  heap := alike.heap.symm

theorem forget (alike : Alike rt rt') : rt'.forget = rt.forget := by
  rw [alike.rest]
  simp only [Runtime.forget, alike.heap]

theorem parents (alike : Alike rt rt') : rt'.parents = rt.parents := by
  rw [← parents_forget, alike.forget, parents_forget]

theorem method? (alike : Alike rt rt') (m : Ref) (name : Sym) :
    rt'.method? m name = rt.method? m name := by
  rw [← method?_forget, alike.forget, method?_forget]

theorem cache (alike : Alike rt rt') : rt'.cache = rt.cache := by rw [alike.rest]

theorem hierarchy (alike : Alike rt rt') : rt'.hierarchy = rt.hierarchy := by rw [alike.rest]

theorem holds (alike : Alike rt rt') (v : Val) : rt'.heap.Holds v ↔ rt.heap.Holds v := by
  rw [← Heap.holds_forget, alike.heap, Heap.holds_forget]

theorem answers (alike : Alike rt rt') {cls : Ref} {name : Sym}
    {after exclude answer : Option Method} (found : rt.Answers cls name after exclude answer) :
    rt'.Answers cls name after exclude answer :=
  found.congr (fun a _ => congrFun alike.parents a) fun a _ => alike.method? a name

theorem faithful (alike : Alike rt rt') (faithful : rt.Faithful)
    (remembered : ∀ (r : Ref) (m : Module) (generation : Nat) (above : List Ref),
      rt'.module? r = some m → m.linear = some (generation, above) →
      generation ≤ rt.hierarchy ∧ (∀ a ∈ above, Above rt.parents r a) ∧
        (generation = rt.hierarchy → Linear rt.parents r above)) : rt'.Faithful where
  graded := alike.parents ▸ faithful.graded
  remembered := by
    rw [alike.parents, alike.hierarchy]
    exact remembered
  cached e member := by
    rw [alike.cache] at member
    obtain ⟨live, answer⟩ := faithful.cached e member
    exact ⟨(alike.holds _).mpr live, alike.answers answer⟩

end Alike

/-! ## Linearizing -/

theorem module?_modifyModule (rt : Runtime) (r r' : Ref) (f : Module → Module) :
    (rt.modifyModule r f).module? r' =
      if r' = r then (rt.module? r).map f else rt.module? r' := by
  simp only [module?, modifyModule, modifyCell, Heap.cell?_modify]
  by_cases same : r' = r
  · subst same
    simp only [if_true]
    cases rt.heap.cell? r' with
    | none => rfl
    | some c => cases c <;> rfl
  · simp only [same, if_false]

theorem remember_spec {rt : Runtime} (faithful : rt.Faithful) {m : Ref} {above : List Ref}
    (linear : Linear rt.parents m above) :
    Alike rt (rt.modifyModule m fun mod => { mod with linear := some (rt.hierarchy, above) }) ∧
      (rt.modifyModule m fun mod => { mod with linear := some (rt.hierarchy, above) }).Faithful := by
  have alike : Alike rt
      (rt.modifyModule m fun mod => { mod with linear := some (rt.hierarchy, above) }) := by
    refine ⟨rfl, Heap.forget_modify_self _ _ fun c => ?_⟩
    cases c <;> rfl
  refine ⟨alike, alike.faithful faithful fun r mod generation above' found memory => ?_⟩
  rw [module?_modifyModule] at found
  split at found
  next same =>
    obtain ⟨mod', -, rfl⟩ := Option.map_eq_some_iff.mp found
    cases memory
    subst same
    exact ⟨Nat.le_refl _, fun a member => linear.mem_iff.mp member, fun _ => linear⟩
  next => exact faithful.remembered r mod generation above' found memory

private theorem merge_spec {rt : Runtime} {up : Ref → Runtime → List Ref × Runtime}
    {above : Ref → List Ref} (ps : List Ref)
    (each : ∀ p ∈ ps, ∀ rt', Alike rt rt' → rt'.Faithful →
      (up p rt').1 = above p ∧ Alike rt' (up p rt').2 ∧ (up p rt').2.Faithful)
    (linear : List Ref) {rt' : Runtime} (alike : Alike rt rt') (faithful : rt'.Faithful) :
    let merged := ps.foldl (fun (linear, rt) p =>
      match up p rt with
      | (more, rt) => (mergeLinear linear more, rt)) (linear, rt')
    merged.1 = ps.foldl (fun linear p => mergeLinear linear (above p)) linear ∧
      Alike rt merged.2 ∧ merged.2.Faithful := by
  induction ps generalizing linear rt' with
  | nil => exact ⟨rfl, alike, faithful⟩
  | cons p ps ih =>
    obtain ⟨answer, alike', faithful'⟩ := each p (by simp) rt' alike faithful
    have rest := ih (fun q member => each q (List.mem_cons_of_mem _ member))
      (mergeLinear linear (up p rt').1) (alike.trans alike') faithful'
    rw [answer] at rest
    simpa only [List.foldl_cons, answer] using rest

/-- With fuel for its length, the linearization of a module is the one the edges give. -/
theorem linearize_spec (fuel : Nat) {rt : Runtime} (faithful : rt.Faithful) {m : Ref}
    {above : List Ref} (linear : Linear rt.parents m above) (enough : above.length ≤ fuel) :
    (linearize fuel m rt).1 = above ∧ Alike rt (linearize fuel m rt).2 ∧
      (linearize fuel m rt).2.Faithful := by
  induction fuel generalizing rt m above with
  | zero => exact absurd linear.length_pos (by omega)
  | succ fuel ih =>
    have from_parents (mod : Module) (found : rt.module? m = some mod) :
        (linearizeFrom (linearize fuel) mod.parents m rt).1 = above ∧
          Alike rt (linearizeFrom (linearize fuel) mod.parents m rt).2 ∧
          (linearizeFrom (linearize fuel) mod.parents m rt).2.Faithful := by
      have edges : rt.parents m = mod.parents := by simp [parents, found]
      have shorter (p : Ref) (member : p ∈ rt.parents m) (l : List Ref)
          (linear' : Linear rt.parents p l) : l.length ≤ fuel := by
        have := linear.length_lt member linear'
        omega
      cases linear with
      | intro _ higher linears =>
        obtain ⟨merged, alike, faithful'⟩ := merge_spec (rt.parents m)
          (fun p member rt' alike faithful => ih faithful (alike.parents ▸ linears p member)
            (shorter p member _ (linears p member))) [m] (Alike.refl rt) faithful
        rw [edges] at merged alike faithful'
        have linear' : Linear rt.parents m (mod.parents.foldl
            (fun linear p => mergeLinear linear (higher p)) [m]) := edges ▸ .intro m higher linears
        have linear'' := alike.parents ▸ linear'
        rw [← merged] at linear''
        obtain ⟨alike', faithful''⟩ := remember_spec faithful' linear''
        refine ⟨?_, alike.trans alike', faithful''⟩
        simp only [linearizeFrom]
        rw [merged, edges]
    rw [linearize]
    cases found : rt.module? m with
    | none =>
      have edges : rt.parents m = [] := by simp [parents, found]
      exact ⟨(Linear.alone edges).unique linear, .refl rt, faithful⟩
    | some mod =>
      simp only
      cases memory : mod.linear with
      | none => exact from_parents mod found
      | some entry =>
        obtain ⟨generation, remembered⟩ := entry
        simp only
        split
        next same =>
          have known := (faithful.remembered m mod generation remembered found memory).2.2 same
          exact ⟨known.unique linear, .refl rt, faithful⟩
        next => exact from_parents mod found

theorem parents_of_dead {rt : Runtime} {m : Ref} (dead : ¬ rt.heap.Holds (.module m)) :
    rt.parents m = [] := by
  unfold parents
  cases found : rt.module? m with
  | none => rfl
  | some mod => exact absurd ⟨_, (module?_eq_some rt m mod).mp found, rfl⟩ dead

theorem Sound.holds_parent {rt : Runtime} (sound : rt.Sound) {m p : Ref}
    (member : p ∈ rt.parents m) : rt.heap.Holds (.module p) := by
  unfold parents at member
  cases found : rt.module? m with
  | none => simp [found] at member
  | some mod =>
    have cell := (module?_eq_some rt m mod).mp found
    simp only [found, Option.map_some, Option.getD_some] at member
    exact sound.cells m _ cell _ (Module.mem_children.mpr (.parent member))

theorem Sound.holds_above {rt : Runtime} (sound : rt.Sound) {m a : Ref}
    (above : Above rt.parents m a) (live : rt.heap.Holds (.module m)) :
    rt.heap.Holds (.module a) := by
  induction above with
  | self => exact live
  | parent member _ ih => exact ih (sound.holds_parent member)

/-- There are no more modules than slots. -/
theorem length_le_of_held {rt : Runtime} {modules : List Ref} (nodup : modules.Nodup)
    (held : ∀ a ∈ modules, rt.heap.Holds (.module a)) : modules.length ≤ rt.heap.slots.size :=
  Heap.length_le_of_isLive nodup fun a member => Heap.isLive_of_holds (held a member)

theorem Sound.length_le {rt : Runtime} (sound : rt.Sound) {m : Ref} {above : List Ref}
    (linear : Linear rt.parents m above) : above.length ≤ rt.heap.slots.size := by
  by_cases live : rt.heap.Holds (.module m)
  · exact length_le_of_held linear.nodup fun a member =>
      sound.holds_above (linear.mem_iff.mp member) live
  · -- a module that is not there is alone, and there are always the core classes
    have edges := parents_of_dead live
    cases linear with
    | intro _ higher _ =>
      obtain ⟨c, found, -⟩ := sound.roots _ (.core .basicObject (by decide))
      have bound := Heap.index_lt_of_cell found
      rw [edges]
      simp only [List.foldl_nil, List.length_singleton]
      omega

theorem ancestry_spec {rt : Runtime} (sound : rt.Sound) (faithful : rt.Faithful) (m : Ref) :
    Linear rt.parents m (rt.ancestry m).1 ∧ Alike rt (rt.ancestry m).2 ∧
      (rt.ancestry m).2.Faithful := by
  obtain ⟨above, linear⟩ := faithful.graded m
  obtain ⟨answer, alike, faithful'⟩ := linearize_spec _ faithful linear (sound.length_le linear)
  exact ⟨answer ▸ linear, alike, faithful'⟩

/-! ## Lookup -/

theorem searchMethod_spec {rt : Runtime} (sound : rt.Sound) (faithful : rt.Faithful) (cls : Ref)
    (name : Sym) (after exclude : Option Method) :
    rt.Answers cls name after exclude (rt.searchMethod cls name after exclude).1 ∧
      Alike rt (rt.searchMethod cls name after exclude).2 ∧
      (rt.searchMethod cls name after exclude).2.Faithful := by
  obtain ⟨linear, alike, faithful'⟩ := ancestry_spec sound faithful cls
  have answered : (rt.ancestry cls).2.Answers cls name after exclude
      (rt.searchMethod cls name after exclude).1 :=
    ⟨(rt.ancestry cls).1, alike.parents ▸ linear, plainSearch_eq ..⟩
  exact ⟨alike.symm.answers answered, alike, faithful'⟩

theorem Faithful.store {rt : Runtime} (faithful : rt.Faithful) {cls : Ref} {name : Sym}
    {answer : Option Method} (live : rt.heap.Holds (.module cls))
    (right : rt.Answers cls name none none answer) :
    Faithful { rt with cache := rt.cache.store cls name answer } where
  graded := faithful.graded
  remembered := faithful.remembered
  cached e member := by
    have kept {cls' : Ref} {name' : Sym} {answer' : Option Method}
        (known : rt.Answers cls' name' none none answer') :
        Answers { rt with cache := rt.cache.store cls name answer } cls' name' none none answer' :=
      known.congr (fun _ _ => rfl) fun _ _ => rfl
    unfold MethodCache.store at member
    split at member
    next =>
      rcases Table.mem_write member with old | rfl
      · exact ⟨(faithful.cached e old).1, kept (faithful.cached e old).2⟩
      · exact ⟨live, kept right⟩
    next => exact ⟨(faithful.cached e member).1, kept (faithful.cached e member).2⟩

/-- A lookup answers as the plain search does, whether or not it is answered from the cache. -/
theorem findMethod_spec {rt : Runtime} (sound : rt.Sound) (faithful : rt.Faithful) {cls : Ref}
    (live : rt.heap.Holds (.module cls)) (name : Sym) (after exclude : Option Method) :
    rt.Answers cls name after exclude (rt.findMethod cls name after exclude).1 ∧
      (rt.findMethod cls name after exclude).2.forget = rt.forget ∧
      (rt.findMethod cls name after exclude).2.Faithful := by
  unfold findMethod
  split
  next =>
    obtain ⟨answer, alike, faithful'⟩ := searchMethod_spec sound faithful cls name after exclude
    exact ⟨answer, alike.forget, faithful'⟩
  next plain =>
    simp only [not_or, Bool.not_eq_true, Option.isSome_eq_false_iff, Option.isNone_iff_eq_none]
      at plain
    obtain ⟨rfl, rfl⟩ := plain
    cases known : rt.cache.find? cls name with
    | some answer =>
      unfold MethodCache.find? at known
      split at known
      next =>
        have right := faithful.cached ((cls, name), answer) (Table.mem_of_find known)
        exact ⟨right.2, rfl, faithful⟩
      next => cases known
    | none =>
      obtain ⟨answer, alike, faithful'⟩ := searchMethod_spec sound faithful cls name none none
      refine ⟨answer, ?_, faithful'.store ((alike.holds _).mpr live) (alike.answers answer)⟩
      rw [← alike.forget]
      rfl

/-! ## Changes that keep the lineage -/

theorem module_of_holds {rt : Runtime} {r : Ref} (live : rt.heap.Holds (.module r)) :
    ∃ m, rt.module? r = some m := by
  obtain ⟨c, found, kind⟩ := live
  cases c with
  | module m => exact ⟨m, (module?_eq_some rt r m).mpr found⟩
  | _ => cases kind

theorem holds_of_module {rt : Runtime} {r : Ref} {m : Module} (found : rt.module? r = some m) :
    rt.heap.Holds (.module r) :=
  ⟨_, (module?_eq_some rt r m).mp found, rfl⟩

section
variable {rt rt' : Runtime}

/-- The modules of before that are still there have the parents they had. -/
def SameParents (rt rt' : Runtime) : Prop :=
  ∀ r, rt.heap.Holds (.module r) → rt'.heap.Holds (.module r) → rt'.parents r = rt.parents r

theorem SameParents.holds_above (same : SameParents rt rt') (sound : rt.Sound) (sound' : rt'.Sound)
    {r a : Ref} (above : Above rt.parents r a) (before : rt.heap.Holds (.module r))
    (after : rt'.heap.Holds (.module r)) :
    rt.heap.Holds (.module a) ∧ rt'.heap.Holds (.module a) := by
  induction above with
  | self => exact ⟨before, after⟩
  | parent member _ ih =>
    exact ih (sound.holds_parent member) (sound'.holds_parent (same _ before after ▸ member))

theorem SameParents.parents (same : SameParents rt rt') (sound : rt.Sound) (sound' : rt'.Sound)
    {r : Ref} (before : rt.heap.Holds (.module r)) (after : rt'.heap.Holds (.module r)) (a : Ref)
    (above : Above rt.parents r a) : rt'.parents a = rt.parents a := by
  obtain ⟨before', after'⟩ := same.holds_above sound sound' above before after
  exact same a before' after'

theorem Faithful.carry (faithful : rt.Faithful) (sound : rt.Sound) (sound' : rt'.Sound)
    (same : SameParents rt rt')
    (memory : ∀ r m', rt'.module? r = some m' → rt.heap.isLive r →
      ∃ m, rt.module? r = some m ∧ m'.linear = m.linear)
    (fresh : ∀ r m', rt'.module? r = some m' → ¬ rt.heap.isLive r →
      m'.linear = none ∧ ∀ p ∈ m'.parents, rt.heap.Holds (.module p))
    (hierarchy : rt'.hierarchy = rt.hierarchy)
    (cached : ∀ e ∈ rt'.cache.entries.entries, rt'.heap.Holds (.module e.1.1) ∧
      rt'.Answers e.1.1 e.1.2 none none e.2) : rt'.Faithful where
  graded r := by
    have carried {r : Ref} (before : rt.heap.Holds (.module r))
        (after : rt'.heap.Holds (.module r)) : ∃ above, Linear rt'.parents r above := by
      obtain ⟨above, linear⟩ := faithful.graded r
      exact ⟨above, linear.congr (same.parents sound sound' before after)⟩
    by_cases after : rt'.heap.Holds (.module r)
    · obtain ⟨m', found⟩ := module_of_holds after
      by_cases live : rt.heap.isLive r
      · obtain ⟨m, found', -⟩ := memory r m' found live
        exact carried (holds_of_module found') after
      · refine Linear.of_parents fun p member => ?_
        have edges : rt'.parents r = m'.parents := by simp [Runtime.parents, found]
        exact carried ((fresh r m' found live).2 p (edges ▸ member)) (sound'.holds_parent member)
    · exact ⟨[r], .alone (parents_of_dead after)⟩
  remembered r m' generation above found remembered := by
    by_cases live : rt.heap.isLive r
    · obtain ⟨m, found', linear⟩ := memory r m' found live
      obtain ⟨bound, higher, current⟩ :=
        faithful.remembered r m generation above found' (linear ▸ remembered)
      have kept := same.parents sound sound' (holds_of_module found') (holds_of_module found)
      refine ⟨hierarchy ▸ bound, fun a member => (higher a member).congr kept, fun now => ?_⟩
      exact (current (hierarchy ▸ now)).congr kept
    · rw [(fresh r m' found live).1] at remembered
      cases remembered
  cached := cached

/-- A cached answer stays right when the modules of before keep their parents and tables. -/
theorem Answers.carry {cls : Ref} {name : Sym} {after exclude answer : Option Method}
    (right : rt.Answers cls name after exclude answer) (sound : rt.Sound) (sound' : rt'.Sound)
    (same : SameParents rt rt')
    (tables : ∀ r, rt.heap.Holds (.module r) → rt'.heap.Holds (.module r) →
      rt'.method? r name = rt.method? r name)
    (live : rt.heap.Holds (.module cls)) (live' : rt'.heap.Holds (.module cls)) :
    rt'.Answers cls name after exclude answer := by
  refine right.congr (same.parents sound sound' live live') fun a above => ?_
  obtain ⟨before, after⟩ := same.holds_above sound sound' above live live'
  exact tables a before after

end

end Runtime
end ObjectRuntime
