import ObjectRuntime.Proofs.Including
import ObjectRuntime.Proofs.Invisible

/-! Precedence. The linearization of a class ends as that of each class above it does, save for what
comes before. So classes stand in the order of their superclasses, and what a class includes stands
before its superclass, although plain modules may stand in any order among themselves. -/

namespace ObjectRuntime.Runtime

def includes (rt : Runtime) (r : Ref) : List Ref := ((rt.module? r).map (·.includes)).getD []

def superclass? (rt : Runtime) (r : Ref) : Option Ref := (rt.module? r).bind (·.superclass)

/-- No plain module has a superclass. -/
def PlainTops (rt : Runtime) : Prop :=
  ∀ r m, rt.module? r = some m → m.isClass = false → m.superclass = none

/-- Includes lead to plain modules, and from a plain module nothing but includes leads up. -/
structure Layered (rt : Runtime) : Prop where
  includes : rt.PlainIncludes
  tops : rt.PlainTops

variable {rt rt' : Runtime} {m x c sup a i : Ref} {l l' : List Ref}

/-! ## Edges -/

theorem parents_eq (rt : Runtime) (r : Ref) :
    rt.parents r = rt.includes r ++ (rt.superclass? r).toList := by
  simp only [parents, includes, superclass?]
  cases rt.module? r <;> rfl

theorem not_isClass {m : Module} (found : rt.module? c = some m) (plain : m.isClass = false) :
    ¬ rt.IsClass c := by
  rintro ⟨m', found', cls⟩
  cases found.symm.trans found'
  rw [plain] at cls
  cases cls

namespace Layered

theorem include_plain (layered : rt.Layered) (member : i ∈ rt.includes m) : ¬ rt.IsClass i := by
  cases found : rt.module? m with
  | none => simp [Runtime.includes, found] at member
  | some mod =>
    simp only [Runtime.includes, found, Option.map_some, Option.getD_some] at member
    obtain ⟨mod', found', plain⟩ := layered.includes m mod found i member
    exact not_isClass found' plain

theorem isClass_of_superclass (layered : rt.Layered) (edge : rt.superclass? m = some sup) :
    rt.IsClass m := by
  obtain ⟨mod, found, edge⟩ := Option.bind_eq_some_iff.mp edge
  cases kind : mod.isClass with
  | true => exact ⟨mod, found, kind⟩
  | false =>
    rw [layered.tops m mod found kind] at edge
    cases edge

/-- Nothing but plain modules is above a plain module. -/
theorem above_plain (layered : rt.Layered) (plain : ¬ rt.IsClass m)
    (higher : Above rt.parents m a) : ¬ rt.IsClass a := by
  induction higher with
  | self => exact plain
  | @parent m p a member _ ih =>
    rw [parents_eq, List.mem_append] at member
    rcases member with included | edge
    · exact ih (layered.include_plain included)
    · exact absurd (layered.isClass_of_superclass (Option.mem_toList.mp edge)) plain

/-- A class above another one is above its superclass. -/
theorem above_class (layered : rt.Layered) (higher : Above rt.parents m c) (cls : rt.IsClass c) :
    c = m ∨ ∃ sup, rt.superclass? m = some sup ∧ Above rt.parents sup c := by
  rcases above_iff.mp higher with same | ⟨p, member, rest⟩
  · exact .inl same
  · rw [parents_eq, List.mem_append] at member
    rcases member with included | edge
    · exact absurd cls (layered.above_plain (layered.include_plain included) rest)
    · exact .inr ⟨p, Option.mem_toList.mp edge, rest⟩

/-! ## Where a linearization ends -/

/-- Before the linearization of its superclass, that of a class has the class itself and what is
above its includes. -/
theorem superclass_ends (linear : Linear rt.parents m l) (edge : rt.superclass? m = some sup)
    (linear' : Linear rt.parents sup l') : ∃ front, l = mergeLinear front l' ∧
      ∀ a, a ∈ front ↔ a = m ∨ ∃ i ∈ rt.includes m, Above rt.parents i a :=
  linear.of_last (by rw [parents_eq, edge, Option.toList_some]) linear'

theorem eq_of_front (layered : rt.Layered) (cls : rt.IsClass a)
    (front : a = m ∨ ∃ i ∈ rt.includes m, Above rt.parents i a) : a = m := by
  rcases front with here | ⟨i, included, higher⟩
  · exact here
  · exact absurd cls (layered.above_plain (layered.include_plain included) higher)

/-- Before the linearization of a class above it, that of a module has no classes but those below
that class. -/
theorem class_ends (layered : rt.Layered) (linear : Linear rt.parents m l)
    (higher : Above rt.parents m c) (cls : rt.IsClass c) (linear' : Linear rt.parents c l') :
    ∃ front, l = mergeLinear front l' ∧
      ∀ a ∈ front, rt.IsClass a → a ≠ c ∧ Above rt.parents a c := by
  induction higher generalizing l with
  | self =>
    refine ⟨[], ?_, by simp⟩
    rw [linear.unique linear']
    simp [mergeLinear]
  | @parent m p c member rest ih =>
    have edge : rt.superclass? m = some p := by
      rw [parents_eq, List.mem_append] at member
      rcases member with included | edge
      · exact absurd cls (layered.above_plain (layered.include_plain included) rest)
      · exact Option.mem_toList.mp edge
    obtain ⟨above, between, -⟩ := linear.of_parent member
    obtain ⟨front, same, listed⟩ := superclass_ends linear edge between
    obtain ⟨front', same', below⟩ := ih between cls linear'
    refine ⟨mergeLinear front front', ?_, fun a member' isClass => ?_⟩
    · rw [same, same', mergeLinear_assoc]
    · rcases (mem_mergeLinear front front').mp member' with before | between
      · rw [layered.eq_of_front isClass ((listed a).mp before)]
        refine ⟨fun here => ?_, .parent member rest⟩
        exact linear.acyclic member (here ▸ rest)
      · exact below a between isClass

/-- All that is above what a class includes comes before its superclass. -/
theorem includes_before (layered : rt.Layered) (linear : Linear rt.parents m l) (listed : c ∈ l)
    (cls : rt.IsClass c) (included : i ∈ rt.includes c) (higher : Above rt.parents i a)
    (edge : rt.superclass? c = some sup) (supClass : rt.IsClass sup) : [a, sup].Sublist l := by
  have above : Above rt.parents m c := linear.mem_iff.mp listed
  have member : sup ∈ rt.parents c := by simp [parents_eq, edge]
  obtain ⟨lc, linearC⟩ := linear.of_above above
  obtain ⟨ls, linearS, -⟩ := linearC.of_parent member
  obtain ⟨front, same, below⟩ := layered.class_ends linear above cls linearC
  obtain ⟨front', same', listed'⟩ := superclass_ends linearC edge linearS
  have apart : ¬ Above rt.parents sup c := linearC.acyclic member
  rw [same, same', ← mergeLinear_assoc]
  refine sublist_mergeLinear ?_ ?_ (linearS.mem_iff.mpr (.self sup))
  · exact (mem_mergeLinear ..).mpr (.inr ((listed' a).mpr (.inr ⟨i, included, higher⟩)))
  · intro early
    rcases (mem_mergeLinear ..).mp early with before | between
    · exact apart (below sup before supClass).2
    · exact apart (layered.eq_of_front supClass ((listed' sup).mp between) ▸ .self sup)

/-! ## The classes of a linearization -/

theorem filter_eq_singleton {p : Ref → Bool} (nodup : l.Nodup) (listed : ∀ a, a ∈ l ∧ p a ↔ a = m) :
    l.filter p = [m] := by
  have same : (l.filter p).Perm [m] := by
    refine (List.perm_ext_iff_of_nodup (nodup.filter p) (by simp)).mpr fun a => ?_
    rw [List.mem_filter, List.mem_singleton]
    exact listed a
  exact List.perm_singleton.mp same

theorem classes_cons (layered : rt.Layered) (linear : Linear rt.parents m l) (cls : rt.IsClass m)
    (edge : rt.superclass? m = some sup) (linear' : Linear rt.parents sup l') :
    l.filter (rt.IsClass ·) = m :: l'.filter (rt.IsClass ·) := by
  obtain ⟨front, same, listed⟩ := superclass_ends linear edge linear'
  have unique : front.Nodup := by
    rw [same] at linear
    exact (List.nodup_append.mp linear.nodup).1
  have own : front.filter (rt.IsClass ·) = [m] := by
    refine filter_eq_singleton unique fun a => ?_
    rw [listed, decide_eq_true_iff]
    constructor
    · rintro ⟨front, isClass⟩
      exact layered.eq_of_front isClass front
    · rintro rfl
      exact ⟨.inl rfl, cls⟩
  have rest : (l'.filter (· ∉ front)).filter (rt.IsClass ·) = l'.filter (rt.IsClass ·) := by
    rw [List.filter_filter]
    refine List.filter_congr fun a member => ?_
    by_cases isClass : rt.IsClass a
    · -- the class itself is not above its superclass
      have new : a ∉ front := by
        intro early
        have here := layered.eq_of_front isClass ((listed a).mp early)
        exact linear.acyclic (by simp [parents_eq, edge]) (here ▸ linear'.mem_iff.mp member)
      simp [isClass, new]
    · simp [isClass]
  rw [same, mergeLinear, List.filter_append, own, rest, List.singleton_append]

/-- The classes in a linearization are listed along their superclasses. -/
theorem classes_chain (layered : rt.Layered)
    (classes : ∀ c sup, rt.superclass? c = some sup → rt.IsClass sup)
    (linear : Linear rt.parents m l) :
    (l.filter (rt.IsClass ·)).IsChain fun c sup => rt.superclass? c = some sup := by
  induction linear with
  | intro m above linears ih =>
    have linear := Linear.intro m above linears
    revert linear
    generalize (rt.parents m).foldl (fun linear p => mergeLinear linear (above p)) [m] = l
    intro linear
    cases edge : rt.superclass? m with
    | some sup =>
      have member : sup ∈ rt.parents m := by simp [parents_eq, edge]
      obtain ⟨rest, starts⟩ := (linears sup member).head
      have chain := ih sup member
      rw [layered.classes_cons linear (layered.isClass_of_superclass edge) edge (linears sup member)]
      rw [starts, List.filter_cons_of_pos (by simpa using classes m sup edge)] at chain ⊢
      exact .cons_cons edge chain
    | none =>
      have own (a : Ref) (member : a ∈ l) (cls : rt.IsClass a) : a = m := by
        rcases layered.above_class (linear.mem_iff.mp member) cls with here | ⟨sup, edge', -⟩
        · exact here
        · cases edge.symm.trans edge'
      obtain ⟨rest, rfl⟩ := linear.head
      have plain : rest.filter (rt.IsClass ·) = [] := by
        refine List.filter_eq_nil_iff.mpr fun a member cls => ?_
        have here := own a (List.mem_cons_of_mem _ member) (by simpa using cls)
        exact (List.nodup_cons.mp linear.nodup).1 (here ▸ member)
      rw [List.filter_cons, plain]
      split
      · exact .singleton m
      · exact .nil

end Layered

/-! ## Runs -/

theorem PlainTops.growth {may : Runtime → Ref → Prop} (plain : rt.PlainTops)
    (wf : rt.heap.WellFormed) (growth : Growth may rt rt') : rt'.PlainTops := by
  intro r m' found isPlain
  cases growth with
  | birth birth =>
    cases birth with
    | collect =>
      rw [module?_eq_some] at found
      exact plain r m' ((module?_eq_some ..).mpr ((Heap.cell?_collect ..).mp found).1) isPlain
    | @bear v sup awaits name =>
      by_cases new : r = (rt.bear v sup name).1
      · rw [new, module?_bear_self wf awaits name] at found
        cases found
        cases isPlain
      · obtain ⟨m, found', kind, edge⟩ := module_of_bear wf awaits new found
        rw [← edge]
        exact plain r m found' ((isClass_of_kind kind).trans isPlain)
  | place born =>
    rw [module?_eq_some, cell?_place wf] at found
    split at found
    next =>
      cases found
      cases born with
      | data none => cases none
      | module => rfl
      | subclass => cases isPlain
    next => exact plain r m' ((module?_eq_some ..).mpr found) isPlain

theorem PlainTops.kin (plain : rt.PlainTops) (same : SameKin rt rt') : rt'.PlainTops := by
  intro r m' found isPlain
  obtain ⟨m, found', kind, edge, -⟩ := same.keeps_back.modules r m' found
  rw [← edge]
  exact plain r m found' ((isClass_of_kind kind).trans isPlain)

def isPlainTop : Cell → Bool
  | .module m => m.isClass || m.superclass.isNone
  | _ => true

theorem plainTop_first : ∀ e ∈ (firstHeap {}).slots.toList.zipIdx, ∀ c ∈ e.1.cell,
    isPlainTop c = true := by
  decide +kernel

attribute [local irreducible] firstHeap

theorem plainTops_bare (config : Config) : (bare config).PlainTops := by
  intro r m found isPlain
  obtain ⟨s, slot, occupied⟩ := slot_first ((module?_eq_some ..).mp found)
  have top := plainTop_first (s, r.index) slot _ occupied
  simpa [isPlainTop, isPlain] using top

theorem layered_after (config : Config) {moves : List Move}
    (permitted : (boot config).PermitsRun moves) : ((boot config).after moves).Layered where
  includes := plainIncludes_after config permitted
  tops := (turns_after config permitted).keep (fun same plain => plain.kin same)
    (fun wf growth plain => plain.growth wf growth) (intact_bare config).sound.heap
    (plainTops_bare config)

/-! ## Ancestries -/

/-- The ancestry of a module lists what is above it, each once and the module first. Its classes
stand along their superclasses, and all that is above the includes of a class stands before the
superclass of that class. -/
structure Orders (rt : Runtime) (m : Ref) (above : List Ref) : Prop where
  first : ∃ rest, above = m :: rest
  nodup : above.Nodup
  complete : ∀ a, a ∈ above ↔ Above rt.parents m a
  classes : (above.filter (rt.IsClass ·)).IsChain fun c sup => rt.superclass? c = some sup
  includes : ∀ c ∈ above, rt.IsClass c → ∀ sup, rt.superclass? c = some sup →
    ∀ i ∈ rt.includes c, ∀ a, Above rt.parents i a → [a, sup].Sublist above

/-- An include puts the module in the ancestry of the receiver, changes nothing when it is made
again but for what is remembered, and leaves the ancestries of modules that the receiver is not
above of. -/
structure Included (rt : Runtime) (m x : Ref) (rt' : Runtime) : Prop where
  listed : x ∈ (rt'.ancestry m).1
  again : (rt'.includeOnce m x).1 = .ok () ∧ Alike rt' (rt'.includeOnce m x).2
  others : ∀ r, m ∉ (rt.ancestry r).1 → (rt'.ancestry r).1 = (rt.ancestry r).1

theorem Intact.orders (intact : rt.Intact) (layered : rt.Layered) (classy : rt.Classy) (m : Ref) :
    rt.Orders m (rt.ancestry m).1 := by
  obtain ⟨linear, -⟩ := ancestry_spec intact.sound intact.faithful m
  have classes (c sup : Ref) (edge : rt.superclass? c = some sup) : rt.IsClass sup := by
    obtain ⟨mod, found, edge'⟩ := Option.bind_eq_some_iff.mp edge
    obtain ⟨mod', found', cls⟩ := layered.isClass_of_superclass edge
    cases found.symm.trans found'
    exact classy.superclasses c mod sup found cls edge'
  refine ⟨linear.head, linear.nodup, fun a => linear.mem_iff, layered.classes_chain classes linear, ?_⟩
  intro c listed cls sup edge i included a higher
  exact layered.includes_before linear listed cls included higher edge (classes c sup edge)

theorem Intact.included (intact : rt.Intact) (live : rt.heap.Holds (.module m))
    (there : rt.heap.Holds (.module x)) (taken : (rt.includeOnce m x).1 = .ok ()) :
    rt.Included m x (rt.includeOnce m x).2 := by
  have intact' := intact.includeOnce m there
  obtain ⟨added, gains, above⟩ : ∃ added, Gains m added rt (rt.includeOnce m x).2 ∧
      Above (rt.includeOnce m x).2.parents m x := by
    rcases includeOnce_cases intact m x with ⟨-, ⟨e, fails⟩, -⟩ | ⟨-, -, ⟨higher, gains⟩ | ⟨-, gains⟩⟩
    · cases taken.symm.trans fails
    · exact ⟨[], gains, gains.above higher⟩
    · exact ⟨[x], gains, .parent (by simp [gains.parents live]) (.self x)⟩
  have plain : ¬ (((rt.includeOnce m x).2.module? x).map (·.isClass)).getD false = true := by
    rw [gains.reads x (·.isClass) (fun _ => rfl) fun _ _ => rfl]
    intro isClass
    rw [Runtime.includeOnce, if_pos isClass] at taken
    cases taken
  generalize (rt.includeOnce m x).2 = rt' at intact' gains above plain
  obtain ⟨linear', alike, -⟩ := ancestry_spec intact'.sound intact'.faithful m
  have listed : x ∈ (rt'.ancestry m).1 := linear'.mem_iff.mpr above
  refine ⟨listed, ?_, fun r apart => ?_⟩
  · rw [Runtime.includeOnce, if_neg plain]
    simp only [if_pos listed]
    exact ⟨trivial, alike⟩
  · obtain ⟨linear, -⟩ := ancestry_spec intact.sound intact.faithful r
    obtain ⟨linear', -⟩ := ancestry_spec intact'.sound intact'.faithful r
    refine linear'.unique (linear.congr fun a higher => gains.parents_of_ne ?_)
    rintro rfl
    exact apart (linear.mem_iff.mpr higher)

/-- In every state of a run that makes objects of classes only, the ancestry of each module is an
order of what is above it, and an include that succeeds extends it and no ancestry that the
receiver is not in. -/
theorem ancestry_orders (config : Config) (moves : List Move)
    (permitted : (boot config).PermitsRun moves) (classes : Instances IsClass (boot config) moves) :
    let rt := (boot config).after moves
    ∀ m, rt.heap.Holds (.module m) → rt.Orders m (rt.ancestry m).1 ∧
      ∀ x rt', rt.heap.Holds (.module x) → rt.includeOnce m x = (.ok (), rt') →
        rt.Included m x rt' := by
  intro rt m live
  have intact : rt.Intact := (intact_boot config).after permitted
  obtain ⟨-, classy⟩ := classy_run config permitted classes
  refine ⟨intact.orders (layered_after config permitted) classy m, fun x rt' there taken => ?_⟩
  have included := intact.included live there (congrArg Prod.fst taken)
  rwa [taken] at included

/-- Two classes and two modules. The upper class includes the first module, the lower class the
second. -/
def layering : List Move :=
  [.act (.subclass CoreClass.object.ref none none), .act (.subclass ⟨38, 0⟩ none none),
   .act .newModule, .act .newModule, .act (.includeOnce ⟨38, 0⟩ ⟨40, 0⟩),
   .act (.includeOnce ⟨39, 0⟩ ⟨41, 0⟩)]

theorem permits_layering : (boot {}).PermitsRun layering := by
  refine ⟨.of_roots (List.forall_mem_singleton.mpr (.core .object (by decide))) rfl,
    .of_roots (List.forall_mem_singleton.mpr (.handle ?_)) rfl,
    .of_roots (fun _ member => nomatch member) rfl, .of_roots (fun _ member => nomatch member) rfl,
    .of_roots (List.forall_mem_cons.mpr ⟨.handle ?_, List.forall_mem_singleton.mpr (.handle ?_)⟩) rfl,
    .of_roots (List.forall_mem_cons.mpr ⟨.handle ?_, List.forall_mem_singleton.mpr (.handle ?_)⟩) rfl,
    trivial⟩
  all_goals decide +kernel

theorem layering_orders : let rt := (boot {}).after layering
    ((boot {}).PermitsRun layering ∧ Instances IsClass (boot {}) layering ∧
      rt.heap.Holds (.module ⟨39, 0⟩) ∧ rt.heap.Holds (.module ⟨40, 0⟩)) ∧
    rt.Orders ⟨39, 0⟩ (rt.ancestry ⟨39, 0⟩).1 ∧
    ∃ rt', rt.includeOnce ⟨41, 0⟩ ⟨40, 0⟩ = (.ok (), rt') ∧ rt.Included ⟨41, 0⟩ ⟨40, 0⟩ rt' := by
  intro rt
  have classes : Instances IsClass (boot {}) layering :=
    ⟨nofun, nofun, nofun, nofun, nofun, nofun, trivial⟩
  have there : rt.heap.Holds (.module ⟨39, 0⟩) ∧ rt.heap.Holds (.module ⟨40, 0⟩) ∧
      rt.heap.Holds (.module ⟨41, 0⟩) := by
    decide +kernel
  have orders := ancestry_orders {} layering permits_layering classes
  have taken : (rt.includeOnce ⟨41, 0⟩ ⟨40, 0⟩).1.isOk = true := by decide +kernel
  refine ⟨⟨permits_layering, classes, there.1, there.2.1⟩, (orders _ there.1).1, ?_⟩
  cases done : rt.includeOnce ⟨41, 0⟩ ⟨40, 0⟩ with
  | mk answer rt' =>
    rw [done] at taken
    cases answer with
    | ok => exact ⟨rt', rfl, (orders _ there.2.2).2 _ rt' there.2.1 done⟩
    | error e => cases taken

end ObjectRuntime.Runtime
