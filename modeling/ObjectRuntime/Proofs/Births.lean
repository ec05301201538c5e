import ObjectRuntime.Proofs.ClassGraph

/-! Births. A singleton class is placed on the heap and then recorded on the value that it is
attached to, and a collection may run before each. Making the singleton class of any value is a
chain of collections and births, and every other step either leaves classes and singleton classes
what they are or grows the heap by one plain cell. -/

namespace ObjectRuntime

/-- A new singleton class. -/
def Module.singletonOf (v : Val) (sup : Ref) (name : String) : Module :=
  { kind := .singleton, name := some name, superclass := some sup, attached := some v, final := true }

/-- A cell with its singleton class recorded. -/
def Cell.record (s : Ref) : Kind → Cell → Cell
  | .object, .object o => .object { o with singleton := some s }
  | .module, .module m => .module { m with singleton := some s }
  | _, c => c

/-- The singleton class that is recorded in a cell of a kind. -/
def Cell.singleton? : Kind → Cell → Option Ref
  | .object, .object o => o.singleton
  | .module, .module m => m.singleton
  | _, _ => none

theorem Cell.kind_record (s : Ref) (k : Kind) (c : Cell) : (c.record s k).kind = c.kind := by
  cases k <;> cases c <;> rfl

namespace Runtime

/-- The singleton class that is recorded for a value. -/
def singleton? (rt : Runtime) : Val → Option Ref
  | .cell k r => (rt.heap.cell? r).bind (Cell.singleton? k)
  | _ => none

/-- The class that belongs above the singleton class of a value: the class of an object, `Module`
for a plain module, and for a class the singleton class of its superclass, or `Class` when it has
no superclass. -/
inductive Mirrors (rt : Runtime) : Val → Ref → Prop
  | object {r : Ref} {o : Object} (found : rt.object? r = some o) : Mirrors rt (.object r) o.cls
  | plain {r : Ref} {m : Module} (found : rt.module? r = some m) (plain : m.isClass = false) :
      Mirrors rt (.module r) CoreClass.module.ref
  | root {r : Ref} {m : Module} (found : rt.module? r = some m) (cls : m.isClass = true)
      (top : m.superclass = none) : Mirrors rt (.module r) CoreClass.klass.ref
  | below {r sup s : Ref} {m : Module} (found : rt.module? r = some m) (cls : m.isClass = true)
      (edge : m.superclass = some sup) (above : rt.singleton? (.module sup) = some s) :
      Mirrors rt (.module r) s

/-- A value that has no singleton class yet, and the class that will stand above it. -/
structure Awaits (rt : Runtime) (v : Val) (sup : Ref) : Prop where
  unmade : rt.singleton? v = none
  mirrors : rt.Mirrors v sup

def record (rt : Runtime) (v : Val) (s : Ref) : Runtime :=
  match v with
  | .cell k r => rt.modifyCell r (Cell.record s k)
  | _ => rt

/-- Place a singleton class on the heap and record it. -/
def bear (rt : Runtime) (v : Val) (sup : Ref) (name : String) : Ref × Runtime :=
  match rt.place (.module (.singletonOf v sup name)) with
  | (s, rt) => (s, rt.record v s)

inductive Birth : Runtime → Runtime → Prop
  | collect (rt : Runtime) : Birth rt rt.collect
  | bear {rt : Runtime} {v : Val} {sup : Ref} (awaits : rt.Awaits v sup) (name : String) :
      Birth rt (rt.bear v sup name).2

abbrev Births : Runtime → Runtime → Prop := Relation.ReflTransGen Birth

variable {rt rt' rt'' : Runtime} {v : Val} {r s sup : Ref}

theorem object?_eq_some (rt : Runtime) (r : Ref) (o : Object) :
    rt.object? r = some o ↔ rt.heap.cell? r = some (.object o) := by
  unfold object?
  cases rt.heap.cell? r with
  | none => simp
  | some c => cases c <;> simp

theorem record_object (rt : Runtime) (r s : Ref) :
    rt.record (.object r) s = rt.modifyObject r fun o => { o with singleton := some s } := by
  refine congrArg (rt.modifyCell r) (funext fun c => ?_)
  cases c <;> rfl

theorem record_module (rt : Runtime) (r s : Ref) :
    rt.record (.module r) s = rt.modifyModule r fun m => { m with singleton := some s } := by
  refine congrArg (rt.modifyCell r) (funext fun c => ?_)
  cases c <;> rfl

theorem cell?_record (rt : Runtime) (k : Kind) (r s a : Ref) :
    (rt.record (.cell k r) s).heap.cell? a =
      if a = r then (rt.heap.cell? r).map (Cell.record s k) else rt.heap.cell? a :=
  Heap.cell?_modify ..

theorem singleton?_object {o : Object} (found : rt.object? r = some o) :
    rt.singleton? (.object r) = o.singleton := by
  simp only [singleton?, (object?_eq_some ..).mp found, Option.bind_some]
  rfl

theorem singleton?_module {m : Module} (found : rt.module? r = some m) :
    rt.singleton? (.module r) = m.singleton := by
  simp only [singleton?, (module?_eq_some ..).mp found, Option.bind_some]
  rfl

/-! ## Births -/

/-- Only an object or a module awaits a singleton class, and it has recorded none. -/
theorem Awaits.cell (awaits : rt.Awaits v sup) :
    (∃ r o, v = .object r ∧ rt.heap.cell? r = some (.object o) ∧ o.singleton = none) ∨
      ∃ r m, v = .module r ∧ rt.heap.cell? r = some (.module m) ∧ m.singleton = none := by
  have isModule {r : Ref} {m : Module} (found : rt.module? r = some m)
      (unmade : rt.singleton? (.module r) = none) :
      ∃ r' m, Val.module r = .module r' ∧ rt.heap.cell? r' = some (.module m) ∧
        m.singleton = none :=
    ⟨r, m, rfl, (module?_eq_some ..).mp found, singleton?_module found ▸ unmade⟩
  obtain ⟨unmade, mirrors⟩ := awaits
  cases mirrors with
  | object found =>
    exact .inl ⟨_, _, rfl, (object?_eq_some ..).mp found, singleton?_object found ▸ unmade⟩
  | plain found => exact .inr (isModule found unmade)
  | root found => exact .inr (isModule found unmade)
  | below found => exact .inr (isModule found unmade)

theorem Awaits.found (awaits : rt.Awaits v sup) : ∃ k r c, v = .cell k r ∧
    rt.heap.cell? r = some c ∧ c.kind = k ∧ (k = .object ∨ k = .module) := by
  obtain ⟨r, o, rfl, found, -⟩ | ⟨r, m, rfl, found, -⟩ := awaits.cell
  · exact ⟨_, r, _, rfl, found, rfl, .inl rfl⟩
  · exact ⟨_, r, _, rfl, found, rfl, .inr rfl⟩

theorem Sound.holds_mirrored (sound : rt.Sound) (mirrors : rt.Mirrors v sup) :
    rt.heap.Holds v ∧ rt.heap.Holds (.module sup) := by
  have core (c : CoreClass) : rt.heap.Holds (.module c.ref) :=
    sound.roots _ (.core c (by cases c <;> decide))
  cases mirrors with
  | object found =>
    have cell := (object?_eq_some ..).mp found
    exact ⟨⟨_, cell, rfl⟩, sound.cells _ _ cell _ (by simp [Cell.children])⟩
  | plain found => exact ⟨holds_of_module found, core .module⟩
  | root found => exact ⟨holds_of_module found, core .klass⟩
  | below found cls edge above =>
    obtain ⟨mod, found'⟩ := module_of_holds (sound.holds_parent (superclass_mem_parents found edge))
    rw [singleton?_module found'] at above
    exact ⟨holds_of_module found,
      sound.cells _ _ ((module?_eq_some ..).mp found') _ (Module.mem_children.mpr (.singleton above))⟩

theorem intact_bear (intact : rt.Intact) (awaits : rt.Awaits v sup) (name : String) :
    (rt.bear v sup name).2.Intact := by
  obtain ⟨here, above⟩ := intact.sound.holds_mirrored awaits.mirrors
  have stored : ∀ w ∈ (Cell.module (.singletonOf v sup name)).children rt.frames,
      rt.heap.Holds w := by
    intro w held
    rcases (Module.mem_children.mp held).of_made rfl rfl rfl rfl rfl with ⟨p, edge, rfl⟩ | attached
    · cases edge
      exact above
    · cases attached
      exact here
  have placed : (rt.place (.module (.singletonOf v sup name))).2.Intact :=
    intact.place (intact.sound.place stored fun _ same => nomatch same) stored fun m same => by
      cases same
      rfl
  have held := placed.sound.roots _ (.handle (Array.mem_push.mpr (.inr rfl)))
  simp only [bear]
  obtain ⟨r, o, rfl, -⟩ | ⟨r, m, rfl, -⟩ := awaits.cell
  · rw [record_object]
    refine placed.modifyObject r (fun _ => rfl) (fun _ s same => .inr ?_) fun _ _ => .inl
    cases same
    exact held
  · rw [record_module]
    refine placed.writeModule r (fun _ => ⟨rfl, rfl⟩) (fun _ => rfl) (.inr fun _ => rfl)
      (fun _ _ => .inl) (fun _ _ => .inl) (fun _ s same => .inr ?_) (fun _ => rfl) fun _ _ => .inl
    cases same
    exact held

theorem reaches_bear (wf : rt.heap.WellFormed) (awaits : rt.Awaits v sup) (name : String) {w : Val}
    (reached : rt.Reaches w) : (rt.bear v sup name).2.Reaches w := by
  have placed := reached.place wf (.module (.singletonOf v sup name))
  have still {r : Ref} {c : Cell} (found : rt.heap.cell? r = some c) :=
    cell?_place_of_found wf (.module (.singletonOf v sup name)) found
  simp only [bear]
  obtain ⟨r, o, rfl, found, unmade⟩ | ⟨r, m, rfl, found, unmade⟩ := awaits.cell
  · refine placed.modifyCell (Cell.kind_record _ _) fun c found' w held => .inl ?_
    cases (still found).symm.trans found'
    simp only [Cell.children, unmade, Option.toList_none, List.map_nil, List.nil_append] at held
    simp only [Cell.record, Cell.children, Option.toList_some, List.map_cons, List.map_nil]
    rcases List.mem_cons.mp held with rfl | ivar
    · exact List.mem_cons_self
    · exact List.mem_cons_of_mem _ (List.mem_append_right _ ivar)
  · refine placed.modifyCell (Cell.kind_record _ _) fun c found' w held => .inl ?_
    cases (still found).symm.trans found'
    rw [Cell.children, Module.mem_children] at held
    rw [Cell.record, Cell.children, Module.mem_children]
    cases held with
    | superclass edge => exact .superclass edge
    | included edge => exact .included edge
    | method entry held => exact .method entry held
    | const entry => exact .const entry
    | singleton made => cases unmade.symm.trans made
    | attached attached => exact .attached attached
    | lexical outer => exact .lexical outer

theorem Birth.intact (birth : Birth rt rt') (intact : rt.Intact) : rt'.Intact := by
  cases birth with
  | collect => exact intact.collect
  | bear awaits name => exact intact_bear intact awaits name

theorem wellFormed_bear (wf : rt.heap.WellFormed) (v : Val) (sup : Ref) (name : String) :
    (rt.bear v sup name).2.heap.WellFormed := by
  have placed := Heap.wellFormed_alloc wf (.module (.singletonOf v sup name)) false
  cases v with
  | cell k r => exact Heap.wellFormed_modify placed r _
  | _ => exact placed

theorem Birth.wellFormed (birth : Birth rt rt') (wf : rt.heap.WellFormed) :
    rt'.heap.WellFormed := by
  cases birth with
  | collect => exact Heap.wellFormed_collect wf rt.frames rt.rootValues
  | bear awaits name => exact wellFormed_bear wf _ _ name

theorem Birth.reaches (birth : Birth rt rt') (wf : rt.heap.WellFormed) (reached : rt.Reaches v) :
    rt'.Reaches v := by
  cases birth with
  | collect => exact reached.collect
  | bear awaits name => exact reaches_bear wf awaits name reached

namespace Births

theorem intact (births : Births rt rt') (intact : rt.Intact) : rt'.Intact := by
  induction births with
  | refl => exact intact
  | tail _ birth ih => exact birth.intact ih

theorem reaches (births : Births rt rt') (intact : rt.Intact) (reached : rt.Reaches v) :
    rt'.Reaches v := by
  induction births with
  | refl => exact reached
  | tail before birth ih => exact birth.reaches (Births.intact before intact).sound.heap ih

end Births

theorem births_room (rt : Runtime) : Births rt rt.room := by
  unfold room
  split
  · exact .single (.collect rt)
  · exact .refl

theorem attachSingleton_eq (rt : Runtime) (r sup : Ref) : rt.attachSingleton r sup =
    rt.room.bear (.module r) sup s!"#<Class:{rt.defaultInspect (.module r)}>" := by
  simp only [bear, record_module]
  rfl

theorem objectSingleton_eq {o : Object} (found : rt.object? r = some o)
    (unmade : o.singleton = none) : objectSingleton r rt =
    rt.room.bear (.object r) o.cls s!"#<Class:{rt.defaultInspect (.object r)}>" := by
  simp only [objectSingleton, found, unmade, bear, record_object]
  rfl

/-! ## Making singleton classes -/

theorem cell?_collect_of_reaches {k : Kind} (reached : rt.Reaches (.cell k r)) :
    rt.collect.heap.cell? r = rt.heap.cell? r := by
  ext c
  exact (Heap.cell?_collect ..).trans ⟨And.left, fun found => ⟨found, k, reached⟩⟩

theorem cell?_room {k : Kind} (reached : rt.Reaches (.cell k r)) :
    rt.room.heap.cell? r = rt.heap.cell? r := by
  unfold room
  split
  · exact cell?_collect_of_reaches reached
  · rfl

theorem module?_room {k : Kind} (reached : rt.Reaches (.cell k r)) :
    rt.room.module? r = rt.module? r := by
  simp only [module?, cell?_room reached]

theorem singleton?_room {k : Kind} (reached : rt.Reaches (.cell k r)) :
    rt.room.singleton? (.cell k r) = rt.singleton? (.cell k r) := by
  simp only [singleton?, cell?_room reached]

/-- After a birth there is the new class, the value has it recorded, and all else is as before. -/
theorem cell?_bear (wf : rt.heap.WellFormed) {k : Kind} {c : Cell}
    (found : rt.heap.cell? r = some c) (sup : Ref) (name : String) (a : Ref) :
    (rt.bear (.cell k r) sup name).2.heap.cell? a =
      if a = (rt.bear (.cell k r) sup name).1 then
        some (.module (.singletonOf (.cell k r) sup name))
      else if a = r then some (c.record (rt.bear (.cell k r) sup name).1 k)
      else rt.heap.cell? a := by
  have still := cell?_place_of_found wf (.module (.singletonOf (.cell k r) sup name)) found
  have fresh := place_fresh wf (.module (.singletonOf (.cell k r) sup name))
  have placed : (rt.bear (.cell k r) sup name).1 =
      (rt.place (.module (.singletonOf (.cell k r) sup name))).1 := rfl
  have recorded : (rt.bear (.cell k r) sup name).2 =
      (rt.place (.module (.singletonOf (.cell k r) sup name))).2.record (.cell k r)
        (rt.place (.module (.singletonOf (.cell k r) sup name))).1 := rfl
  rw [recorded, placed, cell?_record]
  by_cases here : a = r
  · subst here
    rw [if_pos rfl, still, if_neg, if_pos rfl, Option.map_some]
    intro same
    rw [← same, found] at fresh
    cases fresh
  · rw [if_neg here, if_neg here, cell?_place wf]

theorem cell?_bear_of_ne (wf : rt.heap.WellFormed) {k : Kind} {a : Ref} {c : Cell}
    (found : rt.heap.cell? a = some c) (apart : a ≠ r) (sup : Ref) (name : String) :
    (rt.bear (.cell k r) sup name).2.heap.cell? a = some c := by
  simp only [bear, cell?_record, if_neg apart]
  exact cell?_place_of_found wf _ found

theorem singleton?_place (wf : rt.heap.WellFormed) {c : Cell}
    (unmade : ∀ k, c.singleton? k = none) (w : Val) :
    (rt.place c).2.singleton? w = rt.singleton? w := by
  cases w with
  | cell k a =>
    simp only [singleton?, cell?_place wf]
    split
    next new => rw [new, place_fresh wf, Option.bind_none, Option.bind_some, unmade]
    next => rfl
  | _ => rfl

theorem Cell.singleton?_record {c : Cell} {k : Kind} (kind : c.kind = k)
    (either : k = .object ∨ k = .module) (s : Ref) (k' : Kind) :
    (c.record s k).singleton? k' = if k' = k then some s else c.singleton? k' := by
  rcases either with rfl | rfl <;> cases c <;> cases kind <;> cases k' <;> rfl

/-- A birth records the new class for the value it is attached to, and no other. -/
theorem singleton?_bear (wf : rt.heap.WellFormed) (awaits : rt.Awaits v sup) (name : String)
    (w : Val) : (rt.bear v sup name).2.singleton? w =
      if w = v then some (rt.bear v sup name).1 else rt.singleton? w := by
  obtain ⟨k, r, c, rfl, found, kind, either⟩ := awaits.found
  cases w with
  | cell k' a =>
    simp only [singleton?, cell?_bear wf found, Val.cell.injEq]
    split
    next new =>
      -- where the new class is there was nothing before
      have fresh : rt.heap.cell? a = none := new ▸ place_fresh wf _
      rw [if_neg, fresh, Option.bind_some, Option.bind_none]
      · cases k' <;> rfl
      · rintro ⟨-, same⟩
        rw [same, found] at fresh
        cases fresh
    next =>
      split
      next here =>
        subst here
        simp only [Option.bind_some, found, and_true, Cell.singleton?_record kind either]
      next here => simp only [here, and_false, if_false]
  | _ => rfl

/-- Making the singleton class of a reached module is a chain of births, and what is reached but
not above the module keeps its cell. -/
theorem MakesSingleton.births {made : Ref × Runtime} (makes : rt.MakesSingleton r made)
    (intact : rt.Intact) (reached : rt.Reaches (.module r)) :
    Births rt made.2 ∧ made.2.singleton? (.module r) = some made.1 ∧
      ∀ k a c, rt.Reaches (.cell k a) → ¬ Above rt.parents r a → rt.heap.cell? a = some c →
        made.2.heap.cell? a = some c := by
  -- one more birth, after which the class is recorded
  have attach {rt₁ : Runtime} {r sup : Ref} {m : Module} (intact : rt₁.Intact)
      (reached : rt₁.Reaches (.module r)) (found : rt₁.module? r = some m)
      (unmade : m.singleton = none) (mirrors : rt₁.room.Mirrors (.module r) sup) :
      Births rt₁ (rt₁.attachSingleton r sup).2 ∧
        (rt₁.attachSingleton r sup).2.singleton? (.module r) =
          some (rt₁.attachSingleton r sup).1 ∧
        ∀ k a c, rt₁.Reaches (.cell k a) → a ≠ r → rt₁.heap.cell? a = some c →
          (rt₁.attachSingleton r sup).2.heap.cell? a = some c := by
    have wf := intact.room.sound.heap
    have there := (module?_room reached).trans found
    have awaits : rt₁.room.Awaits (.module r) sup := ⟨singleton?_module there ▸ unmade, mirrors⟩
    rw [attachSingleton_eq]
    refine ⟨(births_room rt₁).tail (.bear awaits _), ?_, fun k a c reached' apart cell =>
      cell?_bear_of_ne wf ((cell?_room reached').trans cell) apart ..⟩
    rw [singleton?_bear wf awaits, if_pos rfl]
  induction makes with
  | had found made =>
    exact ⟨.refl, singleton?_module found ▸ made, fun _ _ _ _ _ => id⟩
  | plain found unmade plain =>
    have there := (module?_room reached).trans found
    obtain ⟨births, recorded, kept⟩ := attach intact reached found unmade (.plain there plain)
    exact ⟨births, recorded, fun k a c here away => kept k a c here fun same => away (same ▸ .self _)⟩
  | root found unmade cls top =>
    have there := (module?_room reached).trans found
    obtain ⟨births, recorded, kept⟩ := attach intact reached found unmade (.root there cls top)
    exact ⟨births, recorded, fun k a c here away => kept k a c here fun same => away (same ▸ .self _)⟩
  | @up r sup m above found unmade cls edge rest ih =>
    have edge' := superclass_mem_parents found edge
    have reached' : rt.Reaches (.module sup) :=
      child_reaches reached found (Module.mem_children.mpr (.superclass edge))
    obtain ⟨births, recorded, kept⟩ := ih reached'
    have intact' := births.intact intact
    have higher {a : Ref} (above : Above rt.parents sup a) : Above rt.parents r a :=
      .parent edge' above
    -- the module is not above its superclass, so it still has its cell
    have apart : ¬ Above rt.parents sup r :=
      (intact.faithful.graded r).choose_spec.acyclic edge'
    have here := (module?_eq_some ..).mpr
      (kept .module r _ reached apart ((module?_eq_some ..).mp found))
    have still := births.reaches intact reached
    have made : above.2.room.singleton? (.module sup) = some above.1 :=
      (singleton?_room (births.reaches intact reached')).trans recorded
    obtain ⟨births', recorded', kept'⟩ := attach intact' still here unmade
      (.below ((module?_room still).trans here) cls edge made)
    refine ⟨births.trans births', recorded', fun k a c reached away cell => ?_⟩
    exact kept' k a c (births.reaches intact reached) (fun same => away (same ▸ .self _))
      (kept k a c reached (fun above => away (higher above)) cell)

theorem births_objectSingleton (intact : rt.Intact) (reached : rt.Reaches (.object r)) :
    Births rt (objectSingleton r rt).2 ∧
      (objectSingleton r rt).2.singleton? (.object r) = some (objectSingleton r rt).1 := by
  obtain ⟨o, found⟩ : ∃ o, rt.object? r = some o := by
    obtain ⟨c, cell, kind⟩ := intact.holds reached.available
    cases c with
    | object o => exact ⟨o, (object?_eq_some ..).mpr cell⟩
    | _ => cases kind
  cases single : o.singleton with
  | some s =>
    simp only [objectSingleton, found, single]
    exact ⟨.refl, singleton?_object found ▸ single⟩
  | none =>
    have there : rt.room.object? r = some o := by
      simpa only [object?, cell?_room reached] using found
    have awaits : rt.room.Awaits (.object r) o.cls :=
      ⟨singleton?_object there ▸ single, .object there⟩
    rw [objectSingleton_eq found single]
    refine ⟨(births_room rt).tail (.bear awaits _), ?_⟩
    rw [singleton?_bear intact.room.sound.heap awaits, if_pos rfl]

/-- Making the singleton class of a value that is there makes what is missing of the classes above.
The class that is answered is recorded, unless it is the class that nil, true or false have for
it. -/
theorem births_singletonClass (intact : rt.Intact) (available : rt.Available v) :
    Births rt (rt.singletonClass v).2 ∧ ∀ s, (rt.singletonClass v).1 = .ok s →
      (∀ rt' : Runtime, rt'.singletonClass v = (.ok s, rt')) ∨
        (rt.singletonClass v).2.singleton? v = some s := by
  unfold Runtime.singletonClass
  split
  next => exact ⟨.refl, fun s answer => by cases answer; exact .inl fun _ => rfl⟩
  next => exact ⟨.refl, fun s answer => by cases answer; exact .inl fun _ => rfl⟩
  next => exact ⟨.refl, fun s answer => by cases answer; exact .inl fun _ => rfl⟩
  next r =>
    obtain ⟨births, recorded⟩ := births_objectSingleton intact available.reaches
    exact ⟨births, fun s answer => by cases answer; exact .inr recorded⟩
  next r =>
    obtain ⟨above, linear⟩ := intact.faithful.graded r
    have makes := makesSingleton_of_linear intact.sound _ (intact.holds available) linear
      (intact.sound.length_le linear)
    obtain ⟨births, recorded, -⟩ := makes.births intact available.reaches
    exact ⟨births, fun s answer => by cases answer; exact .inr recorded⟩
  next => exact ⟨.refl, fun s answer => by cases answer⟩

end Runtime
end ObjectRuntime
