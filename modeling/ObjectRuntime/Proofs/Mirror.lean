import ObjectRuntime.Proofs.Growth

/-! The mirror of the class graph. Every singleton class is recorded by the value that it is
attached to, and stands below the class that belongs above it: below the singleton class of the
superclass, for a class that has one. Collections between a birth and the next keep it so. -/

namespace ObjectRuntime.Runtime

/-- Values and singleton classes belong to each other, and the superclasses of singleton classes
mirror those of the classes that they are attached to. -/
structure Mirrored (rt : Runtime) : Prop where
  attached : ∀ x m, rt.module? x = some m → m.isSingleton = true →
    ∃ v, m.attached = some v ∧ rt.singleton? v = some x
  recorded : ∀ v x, rt.singleton? v = some x → ∃ m sup, rt.module? x = some m ∧
    m.isSingleton = true ∧ m.attached = some v ∧ m.superclass = some sup ∧ rt.Mirrors v sup

/-- Objects and modules stay what they are, but for singleton classes that are recorded. -/
structure Keeps (rt rt' : Runtime) : Prop where
  objects : ∀ r o, rt.object? r = some o → ∃ o', rt'.object? r = some o' ∧ o'.cls = o.cls
  modules : ∀ r m, rt.module? r = some m → ∃ m', rt'.module? r = some m' ∧ m'.kind = m.kind ∧
    m'.superclass = m.superclass ∧ m'.attached = m.attached
  singletons : ∀ v s, rt.singleton? v = some s → rt'.singleton? v = some s

variable {may : Runtime → Ref → Prop} {rt rt' rt'' : Runtime} {v : Val} {r x sup : Ref}

theorem isClass_of_kind {m m' : Module} (same : m'.kind = m.kind) : m'.isClass = m.isClass := by
  rw [Module.isClass, same, Module.isClass]

theorem isSingleton_of_kind {m m' : Module} (same : m'.kind = m.kind) :
    m'.isSingleton = m.isSingleton := by
  rw [Module.isSingleton, same, Module.isSingleton]

theorem Mirrors.keep (mirrors : rt.Mirrors v sup) (keeps : Keeps rt rt') : rt'.Mirrors v sup := by
  cases mirrors with
  | object found =>
    obtain ⟨o', found', cls⟩ := keeps.objects _ _ found
    exact cls ▸ .object found'
  | plain found plain =>
    obtain ⟨m', found', kind, -⟩ := keeps.modules _ _ found
    exact .plain found' ((isClass_of_kind kind).trans plain)
  | root found cls top =>
    obtain ⟨m', found', kind, edge, -⟩ := keeps.modules _ _ found
    exact .root found' ((isClass_of_kind kind).trans cls) (edge.trans top)
  | below found cls edge above =>
    obtain ⟨m', found', kind, edge', -⟩ := keeps.modules _ _ found
    exact .below found' ((isClass_of_kind kind).trans cls) (edge'.trans edge)
      (keeps.singletons _ _ above)

/-- What is kept stays mirrored, when what is new is. -/
theorem Mirrored.keep (mirrored : rt.Mirrored) (keeps : Keeps rt rt')
    (attached : ∀ x m', rt'.module? x = some m' → m'.isSingleton = true →
      (∃ m, rt.module? x = some m ∧ m.kind = m'.kind) ∨
        ∃ v, m'.attached = some v ∧ rt'.singleton? v = some x)
    (recorded : ∀ v x, rt'.singleton? v = some x → rt.singleton? v = some x ∨
      ∃ m sup, rt'.module? x = some m ∧ m.isSingleton = true ∧ m.attached = some v ∧
        m.superclass = some sup ∧ rt'.Mirrors v sup) : rt'.Mirrored where
  attached x m' found singleton := by
    rcases attached x m' found singleton with ⟨m, found', kind⟩ | new
    · obtain ⟨m'', found'', -, -, same⟩ := keeps.modules x m found'
      cases found.symm.trans found''
      obtain ⟨v, attached, made⟩ :=
        mirrored.attached x m found' ((isSingleton_of_kind kind).trans singleton)
      exact ⟨v, same.trans attached, keeps.singletons v x made⟩
    · exact new
  recorded v x made := by
    rcases recorded v x made with before | new
    · obtain ⟨m, sup, found, singleton, attached, edge, mirrors⟩ := mirrored.recorded v x before
      obtain ⟨m', found', kind, edge', attached'⟩ := keeps.modules x m found
      exact ⟨m', sup, found', (isSingleton_of_kind kind).trans singleton,
        attached'.trans attached, edge'.trans edge, mirrors.keep keeps⟩
    · exact new

/-! ## Steps that leave the classes alone -/

theorem singleton?_kin (c : Cell) (k : Kind) :
    c.singleton? k = c.kin.bind (Cell.singleton? k) := by
  cases c <;> cases k <;> rfl

theorem singleton?_of_kin
    (cells : ∀ r, (rt'.heap.cell? r).bind Cell.kin = (rt.heap.cell? r).bind Cell.kin) (v : Val) :
    rt'.singleton? v = rt.singleton? v := by
  have by_kin (rt : Runtime) (k : Kind) (r : Ref) : rt.singleton? (.cell k r) =
      ((rt.heap.cell? r).bind Cell.kin).bind (Cell.singleton? k) := by
    rw [Option.bind_assoc]
    exact Option.bind_congr fun c _ => singleton?_kin c k
  cases v with
  | cell k r => rw [by_kin, cells, by_kin]
  | _ => rfl

theorem module_of_kin {c : Cell} {m : Module} (kin : c.kin = (Cell.module m).kin) :
    ∃ m', c = .module m' ∧ m'.kind = m.kind ∧ m'.superclass = m.superclass ∧
      m'.attached = m.attached := by
  cases c with
  | module m' =>
    cases m; cases m'; cases kin
    exact ⟨_, rfl, rfl, rfl, rfl⟩
  | _ => cases kin

theorem keeps_of_kin
    (cells : ∀ r, (rt'.heap.cell? r).bind Cell.kin = (rt.heap.cell? r).bind Cell.kin) :
    Keeps rt rt' where
  objects r o found := by
    have cell := cells r
    rw [(object?_eq_some ..).mp found] at cell
    obtain ⟨c, cell', kin⟩ := Option.bind_eq_some_iff.mp cell
    cases c with
    | object o' =>
      cases o; cases o'; cases kin
      exact ⟨_, (object?_eq_some ..).mpr cell', rfl⟩
    | _ => cases kin
  modules r m found := by
    have cell := cells r
    rw [(module?_eq_some ..).mp found] at cell
    obtain ⟨c, cell', kin⟩ := Option.bind_eq_some_iff.mp cell
    obtain ⟨m', rfl, rest⟩ := module_of_kin kin
    exact ⟨m', (module?_eq_some ..).mpr cell', rest⟩
  singletons v _ := (singleton?_of_kin cells v).trans

theorem SameKin.keeps (same : SameKin rt rt') : Keeps rt rt' := keeps_of_kin same.cells

theorem SameKin.keeps_back (same : SameKin rt rt') : Keeps rt' rt :=
  keeps_of_kin fun r => (same.cells r).symm

theorem Mirrored.kin (mirrored : rt.Mirrored) (same : SameKin rt rt') : rt'.Mirrored :=
  mirrored.keep same.keeps (fun x m' found _ => by
      obtain ⟨m, found', kind, -⟩ := same.keeps_back.modules x m' found
      exact .inl ⟨m, found', kind⟩)
    fun v x made => .inl (same.keeps_back.singletons v x made)

/-! ## Growth -/

theorem mem_children_of_singleton? {c : Cell} {k : Kind} (fs : Frames)
    (made : c.singleton? k = some x) : .module x ∈ c.children fs := by
  cases c with
  | object o =>
    cases k with
    | object =>
      have own : o.singleton = some x := made
      simp [Cell.children, own]
    | _ => cases made
  | module m =>
    cases k with
    | module => exact Module.mem_children.mpr (.singleton made)
    | _ => cases made
  | _ => cases k <;> cases made

theorem Mirrors.collect {k k' : Kind} (mirrors : rt.Mirrors (.cell k r) sup)
    (reached : rt.Reaches (.cell k' r)) : rt.collect.Mirrors (.cell k r) sup := by
  have same := cell?_collect_of_reaches reached
  have modules : rt.collect.module? r = rt.module? r := by simp only [module?, same]
  cases mirrors with
  | object found => exact .object (by simpa only [object?, same] using found)
  | plain found plain => exact .plain (modules.trans found) plain
  | root found cls top => exact .root (modules.trans found) cls top
  | below found cls edge above =>
    have higher : rt.Reaches (.module _) := .child reached ((module?_eq_some ..).mp found)
      (Module.mem_children.mpr (.superclass edge))
    refine .below (modules.trans found) cls edge ?_
    simpa only [singleton?, cell?_collect_of_reaches higher] using above

/-- A value that is kept keeps its singleton class, and a singleton class keeps its value. -/
theorem Mirrored.collect (mirrored : rt.Mirrored) : rt.collect.Mirrored := by
  have survivor {r : Ref} {c : Cell} (found : rt.collect.heap.cell? r = some c) :
      rt.heap.cell? r = some c ∧ ∃ k, rt.Reaches (.cell k r) := (Heap.cell?_collect ..).mp found
  refine ⟨fun x m found singleton => ?_, fun v x made => ?_⟩
  · obtain ⟨cell, k, reached⟩ := survivor ((module?_eq_some ..).mp found)
    obtain ⟨v, attached, made⟩ :=
      mirrored.attached x m ((module?_eq_some ..).mpr cell) singleton
    have there : rt.Reaches v := .child reached cell (Module.mem_children.mpr (.attached attached))
    refine ⟨v, attached, ?_⟩
    cases v with
    | cell k r => simpa only [singleton?, cell?_collect_of_reaches there] using made
    | _ => cases made
  · cases v with
    | cell k r =>
      obtain ⟨c, cell, own⟩ := Option.bind_eq_some_iff.mp made
      obtain ⟨cell', k', reached⟩ := survivor cell
      have made' : rt.singleton? (.cell k r) = some x := by
        simp only [singleton?, cell', Option.bind_some, own]
      obtain ⟨m, sup, found, singleton, attached, edge, mirrors⟩ := mirrored.recorded _ x made'
      have there : rt.Reaches (.module x) :=
        .child reached cell' (mem_children_of_singleton? rt.frames own)
      refine ⟨m, sup, ?_, singleton, attached, edge, mirrors.collect reached⟩
      simpa only [module?, cell?_collect_of_reaches there] using found
    | _ => cases made

theorem Keeps.trans (first : Keeps rt rt') (second : Keeps rt' rt'') : Keeps rt rt'' where
  objects r o found := by
    obtain ⟨o', found', cls⟩ := first.objects r o found
    obtain ⟨o'', found'', cls'⟩ := second.objects r o' found'
    exact ⟨o'', found'', cls'.trans cls⟩
  modules r m found := by
    obtain ⟨m', found', kind, edge, attached⟩ := first.modules r m found
    obtain ⟨m'', found'', kind', edge', attached'⟩ := second.modules r m' found'
    exact ⟨m'', found'', kind'.trans kind, edge'.trans edge, attached'.trans attached⟩
  singletons v s made := second.singletons v s (first.singletons v s made)

theorem keeps_place (wf : rt.heap.WellFormed) {c : Cell} (unmade : ∀ k, c.singleton? k = none) :
    Keeps rt (rt.place c).2 where
  objects r o found := by
    rw [object?_eq_some] at found
    exact ⟨o, (object?_eq_some ..).mpr (cell?_place_of_found wf c found), rfl⟩
  modules r m found := by
    rw [module?_eq_some] at found
    exact ⟨m, (module?_eq_some ..).mpr (cell?_place_of_found wf c found), rfl, rfl, rfl⟩
  singletons v s made := (singleton?_place wf unmade v).trans made

theorem keeps_record (unmade : rt.singleton? v = none) (s : Ref) : Keeps rt (rt.record v s) := by
  cases v with
  | cell k r =>
    refine ⟨fun a o found => ?_, fun a m found => ?_, fun w x made => ?_⟩
    · simp only [object?_eq_some] at found ⊢
      rw [cell?_record]
      split
      next same =>
        rw [← same, found]
        cases k with
        | object => exact ⟨_, rfl, rfl⟩
        | _ => exact ⟨o, rfl, rfl⟩
      next => exact ⟨o, found, rfl⟩
    · simp only [module?_eq_some] at found ⊢
      rw [cell?_record]
      split
      next same =>
        rw [← same, found]
        cases k with
        | module => exact ⟨_, rfl, rfl, rfl, rfl⟩
        | _ => exact ⟨m, rfl, rfl, rfl, rfl⟩
      next => exact ⟨m, found, rfl, rfl, rfl⟩
    · cases w with
      | cell k' a =>
        obtain ⟨c, cell, own⟩ := Option.bind_eq_some_iff.mp made
        simp only [singleton?, cell?_record]
        split
        next same =>
          subst same
          have apart : k' ≠ k := by
            rintro rfl
            cases unmade.symm.trans made
          rw [cell, Option.map_some, Option.bind_some, ← own]
          cases c <;> cases k' <;> cases k <;> first | rfl | exact absurd rfl apart
        next => exact made
      | _ => cases made
  | _ => exact ⟨fun _ o found => ⟨o, found, rfl⟩, fun _ m found => ⟨m, found, rfl, rfl, rfl⟩,
      fun _ _ => id⟩

theorem keeps_bear (wf : rt.heap.WellFormed) (awaits : rt.Awaits v sup) (name : String) :
    Keeps rt (rt.bear v sup name).2 := by
  have none : ∀ k, (Cell.module (.singletonOf v sup name)).singleton? k = none := fun k => by
    cases k <;> rfl
  exact (keeps_place wf none).trans
    (keeps_record ((singleton?_place wf none v).trans awaits.unmade) _)

/-- No cell but the one a birth makes is a singleton class, or has one. -/
theorem Born.plain {c : Cell} (born : Born may rt c) : (∀ k, c.singleton? k = none) ∧
    ∀ m, c = .module m → m.isSingleton = false := by
  cases born with
  | data plain =>
    refine ⟨fun k => by rw [singleton?_kin, plain]; rfl, ?_⟩
    rintro m rfl
    cases plain
  | _ =>
    refine ⟨fun k => by cases k <;> rfl, ?_⟩
    rintro m same
    cases same
    try rfl

theorem Mirrored.place (mirrored : rt.Mirrored) (wf : rt.heap.WellFormed) {c : Cell}
    (born : Born may rt c) : (rt.place c).2.Mirrored := by
  obtain ⟨unmade, plain⟩ := born.plain
  refine mirrored.keep (keeps_place wf unmade) (fun x m found singleton => .inl ?_)
    fun v x made => .inl ((singleton?_place wf unmade v).symm.trans made)
  rw [module?_eq_some, cell?_place wf] at found
  split at found
  next =>
    rw [plain m (Option.some.inj found)] at singleton
    cases singleton
  next => exact ⟨m, (module?_eq_some ..).mpr found, rfl⟩

theorem module?_bear_self (wf : rt.heap.WellFormed) (awaits : rt.Awaits v sup) (name : String) :
    (rt.bear v sup name).2.module? (rt.bear v sup name).1 = some (.singletonOf v sup name) := by
  obtain ⟨k, r, c, rfl, found, -⟩ := awaits.found
  rw [module?_eq_some, cell?_bear wf found, if_pos rfl]

/-- Every module but the new class was there before the birth. -/
theorem module_of_bear (wf : rt.heap.WellFormed) (awaits : rt.Awaits v sup) {name : String}
    {x : Ref} {m' : Module} (apart : x ≠ (rt.bear v sup name).1)
    (there : (rt.bear v sup name).2.module? x = some m') :
    ∃ m, rt.module? x = some m ∧ m.kind = m'.kind ∧ m.superclass = m'.superclass := by
  obtain ⟨k, r, c, rfl, found, -⟩ := awaits.found
  rw [module?_eq_some, cell?_bear wf found, if_neg apart] at there
  simp only [module?_eq_some]
  split at there
  next same =>
    subst same
    cases c with
    | module m =>
      refine ⟨m, found, ?_⟩
      cases k <;> cases there <;> exact ⟨rfl, rfl⟩
    | _ => cases k <;> cases there
  next => exact ⟨m', there, rfl, rfl⟩

theorem object_of_bear (wf : rt.heap.WellFormed) (awaits : rt.Awaits v sup) {name : String}
    {a : Ref} {o' : Object} (there : (rt.bear v sup name).2.object? a = some o') :
    ∃ o, rt.object? a = some o ∧ o.cls = o'.cls := by
  obtain ⟨k, r, c, rfl, found, -⟩ := awaits.found
  rw [object?_eq_some, cell?_bear wf found] at there
  simp only [object?_eq_some]
  split at there
  next => cases there
  next =>
    split at there
    next same =>
      subst same
      cases c with
      | object o =>
        refine ⟨o, found, ?_⟩
        cases k <;> cases there <;> rfl
      | _ => cases k <;> cases there
    next => exact ⟨o', there, rfl⟩

theorem Mirrored.bear (mirrored : rt.Mirrored) (wf : rt.heap.WellFormed) (awaits : rt.Awaits v sup)
    (name : String) : (rt.bear v sup name).2.Mirrored := by
  have keeps := keeps_bear wf awaits name
  have made := singleton?_bear wf awaits name
  have new := module?_bear_self wf awaits name
  refine mirrored.keep keeps (fun x m found singleton => ?_) fun w x own => ?_
  · by_cases same : x = (rt.bear v sup name).1
    · subst same
      cases new.symm.trans found
      exact .inr ⟨v, rfl, by rw [made, if_pos rfl]⟩
    · obtain ⟨m', found', kind, -⟩ := module_of_bear wf awaits same found
      exact .inl ⟨m', found', kind⟩
  · rw [made] at own
    split at own
    next same =>
      cases own
      exact .inr ⟨_, sup, new, rfl, congrArg some same.symm, rfl, same ▸ awaits.mirrors.keep keeps⟩
    next => exact .inl own

theorem Mirrored.growth (mirrored : rt.Mirrored) (wf : rt.heap.WellFormed)
    (growth : Growth may rt rt') : rt'.Mirrored := by
  cases growth with
  | birth birth =>
    cases birth with
    | collect => exact mirrored.collect
    | bear awaits name => exact mirrored.bear wf awaits name
  | place born => exact mirrored.place wf born

/-! ## Runs -/

/-- A cell that neither is a singleton class nor has one. -/
def isUnmade : Cell → Bool
  | .object o => o.singleton.isNone
  | .module m => m.singleton.isNone && !m.isSingleton
  | _ => true

theorem unmade_first : ∀ e ∈ (firstHeap {}).slots.toList.zipIdx, ∀ c ∈ e.1.cell,
    isUnmade c = true := by
  decide +kernel

attribute [local irreducible] firstHeap

theorem mirrored_bare (config : Config) : (bare config).Mirrored := by
  have unmade {r : Ref} {c : Cell} (found : (bare config).heap.cell? r = some c) :
      isUnmade c = true := by
    obtain ⟨s, slot, occupied⟩ := slot_first found
    exact unmade_first (s, r.index) slot c occupied
  refine ⟨fun x m found singleton => ?_, fun v x made => ?_⟩
  · have none := unmade ((module?_eq_some ..).mp found)
    simp [isUnmade, singleton] at none
  · cases v with
    | cell k r =>
      obtain ⟨c, found, own⟩ := Option.bind_eq_some_iff.mp made
      have none := unmade found
      cases c with
      | object o =>
        cases k with
        | object =>
          have own : o.singleton = some x := own
          simp [isUnmade, own] at none
        | _ => cases own
      | module m =>
        cases k with
        | module =>
          have own : m.singleton = some x := own
          simp [isUnmade, own] at none
        | _ => cases own
      | _ => cases k <;> cases own
    | _ => cases made

/-- Objects may be made of whatever a program likes. -/
def Anything (_ : Runtime) (_ : Ref) : Prop := True

/-- A value is there at every state of a run that a move is made in. -/
def Stays (v : Val) : Runtime → List Move → Prop
  | _, [] => True
  | rt, move :: rest => rt.Available v ∧ Stays v (move.run rt).2 rest

theorem singletonClass_of_recorded (made : rt.singleton? v = some x) :
    rt.singletonClass v = (.ok x, rt) := by
  cases v with
  | cell k r =>
    obtain ⟨c, found, own⟩ := Option.bind_eq_some_iff.mp made
    cases c with
    | object o =>
      cases k with
      | object =>
        have own : o.singleton = some x := own
        simp only [singletonClass, objectSingleton, (object?_eq_some ..).mpr found, own]
      | _ => cases own
    | module m =>
      cases k with
      | module =>
        have own : m.singleton = some x := own
        obtain ⟨fuel, size⟩ := Nat.exists_eq_succ_of_ne_zero
          (Nat.ne_of_gt (Nat.zero_lt_of_lt (Heap.index_lt_of_cell found)))
        simp only [singletonClass, size, moduleSingleton, (module?_eq_some ..).mpr found, own]
      | _ => cases own
    | _ => cases k <;> cases own
  | _ => cases made

theorem Growth.recorded (growth : Growth may rt rt') (wf : rt.heap.WellFormed)
    (reached : rt.Reaches v) (made : rt.singleton? v = some x) : rt'.singleton? v = some x := by
  cases growth with
  | birth birth =>
    cases birth with
    | collect =>
      cases v with
      | cell k r => simpa only [singleton?, cell?_collect_of_reaches reached] using made
      | _ => cases made
    | bear awaits name => exact (keeps_bear wf awaits name).singletons v x made
  | place born => exact (keeps_place wf born.plain.1).singletons v x made

/-- A move that a recorded value is there for leaves it its singleton class. -/
theorem recorded_move (intact : rt.Intact) {move : Move} (permitted : rt.PermitsMove move)
    (available : rt.Available v) (made : rt.singleton? v = some x) :
    (move.run rt).2.singleton? v = some x := by
  have anything : ∀ cls, move.instantiates = some cls → Anything rt.room cls := fun _ _ => trivial
  rcases growths_move intact permitted anything with same | grown
  · exact same.keeps.singletons v x made
  · cases v with
    | cell k r =>
      have all : ∀ {rt'}, Growths Anything rt rt' → rt'.heap.WellFormed ∧
          rt'.Reaches (.cell k r) ∧ rt'.singleton? (.cell k r) = some x := by
        intro rt' grown
        induction grown with
        | refl => exact ⟨intact.sound.heap, available.reaches, made⟩
        | tail _ growth ih =>
          obtain ⟨wf, reached, made⟩ := ih
          exact ⟨growth.wellFormed wf, growth.reaches wf reached, growth.recorded wf reached made⟩
      exact (all grown).2.2
    | _ => cases made

theorem recorded_after {moves : List Move} (intact : rt.Intact) (permitted : rt.PermitsRun moves)
    (stays : Stays v rt moves) (made : rt.singleton? v = some x) :
    (rt.after moves).singleton? v = some x := by
  induction moves generalizing rt with
  | nil => exact made
  | cons move rest ih =>
    exact ih (intact.move permitted.1) permitted.2 stays.2
      (recorded_move intact permitted.1 stays.1 made)

theorem turns_after (config : Config) {moves : List Move}
    (permitted : (boot config).PermitsRun moves) :
    Turns Anything (bare config) ((boot config).after moves) := by
  have anything (rt : Runtime) (moves : List Move) : Instances Anything rt moves := by
    induction moves generalizing rt with
    | nil => trivial
    | cons move rest ih => exact ⟨fun _ _ => trivial, ih _⟩
  have running : Turns Anything (boot config) ((boot config).after moves) :=
    .after (fun _ => id) (intact_boot config) permitted (anything _ _)
  exact (Turns.boot config).trans running

theorem mirrored_run (config : Config) {moves : List Move}
    (permitted : (boot config).PermitsRun moves) : ((boot config).after moves).Mirrored :=
  (turns_after config permitted).keep (fun same mirrored => mirrored.kin same)
    (fun wf growth mirrored => mirrored.growth wf growth) (intact_bare config).sound.heap
    (mirrored_bare config)

/-- In every run of a new runtime, singleton classes mirror the class graph, no value has two of
them, and a value that stays there is answered with the same one for ever. -/
theorem mirrored_after (config : Config) (moves : List Move)
    (permitted : (boot config).PermitsRun moves) :
    ((boot config).after moves).Mirrored ∧
    (∀ x y m m', ((boot config).after moves).module? x = some m → m.isSingleton = true →
      ((boot config).after moves).module? y = some m' → m'.isSingleton = true →
      m.attached = m'.attached → x = y) ∧
    ∀ v s rt, ((boot config).after moves).Available v →
      ((boot config).after moves).singletonClass v = (.ok s, rt) →
      ∀ later, rt.PermitsRun later → Stays v rt later →
        (rt.after later).singletonClass v = (.ok s, rt.after later) := by
  have intact := (intact_boot config).after permitted
  have mirrored := mirrored_run config permitted
  generalize (boot config).after moves = rt at intact mirrored ⊢
  refine ⟨mirrored, fun x y m m' found singleton found' singleton' same => ?_,
    fun v s rt' available answer later permitted stays => ?_⟩
  · obtain ⟨v, attached, made⟩ := mirrored.attached x m found singleton
    obtain ⟨v', attached', made'⟩ := mirrored.attached y m' found' singleton'
    cases attached.symm.trans (same.trans attached')
    exact Option.some.inj (made.symm.trans made')
  · obtain ⟨-, recorded⟩ := births_singletonClass intact available
    have intact' := intact.singletonClass available
    rw [answer] at recorded intact'
    rcases recorded s rfl with constant | made
    · exact constant _
    · exact singletonClass_of_recorded (recorded_after intact' permitted stays made)

/-- A class below another, an object of it, the singleton classes of both and of a singleton class,
and a collection between them. -/
def mirroring : List Move :=
  [.act (.subclass CoreClass.object.ref none none), .act (.subclass ⟨38, 0⟩ none none),
   .act (.newObject ⟨39, 0⟩), .act (.singletonClass (.module ⟨39, 0⟩)), .act .collect,
   .act (.singletonClass (.object ⟨40, 0⟩)), .act (.singletonClass (.module ⟨42, 0⟩))]

theorem permits_mirroring : (boot {}).PermitsRun mirroring := by
  refine ⟨.of_roots (List.forall_mem_singleton.mpr (.core .object (by decide))) rfl,
    .of_roots (List.forall_mem_singleton.mpr (.handle ?_)) rfl,
    .of_roots (List.forall_mem_singleton.mpr (.handle ?_)) rfl,
    .of_roots (List.forall_mem_singleton.mpr (.handle ?_)) rfl,
    .of_roots (fun _ member => nomatch member) rfl,
    .of_roots (List.forall_mem_singleton.mpr (.handle ?_)) rfl,
    .of_roots (List.forall_mem_singleton.mpr (.handle ?_)) rfl, trivial⟩
  all_goals decide +kernel

theorem mirrored_mirroring : (boot {}).PermitsRun mirroring ∧
    ((boot {}).after mirroring).singleton? (.module ⟨39, 0⟩) = some ⟨42, 0⟩ ∧
    (((boot {}).after mirroring).singleton? (.module ⟨42, 0⟩)).isSome ∧
    ((boot {}).after mirroring).Mirrored := by
  have made : ((boot {}).after mirroring).singleton? (.module ⟨39, 0⟩) = some ⟨42, 0⟩ ∧
      (((boot {}).after mirroring).singleton? (.module ⟨42, 0⟩)).isSome := by
    decide +kernel
  exact ⟨permits_mirroring, made.1, made.2, (mirrored_after {} mirroring permits_mirroring).1⟩

end ObjectRuntime.Runtime
