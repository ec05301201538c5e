import ObjectRuntime.Proofs.Widening

/-! Membership. A value that stays is of all the modules that it was of, however many singleton
classes come to stand between them. Handles are not told apart by anything but their generations, so
a value stays when it is there before and after and its slot is not freed 2 ^ 32 times between. -/

namespace ObjectRuntime.Runtime

variable {rt rt₁ rt' : Runtime} {v : Val} {r m : Ref}

/-! ## Values that stay -/

/-- How often a run frees slot `i`, which enters its next generation each time. -/
def timesFreed (i : Nat) : Runtime → List Move → Nat
  | _, [] => 0
  | rt, move :: rest => ((move.run rt).2.heap.generation i - rt.heap.generation i).toNat +
      timesFreed i (move.run rt).2 rest

theorem generation_after (i : Nat) (rt : Runtime) (moves : List Move) :
    (rt.after moves).heap.generation i =
      rt.heap.generation i + UInt32.ofNat (timesFreed i rt moves) := by
  induction moves generalizing rt with
  | nil => simp [timesFreed, after]
  | cons move rest ih =>
    rw [Machine.after_cons, ih, timesFreed, UInt32.ofNat_add, UInt32.ofNat_toNat]
    generalize (move.run rt).2.heap.generation i = g
    rw [← UInt32.add_assoc, UInt32.add_comm (rt.heap.generation i), UInt32.sub_add_cancel]

/-- A handle that means a cell before and after a run is not freed in it. -/
theorem timesFreed_eq_zero {moves : List Move} {k : Kind} (held : rt.heap.Holds (.cell k r))
    (still : (rt.after moves).heap.Holds (.cell k r))
    (few : timesFreed r.index rt moves < 2 ^ 32) : timesFreed r.index rt moves = 0 := by
  obtain ⟨c, found, -⟩ := held
  obtain ⟨c', found', -⟩ := still
  have same := generation_after r.index rt moves
  rw [Heap.generation_of_cell found, Heap.generation_of_cell found'] at same
  have sum := congrArg UInt32.toNat same
  have bound := r.generation.toNat_lt
  rw [UInt32.toNat_add, UInt32.toNat_ofNat'] at sum
  omega

theorem Birth.stays (birth : Birth rt rt') (wf : rt.heap.WellFormed) {k : Kind}
    (held : rt.heap.Holds (.cell k r)) : rt'.heap.Holds (.cell k r) ∨ rt'.Spent r := by
  obtain ⟨c, found, kind⟩ := held
  rcases birth.passed wf (.inl ((Heap.isLive_iff ..).mpr ⟨c, found⟩)) with live | spent
  · rcases birth.cell wf found live with same | ⟨_, _, -, recorded⟩
    · exact .inl ⟨c, same, kind⟩
    · exact .inl ⟨_, recorded, (Cell.kind_record ..).trans kind⟩
  · exact .inr spent

theorem Births.stays (births : Births rt rt') (wf : rt.heap.WellFormed) {k : Kind}
    (held : rt.heap.Holds (.cell k r)) :
    rt'.heap.WellFormed ∧ (rt'.heap.Holds (.cell k r) ∨ rt'.Spent r) := by
  induction births with
  | refl => exact ⟨wf, .inl held⟩
  | tail _ birth ih =>
    obtain ⟨wf, still | spent⟩ := ih
    · exact ⟨birth.wellFormed wf, birth.stays wf still⟩
    · exact ⟨birth.wellFormed wf, .inr (birth.spent spent)⟩

theorem Spent.generation (spent : rt.Spent r) :
    rt.heap.generation r.index = r.generation + 1 := by
  obtain ⟨s, slot, later, -⟩ := spent
  rw [Heap.generation, slot]
  exact later

theorem Widens.holds (widens : Widens rt rt') (wf : rt.heap.WellFormed) (held : rt.heap.Holds v) :
    rt'.heap.Holds v := by
  cases v with
  | cell k r =>
    obtain ⟨c, found, kind⟩ := held
    obtain ⟨c', found', wider⟩ := widens.cells wf r c found
    exact ⟨c', found', wider.kind.trans kind⟩
  | _ => trivial

/-- A value stays through a move that leaves its slot in the same generation. -/
theorem stays_unfolded (births : Births rt rt₁) (widens : Widens rt₁ rt') (wf : rt.heap.WellFormed)
    (held : rt.heap.Holds v) (same : ∀ k r, v = .cell k r →
      rt'.heap.generation r.index = rt.heap.generation r.index) : rt₁.heap.Holds v := by
  cases v with
  | cell k r =>
    obtain ⟨wf₁, still | spent⟩ := births.stays wf held
    · exact still
    · obtain ⟨c, found, -⟩ := held
      have next := same k r rfl
      rw [widens.generations wf₁, spent.generation, Heap.generation_of_cell found] at next
      simp at next
  | _ => trivial

/-! ## Classes -/

theorem Widens.module (widens : Widens rt rt') (wf : rt.heap.WellFormed) {mod : Module}
    (found : rt.module? m = some mod) : ∃ mod', rt'.module? m = some mod' ∧ mod'.kin = mod.kin ∧
      mod.parents ⊆ mod'.parents := by
  obtain ⟨c', found', wider⟩ := widens.cells wf m _ ((module?_eq_some ..).mp found)
  have kin := wider.kin
  have parents := wider.parents
  cases c' with
  | module mod' => exact ⟨mod', (module?_eq_some ..).mpr found', by simpa [Cell.kin] using kin, parents⟩
  | _ => cases wider.kind

theorem Widens.parents (widens : Widens rt rt') (wf : rt.heap.WellFormed) (x p : Ref)
    (edge : p ∈ rt.parents x) : p ∈ rt'.parents x := by
  cases found : rt.module? x with
  | none => simp [Runtime.parents, found] at edge
  | some mod =>
    obtain ⟨mod', found', -, more⟩ := widens.module wf found
    simp only [Runtime.parents, found, found', Option.map_some, Option.getD_some] at edge ⊢
    exact more edge

theorem Widens.inherits (widens : Widens rt rt') (sound : rt.Sound) {start answer : Option Ref}
    (inherits : rt.Inherits start answer)
    (there : ∀ c, start = some c → rt.heap.Holds (.module c)) : rt'.Inherits start answer := by
  have wf := sound.heap
  induction inherits with
  | root => exact .root
  | missing gone =>
    obtain ⟨mod, found⟩ := module_of_holds (there _ rfl)
    cases gone.symm.trans found
  | own found made =>
    obtain ⟨mod', found', kin, -⟩ := widens.module wf found
    exact .own found' ((Module.of_kin kin (·.singleton)).trans made)
  | @up c mod answer found unmade rest ih =>
    obtain ⟨mod', found', kin, -⟩ := widens.module wf found
    refine .up found' ((Module.of_kin kin (·.singleton)).trans unmade) ?_
    rw [Module.of_kin kin (·.superclass)]
    exact ih fun sup above => sound.holds_parent (superclass_mem_parents found above)

theorem classOf_data {c : Cell} (found : rt.heap.cell? r = some c) (plain : c.kin = none) :
    rt.classOf (.cell c.kind r) = c.dataClass.getD (match c.kind with
      | .float => CoreClass.float.ref
      | .proc => CoreClass.proc.ref
      | .bound => CoreClass.method.ref
      | _ => CoreClass.object.ref) := by
  simp only [Runtime.classOf, found]
  cases c with
  | object o => cases plain
  | module mod => cases plain
  | _ => rfl

/-- A step that widens leaves every value its class. -/
theorem Widens.classOf (widens : Widens rt rt') (intact : rt.Intact) (intact' : rt'.Intact)
    (held : rt.heap.Holds v) : rt'.classOf v = rt.classOf v := by
  have wf := intact.sound.heap
  cases v with
  | cell k r =>
    obtain ⟨c, found, rfl⟩ := held
    obtain ⟨c', found', wider⟩ := widens.cells wf r c found
    cases c with
    | module mod =>
      have here := (module?_eq_some ..).mpr found
      obtain ⟨mod', here', kin, -⟩ := widens.module wf here
      have inherited : rt'.inheritedSingleton rt'.heap.slots.size mod'.superclass =
          rt.inheritedSingleton rt.heap.slots.size mod.superclass := by
        rw [Module.of_kin kin (·.superclass)]
        exact (intact'.inherits _).unique (widens.inherits intact.sound (intact.inherits _)
          fun sup above => intact.sound.holds_parent (superclass_mem_parents here above))
      rw [Cell.kind, classOf_module here, classOf_module here', inherited,
        isClass_of_kind (Module.of_kin kin (·.kind)), Module.of_kin kin (·.singleton)]
    | object o =>
      cases c' with
      | object o' =>
        have kin : o'.kin = o.kin := by simpa [Cell.kin] using wider.kin
        simp only [Object.kin, Object.mk.injEq] at kin
        simp only [Runtime.classOf, found, found', kin.1, kin.2.1]
      | _ => cases wider.kind
    | _ =>
      rw [classOf_data found rfl, ← wider.kind, classOf_data found' wider.kin, wider.kind, wider.cls]
  | bool b => cases b <;> rfl
  | _ => rfl

/-! ## Runs -/

theorem above_move (intact : rt.Intact) (mirrored : rt.Mirrored) (classy : rt.Classy) {move : Move}
    (permitted : rt.PermitsMove move) (held : rt.heap.Holds v)
    (same : ∀ k r, v = .cell k r →
      (move.run rt).2.heap.generation r.index = rt.heap.generation r.index)
    (above : Above rt.parents (rt.classOf v) m) : (move.run rt).2.heap.Holds v ∧
      Above (move.run rt).2.parents ((move.run rt).2.classOf v) m := by
  obtain ⟨rt₁, births, widens⟩ := unfolds_move intact permitted
  have held₁ := stays_unfolded births widens intact.sound.heap held same
  have intact₁ := births.intact intact
  have wf₁ := intact₁.sound.heap
  -- what stands above the class of a value is there, as the value is
  have live := Heap.isLive_of_holds
    (intact.sound.holds_above above (intact.sound.holds_classOf held))
  have above₁ := ((births.unseen intact mirrored classy held held₁).above m (.inl live)).mpr above
  refine ⟨widens.holds wf₁ held₁, ?_⟩
  rw [widens.classOf intact₁ (intact.move permitted) held₁]
  exact above₁.mono (widens.parents wf₁)

theorem above_run {moves : List Move} (intact : rt.Intact) (mirrored : rt.Mirrored)
    (classy : rt.Classy) (permitted : rt.PermitsRun moves) (classes : Instances IsClass rt moves)
    (held : rt.heap.Holds v) (stays : ∀ k r, v = .cell k r → timesFreed r.index rt moves = 0)
    (above : Above rt.parents (rt.classOf v) m) :
    Above (rt.after moves).parents ((rt.after moves).classOf v) m := by
  induction moves generalizing rt with
  | nil => exact above
  | cons move rest ih =>
    have apart (k : Kind) (r : Ref) (same : v = .cell k r) := Nat.add_eq_zero_iff.mp (stays k r same)
    obtain ⟨held', above'⟩ := above_move intact mirrored classy permitted.1 held
      (fun k r same => by
        have still := UInt32.toNat_inj.mp ((apart k r same).1.trans UInt32.toNat_zero.symm)
        exact (UInt32.sub_eq_iff_eq_add.mp still).trans (UInt32.zero_add _)) above
    have turns : Turns IsClass rt (rt.after [move]) :=
      .after IsClass.room intact ⟨permitted.1, trivial⟩ ⟨classes.1, trivial⟩
    obtain ⟨mirrored', classy'⟩ := turns.classy intact.sound.heap mirrored classy
    exact ih (intact.move permitted.1) mirrored' classy' permitted.2 classes.2 held'
      (fun k r same => (apart k r same).2) above'

theorem isA_iff (intact : rt.Intact) : (rt.isA v m).1 = true ↔ Above rt.parents (rt.classOf v) m := by
  obtain ⟨linear, -⟩ := ancestry_spec intact.sound intact.faithful (rt.classOf v)
  rw [← linear.mem_iff]
  exact decide_eq_true_iff

/-- In every run that makes objects of classes only, a value that is there before and after is of
every module that it was of, whatever is included, made and collected between, and at every state
it is of all that stands above a module that it is of. -/
theorem membership_grows (config : Config) (moves : List Move)
    (permitted : (boot config).PermitsRun moves) (classes : Instances IsClass (boot config) moves) :
    let rt := (boot config).after moves
    (∀ later, rt.PermitsRun later → Instances IsClass rt later →
      ∀ v m, rt.heap.Holds v → (rt.after later).heap.Holds v →
        (∀ k r, v = .cell k r → timesFreed r.index rt later < 2 ^ 32) →
        (rt.isA v m).1 = true → ((rt.after later).isA v m).1 = true) ∧
    ∀ v m n, m ∈ (rt.ancestry (rt.classOf v)).1 → n ∈ (rt.ancestry m).1 → (rt.isA v n).1 = true := by
  have intact := (intact_boot config).after permitted
  obtain ⟨mirrored, classy⟩ := classy_run config permitted classes
  generalize (boot config).after moves = rt at intact mirrored classy ⊢
  refine ⟨fun later permitted classes v m held still few member => ?_, fun v m n first second => ?_⟩
  · have intact' := intact.after permitted
    rw [isA_iff intact] at member
    rw [isA_iff intact']
    refine above_run intact mirrored classy permitted classes held (fun k r same => ?_) member
    subst same
    exact timesFreed_eq_zero held still (few k r rfl)
  · obtain ⟨linear, -⟩ := ancestry_spec intact.sound intact.faithful (rt.classOf v)
    obtain ⟨linear', -⟩ := ancestry_spec intact.sound intact.faithful m
    rw [linear.mem_iff] at first
    rw [linear'.mem_iff] at second
    exact (isA_iff intact).mpr (first.trans second)

/-- A plain module that a class comes to include, the singleton classes of an object and of its
class, and a collection. -/
def deepening : List Move :=
  [.act .newModule, .act (.includeOnce ⟨38, 0⟩ ⟨43, 0⟩), .act (.singletonClass (.object ⟨42, 0⟩)),
   .act (.singletonClass (.module ⟨40, 0⟩)), .act .collect]

theorem inheriting_deepens : let rt := (boot {}).after inheriting
    ((boot {}).PermitsRun inheriting ∧ Instances IsClass (boot {}) inheriting ∧
      rt.PermitsRun deepening ∧ Instances IsClass rt deepening) ∧
    (rt.isA (.object ⟨42, 0⟩) ⟨38, 0⟩).1 = true ∧
    (rt.after deepening).classOf (.object ⟨42, 0⟩) ≠ rt.classOf (.object ⟨42, 0⟩) ∧
    ((rt.after deepening).isA (.object ⟨42, 0⟩) ⟨38, 0⟩).1 = true := by
  have permitted : ((boot {}).after inheriting).PermitsRun deepening := by
    refine ⟨.of_roots (fun _ member => nomatch member) rfl,
      .of_roots (List.forall_mem_cons.mpr ⟨.handle ?_, List.forall_mem_singleton.mpr (.handle ?_)⟩) rfl,
      .of_roots (List.forall_mem_singleton.mpr (.handle ?_)) rfl,
      .of_roots (List.forall_mem_singleton.mpr (.handle ?_)) rfl,
      .of_roots (fun _ member => nomatch member) rfl, trivial⟩
    all_goals decide +kernel
  have classes : Instances IsClass ((boot {}).after inheriting) deepening :=
    ⟨nofun, nofun, nofun, nofun, nofun, trivial⟩
  have facts : timesFreed 42 ((boot {}).after inheriting) deepening < 2 ^ 32 ∧
      (((boot {}).after inheriting).isA (.object ⟨42, 0⟩) ⟨38, 0⟩).1 = true ∧
      (((boot {}).after inheriting).after deepening).classOf (.object ⟨42, 0⟩) ≠
        ((boot {}).after inheriting).classOf (.object ⟨42, 0⟩) ∧
      ((boot {}).after inheriting).heap.Holds (.object ⟨42, 0⟩) ∧
      (((boot {}).after inheriting).after deepening).heap.Holds (.object ⟨42, 0⟩) := by
    decide +kernel
  obtain ⟨few, member, changed, before, after⟩ := facts
  refine ⟨⟨permits_inheriting, classes_inheriting, permitted, classes⟩, member, changed, ?_⟩
  refine (membership_grows {} inheriting permits_inheriting classes_inheriting).1 deepening permitted
    classes _ _ before after (fun k r same => ?_) member
  cases same
  exact few

end ObjectRuntime.Runtime
