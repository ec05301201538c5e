import ObjectRuntime.Boot
import ObjectRuntime.Proofs.Moves
import ObjectRuntime.Proofs.Stacks

/-! Booting. A new runtime is intact under every configuration. The first cells are the
same whatever the configuration; booting goes on from them by primitive steps, which collect
when the threshold says so. -/

namespace ObjectRuntime.Runtime

/-! ## The first cells -/

def tuned (h : Heap) (threshold : Nat) (ratio : Ratio) : Heap :=
  { h with initialThreshold := threshold, threshold, ratio }

theorem alloc_tuned (h : Heap) (threshold : Nat) (ratio : Ratio) (c : Cell) (pinned : Bool) :
    ((tuned h threshold ratio).alloc c pinned).2 = tuned (h.alloc c pinned).2 threshold ratio := by
  have free : (tuned h threshold ratio).free = h.free := rfl
  cases spent : h.free with
  | cons i rest => rw [Heap.alloc_of_cons spent, Heap.alloc_of_cons (free.trans spent)]; rfl
  | nil => rw [Heap.alloc_of_nil spent, Heap.alloc_of_nil (free.trans spent)]; rfl

theorem firstHeap_eq (config : Config) :
    firstHeap config = tuned (firstHeap {}) config.threshold config.ratio := by
  have fold (cells : List (Cell × Bool)) (h : Heap) :
      cells.foldl (fun h e => (h.alloc e.1 e.2).2) (tuned h config.threshold config.ratio) =
        tuned (cells.foldl (fun h e => (h.alloc e.1 e.2).2) h) config.threshold config.ratio := by
    induction cells generalizing h with
    | nil => rfl
    | cons e rest ih => rw [List.foldl_cons, List.foldl_cons, alloc_tuned, ih]
  have first (config : Config) : firstHeap config =
      (CoreClass.all.map (fun c => (coreCell c, false)) ++
        [CoreClass.object, .nilClass, .trueClass, .falseClass].map fun c =>
          (Cell.object { cls := c.ref }, true)).foldl (fun h e => (h.alloc e.1 e.2).2)
        (.empty config.threshold config.ratio) := by
    rw [List.foldl_append, List.foldl_map, List.foldl_map]
    rfl
  rw [first, first, ← fold]
  rfl

theorem wellFormed_firstHeap (config : Config) :
    (firstHeap config).WellFormed ∧ (firstHeap config).roots = {} := by
  have fold {α : Type} (cell : α → Cell) (pinned : Bool) (items : List α) (h : Heap)
      (before : h.WellFormed ∧ h.roots = {}) :
      (items.foldl (fun h a => (h.alloc (cell a) pinned).2) h).WellFormed ∧
        (items.foldl (fun h a => (h.alloc (cell a) pinned).2) h).roots = {} := by
    induction items generalizing h with
    | nil => exact before
    | cons a rest ih =>
      exact ih _ ⟨Heap.wellFormed_alloc before.1 _ _, (Heap.roots_alloc ..).trans before.2⟩
  have empty : (Heap.empty config.threshold config.ratio).WellFormed :=
    ⟨List.nodup_nil, fun i => by simp [Heap.empty], by simp [Heap.empty]⟩
  exact fold _ true _ _ (fold coreCell false _ _ ⟨empty, rfl⟩)

/-- A first cell refers to cells that are there, and is no proc; a module remembers nothing, and
stands behind its parents. -/
def orderly (h : Heap) (i : Nat) (c : Cell) : Bool :=
  (c.children ⟨#[]⟩).all (fun v => h.Holds v) &&
    match c with
    | .module m => m.linear.isNone && m.parents.all (·.index < i)
    | .proc _ => false
    | _ => true

theorem orderly_first : ∀ e ∈ (firstHeap {}).slots.toList.zipIdx, ∀ c ∈ e.1.cell,
    orderly (firstHeap {}) e.2 c = true := by
  decide +kernel

theorem roots_first : (∀ c ∈ CoreClass.all, (firstHeap {}).Holds (.module c.ref)) ∧
    ∀ v ∈ (bare {}).frames.values topFrame, (firstHeap {}).Holds v := by
  decide +kernel

theorem cell?_firstHeap (config : Config) (r : Ref) :
    (firstHeap config).cell? r = (firstHeap {}).cell? r := by
  rw [firstHeap_eq]
  rfl

theorem holds_firstHeap (config : Config) (v : Val) :
    (firstHeap config).Holds v ↔ (firstHeap {}).Holds v := by
  cases v with
  | cell k r => simp only [Heap.Holds, cell?_firstHeap]
  | _ => simp only [Heap.Holds]

theorem slot_first {config : Config} {r : Ref} {c : Cell}
    (found : (firstHeap config).cell? r = some c) :
    ∃ s, (s, r.index) ∈ (firstHeap {}).slots.toList.zipIdx ∧ c ∈ s.cell := by
  rw [cell?_firstHeap] at found
  obtain ⟨s, slot, -, occupied⟩ := (Heap.cell?_eq_some_iff ..).mp found
  refine ⟨s, ?_, occupied⟩
  rw [List.mk_mem_zipIdx_iff_getElem?, Array.getElem?_toList]
  exact slot

theorem orderly_cell {config : Config} {r : Ref} {c : Cell}
    (found : (firstHeap config).cell? r = some c) : orderly (firstHeap {}) r.index c = true := by
  obtain ⟨s, slot, occupied⟩ := slot_first found
  exact orderly_first (s, r.index) slot c occupied

attribute [local irreducible] firstHeap

theorem sound_bare (config : Config) : (bare config).Sound where
  heap := (wellFormed_firstHeap config).1
  nested i p f slot parent := by
    have first : #[({ self := .object mainRef, lexicalModule := CoreClass.object.ref } : Frame)][i]? =
        some f := slot
    have bound := (Array.getElem?_eq_some_iff.mp first).1
    simp only [List.size_toArray, List.length_singleton, Nat.lt_one_iff] at bound
    subst bound
    cases first
    cases parent
  top := show topFrame < 1 by decide
  running i member := absurd member (Array.not_mem_empty i)
  captured r p found := by
    have order := orderly_cell found
    simp [orderly] at order
  roots v root := by
    refine (holds_firstHeap config v).mpr ?_
    cases root with
    | core c member => exact roots_first.1 c member
    | top held => exact roots_first.2 v held
    | global held => cases held
    | handle held => exact absurd held (Array.not_mem_empty v)
    | running member held => exact absurd member (Array.not_mem_empty _)
    | registered held =>
      rw [show (bare config).heap.roots = {} from (wellFormed_firstHeap config).2] at held
      cases held
    | pinned slot occupied pinned =>
      rw [← holds_firstHeap config]
      exact ⟨_, (Heap.cell?_of_slot slot).trans occupied, rfl⟩
  cells r c found v held := by
    have order := orderly_cell found
    have same : c.children (bare config).frames = c.children ⟨#[]⟩ := by
      cases c with
      | proc p => simp [orderly] at order
      | _ => rfl
    rw [same] at held
    simp only [orderly, Bool.and_eq_true, List.all_eq_true, decide_eq_true_eq] at order
    exact (holds_firstHeap config v).mpr (order.1 v held)

theorem orderly_module {config : Config} {r : Ref} {m : Module}
    (found : (bare config).module? r = some m) :
    m.linear = none ∧ ∀ p ∈ m.parents, p.index < r.index := by
  have order := orderly_cell ((module?_eq_some ..).mp found)
  simp only [orderly, Bool.and_eq_true, Option.isNone_iff_eq_none, List.all_eq_true,
    decide_eq_true_eq] at order
  exact order.2

theorem intact_bare (config : Config) : (bare config).Intact where
  sound := sound_bare config
  faithful := by
    refine ⟨Linear.exists_of_lt fun m p member => ?_, fun r m generation above found memory => ?_,
      fun e member => by cases member⟩
    · unfold parents at member
      cases found : (bare config).module? m with
      | none => simp [found] at member
      | some mod =>
        rw [found] at member
        exact (orderly_module found).2 p member
    · rw [(orderly_module found).1] at memory
      cases memory

/-! ## Booting -/

/-- A runtime that is being booted: intact, with the main object running at the top. -/
structure Booted (rt : Runtime) : Prop where
  intact : rt.Intact
  main : ∃ f, rt.frames.store[topFrame]? = some f ∧ f.self = .object mainRef

/-- The steps of booting, from the naming of the core classes on. -/
inductive Boots (rt : Runtime) : Runtime → Prop
  | includes (m other : CoreClass) : Boots rt (rt.includeOnce m.ref other.ref).2
  | singleton {v : Val} (reached : rt.Reaches v) : Boots rt (rt.singletonClass v).2
  | handlers : Boots rt ((rt.alloc (.array CoreClass.array.ref #[])).2.setGlobal .atExitHandlers
      (.array (rt.alloc (.array CoreClass.array.ref #[])).1))
  | method {m : Ref} (live : rt.heap.Holds (.module m)) (name : Sym) (b : Builtin) (arity : Int) :
      Boots rt (rt.defineMethod m name (.native (.builtin b)) arity).2
  | release : Boots rt (rt.release 0 none)

variable {rt rt' : Runtime}

theorem Booted.extend (booted : rt.Booted) (extension : Extends rt rt') (intact : rt'.Intact) :
    rt'.Booted := by
  obtain ⟨f, slot, self⟩ := booted.main
  obtain ⟨f', slot', same⟩ := extension.frames topFrame f slot
  exact ⟨intact, f', slot', (congrArg Frame.self same).trans self⟩

theorem Booted.reaches_main (booted : rt.Booted) : rt.Reaches (.object mainRef) := by
  obtain ⟨f, slot, self⟩ := booted.main
  refine Root.reaches (.top ?_)
  rw [Frames.values_eq booted.intact.sound.nested slot]
  simp [Frame.values, self]

theorem Booted.holds_core (booted : rt.Booted) (c : CoreClass) :
    rt.heap.Holds (.module c.ref) :=
  booted.intact.sound.roots _ (.core c (by cases c <;> decide))

theorem Booted.step (booted : rt.Booted) (boots : Boots rt rt') : rt'.Booted := by
  cases boots with
  | includes m other =>
    exact booted.extend (.includeOnce ..) (booted.intact.includeOnce _ (booted.holds_core other))
  | singleton reached =>
    exact booted.extend (.singletonClass ..) (booted.intact.singletonClass reached.available)
  | handlers =>
    have made : (rt.alloc (.array CoreClass.array.ref #[])).2.Intact := by
      refine booted.intact.allocData rfl fun v held => ?_
      simp only [Cell.children, List.mem_singleton] at held
      rw [held]
      exact Root.available (.core .array (by decide))
    have held := made.sound.roots _ (.handle (alloc_held rt _))
    exact booted.extend ((Extends.alloc rt _).trans (.aside ⟨⟨rfl, rfl, rfl⟩, rfl⟩ ⟨rfl, rfl⟩ rfl))
      (made.setGlobal .atExitHandlers held)
  | method live name b arity =>
    exact booted.extend (.writeTable ..)
      (booted.intact.defineMethod _ _ _ live fun p same => by cases same)
  | release => exact ⟨booted.intact.releaseAll 0, booted.main⟩

theorem Booted.constants (booted : rt.Booted) : (CoreClass.all.foldl (fun rt c =>
    rt.setConst CoreClass.object.ref c.sym (.module c.ref)) rt).Booted :=
  List.foldlRecOn _ _ booted fun _ booted c _ => booted.extend (.setConst ..)
    (booted.intact.setConst _ (booted.holds_core .object) (booted.holds_core c))

/-- The main object answers for the module that its methods are defined in. -/
theorem Booted.holds_main (booted : rt.Booted) {m : Ref}
    (answer : rt.singletonClass (.object mainRef) = (.ok m, rt')) : rt'.heap.Holds (.module m) := by
  have there : rt.object? mainRef ≠ none := by
    obtain ⟨c, found, kind⟩ := booted.intact.holds booted.reaches_main.available
    cases c with
    | object o => simp [object?, found]
    | _ => cases kind
  obtain ⟨intact, reached⟩ := booted.intact.objectSingleton booted.reaches_main
  cases answer
  exact intact.holds (reached there).available

/-- What holds once the core classes are named, and stays through each step of booting, holds of a
new runtime. -/
theorem boot_induct {P : Runtime → Prop} {config : Config}
    (named : P (CoreClass.all.foldl (fun rt c =>
      rt.setConst CoreClass.object.ref c.sym (.module c.ref)) (bare config)))
    (step : ∀ {rt rt' : Runtime}, rt.Booted → Boots rt rt' → P rt → P rt') : P (boot config) := by
  have first : (bare config).Booted := ⟨intact_bare config, _, rfl, rfl⟩
  have next {rt rt' : Runtime} (before : rt.Booted ∧ P rt) (boots : Boots rt rt') :
      rt'.Booted ∧ P rt' := ⟨before.1.step boots, step before.1 boots before.2⟩
  have named := And.intro first.constants named
  simp only [boot]
  -- the states between are named, so that no step of booting is evaluated
  generalize CoreClass.all.foldl _ _ = rt at named ⊢
  have included := List.foldlRecOn (motive := fun rt => rt.Booted ∧ P rt) coreIncludes
    (fun rt pair => (rt.includeOnce pair.1.ref pair.2.ref).2) named
    fun _ before pair _ => next before (.includes pair.1 pair.2)
  generalize coreIncludes.foldl _ _ = rt at included ⊢
  have classes := next included (.singleton (Root.reaches (.core .klass (by decide))))
  generalize rt.singletonClass (.module CoreClass.klass.ref) = made at classes ⊢
  have handlers := next classes .handlers
  generalize made.2.alloc (.array CoreClass.array.ref #[]) = allocated at handlers ⊢
  generalize allocated.2.setGlobal .atExitHandlers (.array allocated.1) = rt at handlers ⊢
  have main : rt.defineMain.Booted ∧ P rt.defineMain :=
    List.foldlRecOn (motive := fun rt => rt.Booted ∧ P rt) _ _ handlers fun rt before name _ => by
      have made := next before (.singleton before.1.reaches_main)
      split
      next m rt' answer =>
        rw [answer] at made
        exact next made (.method (before.1.holds_main answer) name .mainInspect 0)
      next e rt' answer =>
        rw [answer] at made
        exact made
  have done := List.foldlRecOn (motive := fun rt => rt.Booted ∧ P rt) Builtin.all defineBuiltin main
    fun _ before b _ => next before (.method (before.1.holds_core _) _ b _)
  exact (next done .release).2

/-- What each step of booting does to a runtime, when it goes along a series of steps, booting does to
a bare one. -/
theorem boot_relates {R : Runtime → Runtime → Prop} {config : Config} (refl : ∀ rt, R rt rt)
    (trans : ∀ {rt rt' rt'' : Runtime}, R rt rt' → R rt' rt'' → R rt rt'')
    (constant : ∀ (rt : Runtime) (c : CoreClass),
      R rt (rt.setConst CoreClass.object.ref c.sym (.module c.ref)))
    (step : ∀ {rt rt' : Runtime}, rt.Booted → Boots rt rt' → R rt rt') :
    R (bare config) (boot config) := by
  have named := List.foldlRecOn (motive := R (bare config)) CoreClass.all
    (fun rt c => rt.setConst CoreClass.object.ref c.sym (.module c.ref)) (refl _)
    fun rt before c _ => trans before (constant rt c)
  exact boot_induct named fun booted boots before => trans before (step booted boots)

/-- A new runtime is intact, whatever its configuration. -/
theorem intact_boot (config : Config) : (boot config).Intact :=
  boot_induct (P := Intact)
    (Booted.constants ⟨intact_bare config, _, rfl, rfl⟩).intact
    fun booted boots _ => (booted.step boots).intact

end ObjectRuntime.Runtime
