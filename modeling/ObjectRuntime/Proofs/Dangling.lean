import ObjectRuntime.Proofs.Booting

/-! Dangling handles. In a run whose moves are given nothing but what is reached, no root, no
cell that is reached and no cached answer ever refers to a cell that is gone. The collector
and every read of a reached value therefore find the cell they look for, of the kind the
handle says. -/

namespace ObjectRuntime

/-- Every value a cell refers to: those the collector follows, and the modules of a remembered
linearization, which it does not follow. -/
def Cell.references (fs : Frames) : Cell → List Val
  | .module m => m.children ++ (m.linear.elim [] (·.2)).map .module
  | c => c.children fs

namespace Runtime

/-- No reference that is held anywhere dangles. -/
structure NoDangling (rt : Runtime) : Prop where
  roots : ∀ v, rt.Root v → rt.heap.Holds v
  reached : ∀ v, rt.Reaches v → rt.heap.Holds v
  cells : ∀ k r c, rt.Reaches (.cell k r) → rt.heap.cell? r = some c →
    c.kind = k ∧ ∀ v ∈ c.references rt.frames, rt.heap.Holds v
  cache : ∀ e ∈ rt.cache.entries.entries, rt.heap.Holds (.module e.1.1) ∧
    ∀ m, e.2 = some m → ∀ v ∈ m.children, rt.heap.Holds v

variable {rt : Runtime}

theorem Intact.holds_references (intact : rt.Intact) {r : Ref} {c : Cell}
    (found : rt.heap.cell? r = some c) : ∀ v ∈ c.references rt.frames, rt.heap.Holds v := by
  intro v member
  cases c with
  | module m =>
    rcases List.mem_append.mp member with held | remembered
    · exact intact.sound.cells r _ found v held
    · cases memory : m.linear with
      | none => simp [memory] at remembered
      | some entry =>
        obtain ⟨generation, above⟩ := entry
        simp only [memory, Option.elim_some] at remembered
        obtain ⟨a, listed, rfl⟩ := List.mem_map.mp remembered
        have found' := (module?_eq_some rt r m).mpr found
        obtain ⟨-, higher, -⟩ := intact.faithful.remembered r m generation above found' memory
        exact intact.sound.holds_above (higher a listed) (holds_of_module found')
  | _ => exact intact.sound.cells r _ found v member

theorem Intact.holds_cached (intact : rt.Intact) {e : (Ref × Sym) × Option Method}
    (member : e ∈ rt.cache.entries.entries) : rt.heap.Holds (.module e.1.1) ∧
      ∀ m, e.2 = some m → ∀ v ∈ m.children, rt.heap.Holds v := by
  obtain ⟨live, answer⟩ := intact.faithful.cached e member
  refine ⟨live, fun m same => ?_⟩
  rw [same] at answer
  exact intact.holds_found answer

theorem Intact.noDangling (intact : rt.Intact) : rt.NoDangling where
  roots := intact.sound.roots
  reached _ reached := intact.sound.holds reached
  cells k r c reached found := by
    obtain ⟨c', found', kind⟩ := intact.sound.holds reached
    rw [found] at found'
    cases found'
    exact ⟨kind, intact.holds_references found⟩
  cache _ member := intact.holds_cached member

theorem PermitsRun.take {moves : List Move} (permitted : rt.PermitsRun moves) (n : Nat) :
    rt.PermitsRun (moves.take n) := by
  induction moves generalizing rt n with
  | nil => simpa using permitted
  | cons move rest ih =>
    cases n with
    | zero => trivial
    | succ n => exact ⟨permitted.1, ih permitted.2 n⟩

/-- In a run of a new runtime, under any configuration, whose every move is given nothing but
what is reached when it is made, no state has a dangling reference. -/
theorem noDangling_after (config : Config) (moves : List Move)
    (permitted : (boot config).PermitsRun moves) (n : Nat) :
    ((boot config).after (moves.take n)).NoDangling :=
  ((intact_boot config).after (permitted.take n)).noDangling

/-- A class, an object of it that a global keeps, a collection inside the scope and one behind it,
and the singleton class of the object. -/
def keeping : List Move :=
  [.enterScope, .act (.subclass CoreClass.object.ref none none), .act (.newObject ⟨38, 0⟩),
   .act (.setGlobal ⟨40⟩ (.object ⟨39, 0⟩)), .act .collect,
   .leaveScope 0 (.value (.object ⟨39, 0⟩)), .act .collect, .act (.singletonClass (.object ⟨39, 0⟩))]

theorem permits_keeping : (boot {}).PermitsRun keeping := by
  refine ⟨trivial,
    .of_roots (List.forall_mem_singleton.mpr (.core .object (by decide))) rfl,
    .of_roots (List.forall_mem_singleton.mpr (.handle ?_)) rfl,
    .of_roots (List.forall_mem_singleton.mpr (.handle ?_)) rfl,
    .of_roots (fun _ member => nomatch member) rfl, fun v same => ?_,
    .of_roots (fun _ member => nomatch member) rfl,
    .of_roots (List.forall_mem_singleton.mpr (.global ?_)) rfl, trivial⟩
  · decide +kernel
  · decide +kernel
  · cases same
    exact Root.available (.global (by decide +kernel))
  · decide +kernel

theorem noDangling_keeping : (boot {}).PermitsRun keeping ∧
    ((boot {}).after (keeping.take 8)).NoDangling :=
  ⟨permits_keeping, noDangling_after {} keeping permits_keeping 8⟩

end Runtime
end ObjectRuntime
