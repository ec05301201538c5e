import ObjectRuntime.Proofs.Steps

/-! Singleton classes. Making the singleton class of a class makes those of its superclasses
first, so an allocation that collects runs between one write and the next. Each class made
is held from its allocation on, which keeps it until the next one refers to it. -/

namespace ObjectRuntime.Runtime

variable {rt rt' rt'' : Runtime}

/-- What a runtime keeps while singleton classes are made: everything reached stays reached, and
a module that gets a singleton class gets one that is held. -/
structure Grows (rt rt' : Runtime) : Prop where
  reaches : ∀ v, rt.Reaches v → rt'.Reaches v
  handles : ∀ v ∈ rt.handles, v ∈ rt'.handles
  singletons : ∀ r m, rt.Reaches (.module r) → rt.module? r = some m →
    ∃ m', rt'.module? r = some m' ∧
      (m'.singleton = m.singleton ∨ ∀ s, m'.singleton = some s → .module s ∈ rt'.handles)

theorem Grows.refl (rt : Runtime) : Grows rt rt :=
  ⟨fun _ => id, fun _ => id, fun _ m _ found => ⟨m, found, .inl rfl⟩⟩

theorem Grows.trans (first : Grows rt rt') (second : Grows rt' rt'') : Grows rt rt'' where
  reaches v reached := second.reaches v (first.reaches v reached)
  handles v held := second.handles v (first.handles v held)
  singletons r m reached found := by
    obtain ⟨m', found', single⟩ := first.singletons r m reached found
    obtain ⟨m'', found'', single'⟩ := second.singletons r m' (first.reaches _ reached) found'
    refine ⟨m'', found'', ?_⟩
    rcases single' with same | held
    · rcases single with same' | held
      · exact .inl (same.trans same')
      · exact .inr fun s own => second.handles _ (held s (same ▸ own))
    · exact .inr held

theorem handles_room (rt : Runtime) : rt.room.handles = rt.handles := by
  unfold room
  split <;> rfl

theorem Sound.cell?_alloc (sound : rt.Sound) (c : Cell) {k : Kind} {r : Ref} {c' : Cell}
    (reached : rt.Reaches (.cell k r)) (found : rt.heap.cell? r = some c') :
    (rt.alloc c).2.heap.cell? r = some c' := by
  have found' : rt.room.heap.cell? r = some c' := by
    unfold Runtime.room
    split
    · exact (Heap.cell?_collect ..).mpr ⟨found, k, reached⟩
    · exact found
  rw [alloc_eq]
  exact cell?_place_of_found sound.room.heap c found'

theorem Grows.alloc (sound : rt.Sound) (c : Cell) : Grows rt (rt.alloc c).2 where
  reaches _ reached := sound.reaches_alloc c reached
  handles v held := by
    rw [alloc_eq]
    exact Array.mem_push.mpr (.inl (handles_room rt ▸ held))
  singletons r m reached found := by
    rw [module?_eq_some] at found
    exact ⟨m, (module?_eq_some ..).mpr (sound.cell?_alloc c reached found), .inl rfl⟩

theorem Intact.newSingleton (intact : rt.Intact) {v : Val} {superclass : Ref}
    (reached : rt.Reaches v) (above : rt.Reaches (.module superclass)) :
    (rt.newSingleton v superclass).2.Intact ∧ Grows rt (rt.newSingleton v superclass).2 ∧
      .module (rt.newSingleton v superclass).1 ∈ (rt.newSingleton v superclass).2.handles := by
  refine ⟨intact.allocModule rfl fun w child => ?_, .alloc intact.sound _, alloc_held rt _⟩
  rcases child.of_made rfl rfl rfl rfl rfl with ⟨p, edge, rfl⟩ | attached
  · cases edge
    exact above.available
  · cases attached
    exact reached.available

theorem child_reaches {r : Ref} {m : Module} (reached : rt.Reaches (.module r))
    (found : rt.module? r = some m) {v : Val} (held : v ∈ m.children) : rt.Reaches v :=
  .child reached ((module?_eq_some rt r m).mp found) held

theorem Intact.attach (intact : rt.Intact) {r s : Ref} (held : .module s ∈ rt.handles)
    (before : ∀ m, rt.module? r = some m → ∀ s', m.singleton = some s' → .module s' ∈ rt.handles) :
    (rt.modifyModule r fun m => { m with singleton := some s }).Intact ∧
      Grows rt (rt.modifyModule r fun m => { m with singleton := some s }) := by
  have root (s : Ref) (held : Val.module s ∈ rt.handles) :
      (rt.modifyModule r fun m => { m with singleton := some s }).Root (.module s) := .handle held
  refine ⟨intact.writeModule r (fun _ => ⟨rfl, rfl⟩) (fun _ => rfl) (.inr fun _ => rfl)
    (fun _ _ => .inl) (fun _ _ => .inl) (fun _ s' same => ?_) (fun _ => rfl) fun _ _ => .inl,
    fun v reached => ?_, fun v held => held, fun r' m _ found => ?_⟩
  · cases same
    exact .inr (intact.sound.roots _ (.handle held))
  · refine reached.modifyCell (fun c => by cases c <;> rfl) fun c found v member => ?_
    cases c with
    | module m =>
      have found' := (module?_eq_some rt r m).mpr found
      simp only [Cell.children, Module.mem_children] at member ⊢
      cases member with
      | superclass edge => exact .inl (.superclass edge)
      | included edge => exact .inl (.included edge)
      | method entry held => exact .inl (.method entry held)
      | const entry => exact .inl (.const entry)
      | singleton made => exact .inr (.handle (before m found' _ made))
      | attached attached => exact .inl (.attached attached)
      | lexical outer => exact .inl (.lexical outer)
    | _ => exact .inl member
  · by_cases same : r' = r
    · refine ⟨{ m with singleton := some s }, ?_, .inr fun s' single => ?_⟩
      · rw [module?_modifyModule, if_pos same, ← same, found]
        rfl
      · cases single
        exact held
    · refine ⟨m, ?_, .inl rfl⟩
      rw [module?_modifyModule, if_neg same, found]

/-- Making the singleton class of a reached module leaves an intact runtime, and reaches the class
it answers with. -/
theorem Intact.moduleSingleton (fuel : Nat) {rt : Runtime} (intact : rt.Intact) {r : Ref}
    (reached : rt.Reaches (.module r)) : (moduleSingleton fuel r rt).2.Intact ∧
      Grows rt (moduleSingleton fuel r rt).2 ∧
      (moduleSingleton fuel r rt).2.Reaches (.module (moduleSingleton fuel r rt).1) := by
  induction fuel generalizing rt r with
  | zero => exact ⟨intact, .refl rt, reached⟩
  | succ fuel ih =>
    unfold Runtime.moduleSingleton
    cases found : rt.module? r with
    | none => exact ⟨intact, .refl rt, reached⟩
    | some m =>
      simp only
      cases single : m.singleton with
      | some s =>
        refine ⟨intact, .refl rt, child_reaches reached found ?_⟩
        simp [Module.children, single]
      | none =>
        -- the class above the new one, made first when it is itself a singleton class
        have made (sup : Ref) {rt₁ : Runtime} (intact₁ : rt₁.Intact) (grows : Grows rt rt₁)
            (above : rt₁.Reaches (.module sup)) :
            let made := rt₁.newSingleton (.module r) sup
            let done := made.2.modifyModule r fun m => { m with singleton := some made.1 }
            done.Intact ∧ Grows rt done ∧ done.Reaches (.module made.1) := by
          obtain ⟨intact₂, grows', held⟩ :=
            intact₁.newSingleton (grows.reaches _ reached) above
          have grown := grows.trans grows'
          obtain ⟨m', found', after⟩ := grown.singletons r m reached found
          obtain ⟨intact₃, grows''⟩ := intact₂.attach held fun m'' found'' s' own => by
            rw [found'] at found''
            cases found''
            rcases after with same | held'
            · rw [same, single] at own
              cases own
            · exact held' s' own
          exact ⟨intact₃, grown.trans grows'', Root.reaches (.handle (grows''.handles _ held))⟩
        simp only
        cases isClass : m.isClass with
        | false => exact made _ intact (.refl rt) (Root.reaches (.core .module (by decide)))
        | true =>
          cases superclass : m.superclass with
          | none => exact made _ intact (.refl rt) (Root.reaches (.core .klass (by decide)))
          | some sup =>
            have above : rt.Reaches (.module sup) :=
              child_reaches reached found (by simp [Module.children, superclass])
            obtain ⟨intact₁, grows, reached'⟩ := ih intact above
            exact made _ intact₁ grows reached'

theorem Intact.objectSingleton (intact : rt.Intact) {r : Ref} (reached : rt.Reaches (.object r)) :
    (objectSingleton r rt).2.Intact ∧ (rt.object? r ≠ none →
      (objectSingleton r rt).2.Reaches (.module (objectSingleton r rt).1)) := by
  unfold Runtime.objectSingleton
  cases found : rt.object? r with
  | none => exact ⟨intact, fun there => absurd rfl there⟩
  | some o =>
    have cell : rt.heap.cell? r = some (.object o) := by
      unfold object? at found
      split at found
      next same =>
        cases found
        exact same
      next => cases found
    simp only
    cases single : o.singleton with
    | some s =>
      refine ⟨intact, fun _ => .child reached cell ?_⟩
      simp [Cell.children, single]
    | none =>
      have above : rt.Reaches (.module o.cls) := .child reached cell (by simp [Cell.children])
      obtain ⟨intact', -, held⟩ := intact.newSingleton reached above
      refine ⟨intact'.modifyObject r (fun _ => rfl) (fun _ s same => ?_) fun _ _ => .inl,
        fun _ => Root.reaches (.handle held)⟩
      cases same
      exact .inr (intact'.sound.roots _ (.handle held))

theorem Intact.singletonClass (intact : rt.Intact) {v : Val} (available : rt.Available v) :
    (rt.singletonClass v).2.Intact := by
  unfold Runtime.singletonClass
  split
  next => exact intact
  next => exact intact
  next => exact intact
  next r => exact (intact.objectSingleton available.reaches).1
  next r => exact (intact.moduleSingleton _ available.reaches).1
  next => exact intact

end ObjectRuntime.Runtime
