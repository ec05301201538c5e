import ObjectRuntime.Proofs.Widening

/-! Sheltering. A step that makes cells may collect in between, but what was reached before it is
reached all along: of the cells that were there it only records singleton classes, and only in those
that have none. So what is reached is still there after every step, whatever the step is given. -/

namespace ObjectRuntime

/-- The same cell, or one in which a singleton class is recorded where there was none. -/
inductive Cell.Records : Cell → Cell → Prop
  | same (c : Cell) : Records c c
  | object {o : Object} (unmade : o.singleton = none) (s : Ref) :
      Records (.object o) (.object { o with singleton := some s })
  | module {m : Module} (unmade : m.singleton = none) (s : Ref) :
      Records (.module m) (.module { m with singleton := some s })

namespace Cell.Records
variable {c c' : Cell}

theorem children (records : c.Records c') {fs : Frames} {v : Val} (held : v ∈ c.children fs) :
    v ∈ c'.children fs := by
  cases records with
  | same => exact held
  | object unmade s =>
    simp only [Cell.children, unmade, Option.toList_none, List.map_nil, List.nil_append,
      List.mem_cons, List.mem_append] at held ⊢
    exact held.imp_right .inr
  | module unmade s =>
    simp only [Cell.children, Module.children, unmade, Option.toList_none, List.map_nil,
      List.append_nil, List.mem_append] at held ⊢
    exact held.imp_left (Or.imp_left .inl)

theorem of_object {o : Object} (records : c.Records (.object o)) (unmade : o.singleton = none) :
    c = .object o := by
  cases records with
  | same => rfl
  | object _ s => cases unmade

theorem of_module {m : Module} (records : c.Records (.module m)) (unmade : m.singleton = none) :
    c = .module m := by
  cases records with
  | same => rfl
  | module _ s => cases unmade

end Cell.Records

namespace Runtime

/-- What was a root still is, and every cell that was reached is there, and leads to what it led
to. -/
structure Shelters (rt rt' : Runtime) : Prop where
  heap : rt'.heap.WellFormed
  frames : rt'.frames = rt.frames
  roots : ∀ v, rt.Root v → rt'.Root v
  cells : ∀ k r c, rt.Reaches (.cell k r) → rt.heap.cell? r = some c →
    ∃ c', rt'.heap.cell? r = some c' ∧ c.Records c'

variable {rt rt' : Runtime} {r : Ref}

namespace Shelters

theorem refl (wf : rt.heap.WellFormed) : Shelters rt rt :=
  ⟨wf, rfl, fun _ => id, fun _ _ c _ found => ⟨c, found, .same c⟩⟩

theorem reaches (shelters : Shelters rt rt') {v : Val} (reached : rt.Reaches v) : rt'.Reaches v := by
  refine reached.mono (fun v root => (shelters.roots v root).reaches) ?_
  intro k r c reached reached' found v held
  obtain ⟨c', found', records⟩ := shelters.cells k r c reached found
  exact .child reached' found' (shelters.frames ▸ records.children held)

theorem isLive (shelters : Shelters rt rt') {k : Kind} (reached : rt.Reaches (.cell k r))
    (live : rt.heap.isLive r) : rt'.heap.isLive r := by
  obtain ⟨c, found⟩ := (Heap.isLive_iff ..).mp live
  obtain ⟨c', found', -⟩ := shelters.cells k r c reached found
  exact (Heap.isLive_iff ..).mpr ⟨c', found'⟩

theorem collect (shelters : Shelters rt rt') : Shelters rt rt'.collect where
  heap := Heap.wellFormed_collect shelters.heap rt'.frames rt'.rootValues
  frames := shelters.frames
  roots v root := (root_collect rt' v).mpr (shelters.roots v root)
  cells k r c reached found := by
    rw [cell?_collect_of_reaches (shelters.reaches reached)]
    exact shelters.cells k r c reached found

theorem alloc (shelters : Shelters rt rt') (c : Cell) : Shelters rt (rt'.alloc c).2 := by
  have room : Shelters rt rt'.room := by
    unfold Runtime.room
    split
    · exact shelters.collect
    · exact shelters
  rw [alloc_eq]
  refine ⟨Heap.wellFormed_alloc room.heap c false, room.frames, fun v root => ?_,
    fun k r c' reached found => ?_⟩
  · exact (root_place room.heap c v).mpr (.inl (room.roots v root))
  · obtain ⟨c'', found', records⟩ := room.cells k r c' reached found
    exact ⟨c'', cell?_place_of_found room.heap c found', records⟩

theorem modifyCell (shelters : Shelters rt rt') {f : Cell → Cell} (kind : ∀ c, (f c).kind = c.kind)
    (recording : ∀ k c c', rt.Reaches (.cell k r) → rt.heap.cell? r = some c → c.Records c' →
      c.Records (f c')) : Shelters rt (rt'.modifyCell r f) where
  heap := Heap.wellFormed_modify shelters.heap r f
  frames := shelters.frames
  roots v root := (root_modifyCell kind v).mpr (shelters.roots v root)
  cells k a c reached found := by
    obtain ⟨c', found', records⟩ := shelters.cells k a c reached found
    simp only [Runtime.modifyCell, Heap.cell?_modify]
    split
    next same =>
      subst same
      exact ⟨f c', by rw [found']; rfl, recording k c c' reached found records⟩
    next => exact ⟨c', found', records⟩

/-! ## Singleton classes -/

theorem records (shelters : Shelters rt rt') {k : Kind} {c c' : Cell}
    (reached : rt.Reaches (.cell k r)) (found : rt.heap.cell? r = some c)
    (found' : rt'.heap.cell? r = some c') : c.Records c' := by
  obtain ⟨c'', found'', records⟩ := shelters.cells k r c reached found
  rw [found'] at found''
  cases found''
  exact records

/-- What had no singleton class when it was looked up had none before. -/
theorem singletonClass (wf : rt.heap.WellFormed) (v : Val) : Shelters rt (rt.singletonClass v).2 := by
  refine singletonClass_induct (refl wf) (fun {r o} found unmade => ?_)
    (fun {seen left r m} sup shelters found unmade shelters' => ?_) v
  · refine ((refl wf).alloc _).modifyCell (fun c => by cases c <;> rfl) ?_
    intro k c c' reached before records
    have old := (refl wf).records reached before ((object?_eq_some ..).mp found)
    cases old.of_object unmade
    cases records with
    | same => exact .object unmade _
    | object _ s => exact .object unmade _
  · refine (shelters'.alloc _).modifyCell (fun c => by cases c <;> rfl) ?_
    intro k c c' reached before records
    have old := shelters.records reached before ((module?_eq_some ..).mp found)
    cases old.of_module unmade
    cases records with
    | same => exact .module unmade _
    | module _ s => exact .module unmade _

/-! ## Steps -/

theorem act (wf : rt.heap.WellFormed) {α : Type} {action : Action α} (makes : action.makes = true) :
    Shelters rt (action.run rt).2 := by
  cases action with
  | newArray | newTable | newString | newFloat | newObject | newProc | newBound | newModule =>
    exact (refl wf).alloc _
  | collect => exact (refl wf).collect
  | subclass sup name tag =>
    rcases subclass_cases rt sup name tag with ⟨e, same⟩ | ⟨_, made, -, same⟩
    · rw [Action.run, same]
      exact refl wf
    · rw [Action.run, same]
      exact (refl wf).alloc _
  | singletonClass v => exact singletonClass wf v
  | _ => cases makes

end Shelters

/-- What is reached is there after every step. -/
theorem isLive_act (wf : rt.heap.WellFormed) {α : Type} (action : Action α) {k : Kind}
    (reached : rt.Reaches (.cell k r)) (live : rt.heap.isLive r) :
    (action.run rt).2.heap.isLive r := by
  cases makes : action.makes with
  | true => exact (Shelters.act wf makes).isLive reached live
  | false =>
    obtain ⟨c, found⟩ := (Heap.isLive_iff ..).mp live
    obtain ⟨c', found', -⟩ := (Widens.act makes rt).cells wf r c found
    exact (Heap.isLive_iff ..).mpr ⟨c', found'⟩

end Runtime
end ObjectRuntime
