import ObjectRuntime.Proofs.Aloof
import ObjectRuntime.Proofs.Heap.Registration

/-! Registrations in a run. What stands is told from the answers of the moves alone. As long as the ids
suffice, the roots keep just the values that stand. An id that was given back stays without effect
until a new registration is answered with it. -/

namespace ObjectRuntime

namespace Move

/-- The registrations that stand after a move, by its answer: registering adds one under the id that
it answers with, and unregistering takes away that of its id when it answers with a value. -/
def standing : (move : Move) → move.Answer → List Registration → List Registration
  | act (.root v), i, standing => (i, v) :: standing
  | act (.unroot i), some _, standing => standing.filter (·.1 ≠ i)
  | _, _, standing => standing

def Issues (i : UInt32) : (move : Move) → move.Answer → Prop
  | act (.root _), answer => answer = i
  | _, _ => False

end Move

namespace Runtime

def registrations : Runtime → List Move → List Registration → List Registration
  | _, [], standing => standing
  | rt, move :: rest, standing =>
    (move.run rt).2.registrations rest (move.standing (move.run rt).1 standing)

/-- On its way the run registers a value under the id. -/
def Reissues (i : UInt32) : Runtime → List Move → Prop
  | _, [] => False
  | rt, move :: rest => move.Issues i (move.run rt).1 ∨ (move.run rt).2.Reissues i rest

variable {rt : Runtime} {standing : List Registration} {i : UInt32}

/-! ## One move -/

theorem standing_aside {move : Move} (registers : move.registers = false) (answer : move.Answer) :
    move.standing answer standing = standing := by
  cases move with
  | act action =>
    cases action with
    | root v => cases registers
    | unroot i => cases registers
    | _ => rfl
  | _ => rfl

theorem standing_unroot (tracks : rt.heap.roots.Tracks standing) (i : UInt32) :
    (Move.act (.unroot i)).standing ((Move.act (.unroot i)).run rt).1 standing =
      standing.filter (·.1 ≠ i) := by
  cases answer : ((Action.unroot i).run rt).1 with
  | some v =>
    simp only [Move.run, answer]
    rfl
  | none =>
    have spent : standing.lookup i = none := (tracks.gives_back i).symm.trans answer
    rw [Roots.Tracks.filter_of_spent (Roots.Tracks.spent_of_lookup spent)]
    simp only [Move.run, answer]
    rfl

theorem length_standing_le (move : Move) (answer : move.Answer) :
    (move.standing answer standing).length ≤ standing.length + 1 := by
  cases registers : move.registers with
  | false =>
    rw [standing_aside registers]
    exact Nat.le_succ _
  | true =>
    cases move with
    | act action =>
      cases action with
      | root v => exact le_rfl
      | unroot j =>
        cases answer with
        | none => exact Nat.le_succ _
        | some v => exact (List.length_filter_le ..).trans (Nat.le_succ _)
      | _ => cases registers
    | _ => cases registers

/-- With room for what stands after it, a move is answered with ids apart. -/
theorem tracks_move (tracks : rt.heap.roots.Tracks standing) (move : Move)
    (few : (move.standing (move.run rt).1 standing).length ≤ UInt32.size) :
    (move.run rt).2.heap.roots.Tracks (move.standing (move.run rt).1 standing) := by
  cases registers : move.registers with
  | false =>
    rw [standing_aside registers, (Aloof.move registers rt).roots]
    exact tracks
  | true =>
    cases move with
    | act action =>
      cases action with
      | root v => exact tracks.register few v
      | unroot i =>
        rw [standing_unroot tracks]
        exact tracks.unregister i
      | _ => cases registers
    | _ => cases registers

theorem tidy_move (tidy : rt.heap.roots.Tidy) (move : Move) : (move.run rt).2.heap.roots.Tidy := by
  cases registers : move.registers with
  | false => exact (Aloof.move registers rt).roots ▸ tidy
  | true =>
    cases move with
    | act action =>
      cases action with
      | root v => exact tidy.register v
      | unroot i => exact tidy.unregister i
      | _ => cases registers
    | _ => cases registers

/-- No move keeps a value under an id that it is not answered with. -/
theorem spent_move (tidy : rt.heap.roots.Tidy) (spent : rt.heap.roots.Spent i) (move : Move)
    (other : ¬ move.Issues i (move.run rt).1) : (move.run rt).2.heap.roots.Spent i := by
  cases registers : move.registers with
  | false => exact (Aloof.move registers rt).roots ▸ spent
  | true =>
    cases move with
    | act action =>
      cases action with
      | root v => exact spent.register tidy other
      | unroot j => exact spent.unregister j
      | _ => cases registers
    | _ => cases registers

/-! ## Runs -/

theorem tracks_boot (config : Config) : (boot config).heap.roots.Tracks [] := by
  have first : (bare config).heap.roots = {} := (wellFormed_firstHeap config).2
  rw [(Aloof.boot config).roots, first]
  exact .empty

theorem tidy_after (tidy : rt.heap.roots.Tidy) (moves : List Move) :
    (rt.after moves).heap.roots.Tidy :=
  Machine.kept_after (I := fun rt => rt.heap.roots.Tidy) (fun move _ tidy => tidy_move tidy move)
    tidy moves

theorem tracks_after (tracks : rt.heap.roots.Tracks standing) (moves : List Move)
    (few : ∀ n, (rt.registrations (moves.take n) standing).length ≤ UInt32.size) :
    (rt.after moves).heap.roots.Tracks (rt.registrations moves standing) := by
  induction moves generalizing rt standing with
  | nil => exact tracks
  | cons move rest ih => exact ih (tracks_move tracks move (few 1)) fun n => few (n + 1)

theorem spent_after (tidy : rt.heap.roots.Tidy) (spent : rt.heap.roots.Spent i) (moves : List Move)
    (apart : ¬ rt.Reissues i moves) : (rt.after moves).heap.roots.Spent i := by
  induction moves generalizing rt with
  | nil => exact spent
  | cons move rest ih =>
    obtain ⟨here, later⟩ := not_or.mp apart
    exact ih (tidy_move tidy move) (spent_move tidy spent move here) later

theorem length_registrations_le (rt : Runtime) (moves : List Move) (standing : List Registration) :
    (rt.registrations moves standing).length ≤ standing.length + moves.length := by
  induction moves generalizing rt standing with
  | nil => exact le_rfl
  | cons move rest ih =>
    refine (ih ..).trans ?_
    have one : (move.standing (move.run rt).1 standing).length ≤ standing.length + 1 :=
      length_standing_le move _
    rw [List.length_cons]
    omega

theorem unroot_of_spent (spent : rt.heap.roots.Spent i) :
    (Action.unroot i).run rt = (none, rt) := by
  simp only [Action.run, Roots.unregister_of_spent spent]

/-- As long as no more than 2 ^ 32 registrations stand at once, they have ids of their own, the roots
keep just their values, and each gives its value back to its id; when 2 ^ 32 stand, one more is
answered with the id of one of them. However many stand, an id that was given back gives nothing back
and takes nothing from the roots until a registration is answered with it again, which the next one
is. -/
theorem spent_ids_inert (config : Config) (moves : List Move) :
    let rt := (boot config).after moves
    let standing := (boot config).registrations moves []
    ((∀ n, ((boot config).registrations (moves.take n) []).length ≤ UInt32.size) →
      (standing.map Prod.fst).Nodup ∧ rt.heap.roots.values.Perm (standing.map Prod.snd) ∧
        rt.heap.stats.roots = standing.length ∧
        (∀ i, ((Action.unroot i).run rt).1 = standing.lookup i ∧
          ((Action.unroot i).run rt).2.heap.roots.values.Perm
            ((standing.filter (·.1 ≠ i)).map Prod.snd)) ∧
        (standing.length = UInt32.size →
          ∀ v, ((Action.root v).run rt).1 ∈ standing.map Prod.fst)) ∧
      ∀ i, let left := ((Action.unroot i).run rt).2
        (∀ later, ¬ left.Reissues i later →
          (Action.unroot i).run (left.after later) = (none, left.after later)) ∧
        (((Action.unroot i).run rt).1 ≠ none → ∀ v, ((Action.root v).run left).1 = i) := by
  intro rt standing
  refine ⟨fun few => ?_, fun i => ⟨fun later apart => ?_, fun answered v => ?_⟩⟩
  · have tracks : rt.heap.roots.Tracks standing := tracks_after (tracks_boot config) moves few
    refine ⟨tracks.apart, tracks.values, ?_,
      fun i => ⟨tracks.gives_back i, (tracks.unregister i).values⟩, fun full v => tracks.repeats full v⟩
    simp [Heap.stats, Roots.count, tracks.size, tracks.length_values]
  · have tidy : rt.heap.roots.Tidy := tidy_after (tracks_boot config).toTidy moves
    have spent := Roots.spent_unregister rt.heap.roots i
    exact unroot_of_spent (spent_after (tidy.unregister i) spent later apart)
  · exact Roots.register_unregister answered v

def registering : List Move := [.act (.root (.int 1)), .act (.root (.int 2))]

theorem registering_spends : let rt := (boot {}).after registering
    let left := ((Action.unroot 0).run rt).2
    (∀ n, ((boot {}).registrations (registering.take n) []).length ≤ UInt32.size) ∧
    (¬ left.Reissues 0 [.act .collect] ∧ ((Action.unroot 0).run rt).1 ≠ none) ∧
      rt.heap.stats.roots = 2 ∧
      (Action.unroot 0).run (left.after [.act .collect]) = (none, left.after [.act .collect]) ∧
      ((Action.root (.int 3)).run left).1 = 0 := by
  intro rt left
  have few (n : Nat) : ((boot {}).registrations (registering.take n) []).length ≤ UInt32.size := by
    have short := length_registrations_le (boot {}) (registering.take n) []
    have taken : (registering.take n).length ≤ 2 := List.length_take_le' ..
    rw [List.length_nil] at short
    have below : 2 ≤ UInt32.size := by decide
    omega
  have answered : ((Action.unroot 0).run rt).1 ≠ none := by
    change ((Action.unroot 0).run ((boot {}).after registering)).1 ≠ none
    decide +kernel
  have apart : ¬ left.Reissues 0 [.act .collect] := by
    rintro (here | later)
    · exact here
    · exact later
  obtain ⟨tracked, inert⟩ := spent_ids_inert {} registering
  obtain ⟨-, -, count, -⟩ := tracked few
  obtain ⟨later, next⟩ := inert 0
  exact ⟨few, ⟨apart, answered⟩, count, later _ apart, next answered _⟩

/-- An id that was given back gives back the value of another registration, and lets go of it. -/
theorem spent_id_takes_another :
    let rooted := (Action.root (.int 1)).run (boot {})
    let spent := (Action.unroot rooted.1).run rooted.2
    let other := (Action.root (.int 2)).run spent.2
    let again := (Action.unroot rooted.1).run other.2
    spent.1 = some (.int 1) ∧ Val.int 2 ∈ other.2.heap.roots.values ∧
      again.1 = some (.int 2) ∧ Val.int 2 ∉ again.2.heap.roots.values ∧
      again.2.heap.stats.roots = 0 := by
  decide +kernel

end Runtime
end ObjectRuntime
