import Mathlib.Data.Finmap
import ObjectRuntime.Proofs.Immutable

/-! Insertion order. A table that updates have made out of the empty one binds what the finite map
binds that the same updates make. It lists its bindings by their age: a key is there since the update
that wrote it when it was not there, however often it is overwritten, and comes last when it is written
again after it was erased. The tables of a run are all made by updates out of empty ones. -/

namespace ObjectRuntime

namespace Table

/-- What is done to a table. -/
inductive Update (κ ν : Type)
  | insert (key : κ) (val : ν)
  | erase (key : κ)

namespace Update
variable {κ ν : Type}

def key : Update κ ν → κ
  | insert key _ => key
  | erase key => key

def erased? : Update κ ν → Option κ
  | insert _ _ => none
  | erase key => some key

variable [DecidableEq κ]

def apply (t : Table κ ν) : Update κ ν → Table κ ν
  | insert key val => t.insert key val
  | erase key => t.erase key

/-- The same update of a finite map, which knows no order. -/
def applyMap (m : Finmap fun _ : κ => ν) : Update κ ν → Finmap fun _ : κ => ν
  | insert key val => m.insert key val
  | erase key => m.erase key

/-- The same update of the times since when the keys are there, when it is made at the given time. -/
def stamp (since : κ → Option Nat) (time : Nat) : Update κ ν → κ → Option Nat
  | insert key _ => Function.update since key (some ((since key).getD time))
  | erase key => Function.update since key none

end Update

variable {κ ν : Type} [DecidableEq κ]

def updated (t : Table κ ν) (updates : List (Update κ ν)) : Table κ ν :=
  updates.foldl Update.apply t

def mapOf (updates : List (Update κ ν)) : Finmap fun _ : κ => ν :=
  updates.foldl Update.applyMap ∅

/-- The update that a key is there since, by its place among the updates. -/
def since (updates : List (Update κ ν)) : κ → Option Nat :=
  updates.zipIdx.foldl (fun since (u, time) => u.stamp since time) fun _ => none

variable {t t' : Table κ ν} {m : Finmap fun _ : κ => ν} {updates : List (Update κ ν)} {key : κ}

theorem updated_append (t : Table κ ν) (first second : List (Update κ ν)) :
    t.updated (first ++ second) = (t.updated first).updated second :=
  List.foldl_append

theorem built_updated (built : t.Built) (updates : List (Update κ ν)) : (t.updated updates).Built := by
  induction updates generalizing t with
  | nil => exact built
  | cons u rest ih =>
    cases u with
    | insert key val => exact ih (built.insert key val)
    | erase key => exact ih (built.erase key)

theorem built_iff : t.Built ↔ ∃ updates : List (Update κ ν), t = ({} : Table κ ν).updated updates := by
  constructor
  · intro built
    have snoc (updates : List (Update κ ν)) (u : Update κ ν) :
        u.apply (({} : Table κ ν).updated updates) = ({} : Table κ ν).updated (updates ++ [u]) :=
      (updated_append {} updates [u]).symm
    induction built with
    | empty => exact ⟨[], rfl⟩
    | insert _ key val ih =>
      obtain ⟨updates, rfl⟩ := ih
      exact ⟨_, snoc updates (.insert key val)⟩
    | erase _ key ih =>
      obtain ⟨updates, rfl⟩ := ih
      exact ⟨_, snoc updates (.erase key)⟩
  · rintro ⟨updates, rfl⟩
    exact built_updated .empty updates

theorem nodup_apply (nodup : t.keys.Nodup) (u : Update κ ν) : (u.apply t).keys.Nodup := by
  cases u with
  | insert key val =>
    rw [Update.apply, keys_insert]
    split
    next => exact nodup
    next new => exact List.concat_eq_append ▸ nodup.concat new
  | erase key =>
    rw [Update.apply, erase_eq_without nodup]
    exact nodup_without nodup [key]

/-! ## The bindings -/

/-- The keys are distinct, and bound to what the map binds them to. -/
structure Represents (t : Table κ ν) (m : Finmap fun _ : κ => ν) : Prop where
  nodup : t.keys.Nodup
  get? : ∀ key, t.get? key = m.lookup key

namespace Represents

theorem apply (represents : t.Represents m) (u : Update κ ν) :
    (u.apply t).Represents (u.applyMap m) where
  nodup := nodup_apply represents.nodup u
  get? key' := by
    cases u with
    | insert key val =>
      by_cases same : key' = key
      · subst same
        rw [Update.apply, Update.applyMap, get?_insert_self, Finmap.lookup_insert]
      · rw [Update.apply, Update.applyMap, get?_insert_of_ne t same,
          Finmap.lookup_insert_of_ne m same, represents.get? key']
    | erase key =>
      by_cases same : key' = key
      · subst same
        rw [Update.apply, Update.applyMap, get?_erase_self represents.nodup, Finmap.lookup_erase]
      · rw [Update.apply, Update.applyMap, get?_erase_of_ne t same, Finmap.lookup_erase_ne same,
          represents.get? key']

theorem empty : ({} : Table κ ν).Represents ∅ := ⟨List.nodup_nil, fun _ => rfl⟩

theorem updated (represents : t.Represents m) (updates : List (Update κ ν)) :
    (t.updated updates).Represents (updates.foldl Update.applyMap m) := by
  induction updates generalizing t m with
  | nil => exact represents
  | cons u rest ih => exact ih (represents.apply u)

theorem contains (represents : t.Represents m) (key : κ) : t.contains key = decide (key ∈ m) := by
  rw [Table.contains, represents.get?, Bool.eq_iff_iff, Finmap.lookup_isSome, decide_eq_true_iff]

theorem entries (represents : t.Represents m) (key : κ) (val : ν) :
    (key, val) ∈ t.entries ↔ m.lookup key = some val := by
  rw [← represents.get?, Table.get?, find_eq_some_iff represents.nodup]

end Represents

/-! ## The order -/

/-- The keys are those that are there since some time, the older ones first. -/
structure Chronological (t : Table κ ν) (since : κ → Option Nat) (now : Nat) : Prop where
  present : ∀ key, key ∈ t.keys ↔ (since key).isSome
  past : ∀ key time, since key = some time → time < now
  sorted : t.keys.Pairwise fun a b => ∀ i j, since a = some i → since b = some j → i < j

namespace Chronological
variable {times : κ → Option Nat} {now : Nat}

theorem overwrite (chronological : t.Chronological times now) (old : key ∈ t.keys) (val : ν) :
    (t.insert key val).Chronological (Update.stamp times now (.insert key val)) (now + 1) := by
  obtain ⟨time, stamped⟩ := Option.isSome_iff_exists.mp ((chronological.present key).mp old)
  have same : Update.stamp times now (.insert key val) = times := by
    rw [Update.stamp, stamped, Option.getD_some, ← stamped, Function.update_eq_self]
  have keys : (t.insert key val).keys = t.keys := by rw [keys_insert, if_pos old]
  rw [same]
  exact ⟨keys ▸ chronological.present,
    fun k i at_i => Nat.lt_succ_of_lt (chronological.past k i at_i), keys ▸ chronological.sorted⟩

/-- A key that is erased leaves the times of the others alone. -/
theorem erase (nodup : t.keys.Nodup) (chronological : t.Chronological times now) (key : κ) :
    (t.erase key).Chronological (Function.update times key none) (now + 1) := by
  have keys : (t.erase key).keys = t.keys.filter (· ∉ [key]) := by
    rw [erase_eq_without nodup, keys_without]
  have others {k : κ} {i : Nat} (at_i : Function.update times key none k = some i) :
      times k = some i := by
    by_cases same : k = key
    · simp [same] at at_i
    · rwa [Function.update_of_ne same] at at_i
  refine ⟨fun k => ?_, fun k i at_i => Nat.lt_succ_of_lt (chronological.past k i (others at_i)), ?_⟩
  · rw [keys, List.mem_filter, chronological.present]
    by_cases same : k = key <;> simp [same]
  · rw [keys]
    exact (chronological.sorted.filter _).imp fun older i j at_i at_j =>
      older i j (others at_i) (others at_j)

/-- A new key is younger than all others. -/
theorem append (chronological : t.Chronological times now) (new : key ∉ t.keys) (val : ν) :
    (t.insert key val).Chronological (Update.stamp times now (.insert key val)) (now + 1) := by
  have unstamped : times key = none := by
    rw [← Option.not_isSome_iff_eq_none, ← chronological.present]
    exact new
  have keys : (t.insert key val).keys = t.keys ++ [key] := by rw [keys_insert, if_neg new]
  rw [Update.stamp, unstamped, Option.getD_none]
  refine ⟨fun k => ?_, fun k i at_i => ?_, ?_⟩
  · rw [keys, List.mem_append, chronological.present]
    by_cases same : k = key <;> simp [same]
  · by_cases same : k = key
    · simp [same] at at_i
      omega
    · rw [Function.update_of_ne same] at at_i
      exact Nat.lt_succ_of_lt (chronological.past k i at_i)
  · have others {k : κ} (member : k ∈ t.keys) : Function.update times key (some now) k = times k :=
      Function.update_of_ne (ne_of_mem_of_not_mem member new) ..
    rw [keys, List.pairwise_append]
    refine ⟨chronological.sorted.imp_of_mem fun first second older i j at_i at_j => ?_,
      List.pairwise_singleton .., fun a member b last i j at_i at_j => ?_⟩
    · rw [others first] at at_i
      rw [others second] at at_j
      exact older i j at_i at_j
    · rw [others member] at at_i
      rw [List.mem_singleton.mp last, Function.update_self] at at_j
      exact Option.some.inj at_j ▸ chronological.past a i at_i

theorem apply (nodup : t.keys.Nodup) (chronological : t.Chronological times now) (u : Update κ ν) :
    (u.apply t).Chronological (u.stamp times now) (now + 1) := by
  cases u with
  | insert key val =>
    by_cases old : key ∈ t.keys
    · exact chronological.overwrite old val
    · exact chronological.append old val
  | erase key => exact chronological.erase nodup key

end Chronological

theorem since_concat (updates : List (Update κ ν)) (u : Update κ ν) :
    since (updates ++ [u]) = u.stamp (since updates) updates.length := by
  simp [since, List.zipIdx_append]

theorem chronological_updated (updates : List (Update κ ν)) :
    (({} : Table κ ν).updated updates).Chronological (since updates) updates.length := by
  induction updates using List.reverseRecOn with
  | nil => exact ⟨fun key => by simp [updated, keys, since], fun _ _ => nofun, .nil⟩
  | append_singleton updates u ih =>
    have nodup := (built_updated .empty updates).nodup
    rw [since_concat, updated_append, List.length_append]
    exact ih.apply nodup u

/-! ## What stays in place -/

theorem without_apply (nodup : t.keys.Nodup) (u : Update κ ν) :
    (u.apply t).without [u.key] = t.without [u.key] := by
  cases u with
  | insert key val => exact without_insert t key val
  | erase key => exact without_erase nodup key

theorem without_cons_of_mem {ks : List κ} (member : key ∈ ks) :
    (t.without [key]).without ks = t.without ks := by
  rw [without_append]
  refine congrArg Table.mk (List.filter_congr fun e _ => ?_)
  simp only [List.singleton_append, List.mem_cons, decide_eq_decide, not_or, and_iff_right_iff_imp]
  exact fun absent same => absent (same ▸ member)

/-- What is under keys that no update is about stays as it is, and in its order. -/
theorem without_updated (nodup : t.keys.Nodup) {ks : List κ}
    (within : ∀ u ∈ updates, u.key ∈ ks) : (t.updated updates).without ks = t.without ks := by
  induction updates generalizing t with
  | nil => rfl
  | cons u rest ih =>
    obtain ⟨first, others⟩ := List.forall_mem_cons.mp within
    calc (t.updated (u :: rest)).without ks
      _ = (u.apply t).without ks := ih (nodup_apply nodup u) others
      _ = ((u.apply t).without [u.key]).without ks := (without_cons_of_mem first).symm
      _ = (t.without [u.key]).without ks := by rw [without_apply nodup]
      _ = t.without ks := without_cons_of_mem first

/-- Keys that are not erased stay in front, in their order, whatever is written. -/
theorem keys_updated (nodup : t.keys.Nodup) (later : List (Update κ ν)) :
    (t.without (later.filterMap Update.erased?)).keys <+: (t.updated later).keys := by
  induction later generalizing t with
  | nil => rw [List.filterMap_nil, without_nil]; exact List.prefix_rfl
  | cons u rest ih =>
    have front := ih (nodup_apply nodup u)
    cases u with
    | insert key val =>
      have longer : t.keys <+: (t.insert key val).keys := by
        rw [keys_insert]
        split
        next => exact List.prefix_rfl
        next => exact List.prefix_append ..
      refine List.IsPrefix.trans ?_ front
      rw [keys_without, keys_without]
      exact longer.filter _
    | erase key =>
      have fewer : (t.erase key).without (rest.filterMap Update.erased?) =
          t.without (key :: rest.filterMap Update.erased?) := by
        rw [erase_eq_without nodup, without_append, List.singleton_append]
      exact fewer ▸ front

end Table

namespace Table.Update

/-- The step that updates a table on the heap. -/
def move (r : Ref) : Update Val Val → Move
  | insert key val => .act (.insert r key val)
  | erase key => .act (.erase r key)

end Table.Update

namespace Runtime
variable {rt : Runtime} {r : Ref} {t : Table Val Val}

theorem entries?_newTable (wf : rt.heap.WellFormed) (cls : Ref) :
    let made := (Action.newTable cls).run rt
    made.2.entries? made.1 = some {} := by
  simp only [Action.run, entries?, cell?_alloc_self wf]

theorem entries?_modifyEntries (rt : Runtime) (r : Ref) (f : Table Val Val → Table Val Val) :
    (rt.modifyEntries r f).entries? r = (rt.entries? r).map f := by
  simp only [entries?, modifyEntries, modifyCell, Heap.cell?_modify, if_pos]
  cases rt.heap.cell? r with
  | none => rfl
  | some c => cases c <;> rfl

theorem entries?_update (held : rt.entries? r = some t) (u : Table.Update Val Val) :
    ((u.move r).run rt).2.entries? r = some (u.apply t) := by
  cases u with
  | insert key val => exact (entries?_modifyEntries rt r _).trans (congrArg (Option.map _) held)
  | erase key => exact (entries?_modifyEntries rt r _).trans (congrArg (Option.map _) held)

theorem entries?_updates (held : rt.entries? r = some t) (updates : List (Table.Update Val Val)) :
    (rt.after (updates.map (·.move r))).entries? r = some (t.updated updates) := by
  induction updates generalizing rt t with
  | nil => exact held
  | cons u rest ih => exact ih (entries?_update held u)

/-- Every table is one that updates have made out of an empty one. -/
def TablesBuilt (rt : Runtime) : Prop :=
  ∀ r cls t, rt.heap.cell? r = some (.table cls t) → t.Built

namespace TablesBuilt
variable {rt' : Runtime}

theorem leaves (built : rt.TablesBuilt) (wf : rt.heap.WellFormed) (leaves : Leaves .table rt rt') :
    rt'.TablesBuilt := fun r cls t found =>
  built r cls t (leaves.cells wf r _ found rfl)

theorem modifyEntries (built : rt.TablesBuilt) (r : Ref) {f : Table Val Val → Table Val Val}
    (keeps : ∀ t, t.Built → (f t).Built) : (rt.modifyEntries r f).TablesBuilt := by
  intro a cls t found
  simp only [Runtime.modifyEntries, modifyCell, Heap.cell?_modify] at found
  split at found
  next =>
    obtain ⟨c, before, written⟩ := Option.map_eq_some_iff.mp found
    cases c with
    | table cls' t' =>
      cases written
      exact keeps t' (built r _ t' before)
    | _ => cases written
  next => exact built a cls t found

theorem newTable (built : rt.TablesBuilt) (wf : rt.heap.WellFormed) (cls : Ref) :
    (rt.alloc (.table cls {})).2.TablesBuilt := by
  intro r cls' t found
  rcases Leaves.cell?_alloc (k := .table) wf found rfl with before | new
  · exact built r cls' t before
  · cases new
    exact .empty

theorem act (built : rt.TablesBuilt) (wf : rt.heap.WellFormed) {α : Type} (action : Action α) :
    (action.run rt).2.TablesBuilt := by
  by_cases handles : action.data = some .table
  · cases action with
    | newTable cls => exact built.newTable wf cls
    | insert table key v => exact built.modifyEntries table fun _ before => before.insert key v
    | erase table key => exact built.modifyEntries table fun _ before => before.erase key
    | _ => cases handles
  · cases aside : action.writesFrame with
    | false => exact built.leaves wf (.act handles aside rt)
    | true =>
      cases action with
      | setLocal => exact built
      | _ => cases aside

theorem move (built : rt.TablesBuilt) (wf : rt.heap.WellFormed) (move : Move) :
    (move.run rt).2.TablesBuilt := by
  cases move with
  | act action => exact built.act wf action
  | _ =>
    rw [TablesBuilt, heap_move rfl]
    exact built

end TablesBuilt

theorem no_table_first : ∀ e ∈ (firstHeap {}).slots.toList.zipIdx, ∀ c ∈ e.1.cell,
    c.kind ≠ .table := by
  decide +kernel

attribute [local irreducible] firstHeap

/-- A new runtime has no table. -/
theorem TablesBuilt.boot (config : Config) : (boot config).TablesBuilt := by
  have start : (bare config).TablesBuilt := fun r cls t found => by
    obtain ⟨s, slot, occupied⟩ := slot_first found
    exact absurd rfl (no_table_first _ slot _ occupied)
  exact start.leaves (wellFormed_firstHeap config).1 (Leaves.boot config nofun)

/-- A table that is there in a run is one that updates have made out of an empty one, whatever else
the run does. -/
theorem tables_updated (config : Config) (moves : List Move)
    (held : ((boot config).after moves).entries? r = some t) :
    ∃ updates : List (Table.Update Val Val), t = ({} : Table Val Val).updated updates := by
  have start : (boot config).heap.WellFormed ∧ (boot config).TablesBuilt :=
    ⟨(intact_boot config).sound.heap, .boot config⟩
  obtain ⟨-, built⟩ := Machine.kept_after
    (I := fun rt => rt.heap.WellFormed ∧ rt.TablesBuilt)
    (fun step _ before => ⟨wellFormed_move step before.1, before.2.move before.1 step⟩) start moves
  refine Table.built_iff.mp ?_
  simp only [entries?] at held
  split at held
  next cls _ found => exact Option.some.inj held ▸ built r cls _ found
  next => cases held

end Runtime

namespace Table

/-- Whatever is written to an empty table and erased from it, with whatever values for keys, it keeps
its keys distinct and answers what the finite map answers that is updated alike; on the heap as well,
where erasing answers what was there. A key that is written again keeps its place, and a new one comes
last, also when it was there before and was erased. Whatever else is done, the other bindings are as
they were and in the order in which they were, and so are the keys that are not erased. In all, the
keys stand in the order in which they were last written anew. -/
theorem updates_keep_order (updates : List (Update Val Val)) :
    let t := ({} : Table Val Val).updated updates
    let m := mapOf updates
    t.keys.Nodup ∧
    (∀ key, t.get? key = m.lookup key ∧ t.contains key = decide (key ∈ m) ∧
      ∀ val, (key, val) ∈ t.entries ↔ m.lookup key = some val) ∧
    (∀ (rt : Runtime) (r : Ref), rt.entries? r = some {} →
      let left := rt.after (updates.map (·.move r))
      left.entries? r = some t ∧ ∀ key, ((Action.erase r key).run left).1 = m.lookup key) ∧
    (∀ key ∈ t.keys, ∀ val,
      (t.insert key val).entries = t.entries.map fun e => if e.1 = key then (key, val) else e) ∧
    (∀ key ∉ t.keys, ∀ val, (t.insert key val).entries = t.entries ++ [(key, val)]) ∧
    (∀ key val, ((t.erase key).insert key val).entries = (t.without [key]).entries ++ [(key, val)]) ∧
    (∀ later : List (Update Val Val),
      (t.updated later).without (later.map (·.key)) = t.without (later.map (·.key)) ∧
      (t.without (later.filterMap Update.erased?)).keys <+: (t.updated later).keys) ∧
    (∀ key, key ∈ t.keys ↔ (since updates key).isSome) ∧
    t.keys.Pairwise fun a b =>
      ∀ i j, since updates a = some i → since updates b = some j → i < j := by
  intro t m
  have represents : t.Represents m := .updated .empty updates
  have chronological : t.Chronological (since updates) updates.length :=
    chronological_updated updates
  have nodup := represents.nodup
  refine ⟨nodup, fun key => ⟨represents.get? key, represents.contains key, represents.entries key⟩,
    fun rt r empty => ?heap, fun key old val => insert_of_mem nodup old val,
    fun key new val => insert_of_not_mem new val, fun key val => ?again,
    fun later => ⟨without_updated nodup fun u member => List.mem_map_of_mem member,
      keys_updated nodup later⟩, chronological.present, chronological.sorted⟩
  case heap =>
    have held := Runtime.entries?_updates empty updates
    refine ⟨held, fun key => ?_⟩
    rw [← represents.get?]
    exact congrArg (·.bind (·.get? key)) held
  case again =>
    have gone := get?_eq_none_iff.mp (get?_erase_self nodup key)
    rw [insert_of_not_mem gone, erase_eq_without nodup]

/-- Three keys, of which the first is written again, and the second after it was erased. -/
def rewriting : List (Update Val Val) :=
  [.insert (.int 2) (.int 20), .insert (.int 1) (.int 10), .insert (.int 3) (.int 30),
   .insert (.int 2) (.int 21), .erase (.int 1), .insert (.int 1) (.int 11)]

theorem rewriting_keeps_order :
    let made := (Action.newTable CoreClass.hash.ref).run (Runtime.boot {})
    ((made.2.after (rewriting.map (·.move made.1))).entries? made.1).map (·.entries) =
      some [(.int 2, .int 21), (.int 3, .int 30), (.int 1, .int 11)] := by
  intro made
  obtain ⟨-, -, onHeap, -⟩ := updates_keep_order rewriting
  have wf := (Runtime.intact_boot {}).sound.heap
  obtain ⟨held, -⟩ := onHeap made.2 made.1 (Runtime.entries?_newTable wf CoreClass.hash.ref)
  rw [held]
  decide

end Table
end ObjectRuntime
