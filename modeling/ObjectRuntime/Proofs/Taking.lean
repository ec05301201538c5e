import Mathlib.Data.List.Forall2
import ObjectRuntime.Proofs.Binding
import ObjectRuntime.Proofs.Lasting
import ObjectRuntime.Proofs.Names
import ObjectRuntime.Proofs.Registry

/-! Taking keywords. The keywords of a call are taken one by one out of the table that its
arguments end in. Each has the value that it had at the start, whatever was taken before it, what is
left is the rest of the table, and what is taken is held instead. -/

namespace ObjectRuntime

/-- What the code of a method asks of its arguments, or does in between. -/
inductive Request
  | keyword (name : Sym) (default : Option Val)
  | positional (index : Int) (default : Val)
  | splat (start : Int)
  | collect

namespace Request
variable {η : Type}

def program (s : Shape) (subject : Subject) : Request → Program η Val
  | keyword name default => Program.bindKeyword s subject name default
  | positional index default => Program.asks (s.bind · subject [index] default)
  | splat start => do return .array (← Program.bindSplat s subject [start])
  | collect => do
    let _ ← Program.perform .collect
    return .nil

/-- One request after the other, also when some of them fail. -/
def serve (s : Shape) (subject : Subject) : List Request → Program η (List (Outcome Val))
  | [] => return []
  | q :: rest => do
    let answer ← (q.program s subject).attempt
    return answer :: (← serve s subject rest)

def key? : Request → Option Val
  | keyword name _ => some (.sym name)
  | _ => none

/-- The keys that some requests take out of the table. -/
def keys (requests : List Request) : List Val := requests.filterMap key?

/-- The answer for a keyword that is not in the table. -/
def unfound (rt : Runtime) (name : Sym) : Option Val → Outcome Val
  | some v => .value v
  | none => .failure (.argumentError s!"missing keyword: :{rt.symName name}")

/-- How a request is answered, going by the runtime and the table that the series of requests
starts with. What a splat collects is there when the series ends. -/
inductive Answered (s : Shape) (subject : Subject) (rt left : Runtime) (t : Table Val Val) :
    Request → Outcome Val → Prop
  | found {name : Sym} {v : Val} (default : Option Val) (present : (.sym name, v) ∈ t.entries) :
      Answered s subject rt left t (keyword name default) (.value v)
  | unfound {name : Sym} (default : Option Val) (absent : ∀ v, (.sym name, v) ∉ t.entries) :
      Answered s subject rt left t (keyword name default) (unfound rt name default)
  | positional (index : Int) (default : Val) :
      Answered s subject rt left t (positional index default)
        (.value (s.bind rt subject [index] default))
  | splat (start : Int) {a : Ref} (held : .array a ∈ left.handles)
      (collected : left.elements? a = some (s.splatElements rt subject [start]).toArray) :
      Answered s subject rt left t (splat start) (.value (.array a))
  | collect : Answered s subject rt left t collect (.value .nil)

end Request

def Subject.vals : Subject → List Val
  | .arguments args => args
  | .value v => [v]

/-- Running code has the subject, and a table is the last of its elements. -/
structure Subject.EndsIn (subject : Subject) (rt : Runtime) (r : Ref) : Prop where
  last : subject.last? rt = some (.table r)
  available : ∀ v ∈ subject.vals, rt.Available v

namespace Runtime

/-- What is reached stays so and stays there, and the arrays among it keep their elements. Tables may
lose what is in them. -/
structure Draws (rt rt' : Runtime) : Prop extends Extends rt rt' where
  symbols : rt'.symbols = rt.symbols
  reaches : ∀ k a, rt.Reaches (.cell k a) → rt'.Reaches (.cell k a)
  live : ∀ k a, rt.Reaches (.cell k a) → rt.heap.isLive a → rt'.heap.isLive a
  elements : ∀ a es, rt.Reaches (.array a) → rt.elements? a = some es → rt'.elements? a = some es

variable {rt rt' rt'' left : Runtime} {r : Ref} {t : Table Val Val} {name : Sym} {v : Val}

theorem entries?_eq_some :
    rt.entries? r = some t ↔ ∃ cls, rt.heap.cell? r = some (.table cls t) := by
  unfold entries?
  cases rt.heap.cell? r with
  | none => simp
  | some c => cases c <;> simp

/-! ## What requests keep -/

namespace Draws

theorem refl (rt : Runtime) : Draws rt rt where
  toExtends := .refl rt
  symbols := rfl
  reaches _ _ := id
  live _ _ _ := id
  elements _ _ _ := id

theorem trans (first : Draws rt rt') (second : Draws rt' rt'') : Draws rt rt'' where
  toExtends := first.toExtends.trans second.toExtends
  symbols := second.symbols.trans first.symbols
  reaches k a reached := second.reaches k a (first.reaches k a reached)
  live k a reached before :=
    second.live k a (first.reaches k a reached) (first.live k a reached before)
  elements a es reached listed :=
    second.elements a es (first.reaches .array a reached) (first.elements a es reached listed)

theorem of_shelters (shelters : Shelters rt rt') (extension : Extends rt rt')
    (symbols : rt'.symbols = rt.symbols) : Draws rt rt' where
  toExtends := extension
  symbols := symbols
  reaches _ _ := shelters.reaches
  live _ _ := shelters.isLive
  elements a es reached listed := by
    obtain ⟨cls, found⟩ := elements?_eq_some.mp listed
    obtain ⟨c', found', records⟩ := shelters.cells .array a _ reached found
    cases records
    exact elements?_eq_some.mpr ⟨cls, found'⟩

theorem available (draws : Draws rt rt') (available : rt.Available v) : rt'.Available v := by
  cases v with
  | cell k a => exact .inr (draws.reaches k a available.reaches)
  | _ => exact .inl rfl

end Draws

theorem Shelters.entries (shelters : Shelters rt rt') (reached : rt.Reaches (.table r))
    (held : rt.entries? r = some t) : rt'.entries? r = some t := by
  obtain ⟨cls, found⟩ := entries?_eq_some.mp held
  obtain ⟨c', found', records⟩ := shelters.cells .table r _ reached found
  cases records
  exact entries?_eq_some.mpr ⟨cls, found'⟩

theorem draws_alloc (wf : rt.heap.WellFormed) (cls : Ref) (elements : List Val) :
    Draws rt (rt.alloc (.array cls elements.toArray)).2 :=
  .of_shelters ((Shelters.refl wf).alloc _)
    (Extends.act (.newArray cls elements) rt fun letsGo => nomatch letsGo) (symbols_alloc rt _)

theorem draws_collect (wf : rt.heap.WellFormed) : Draws rt rt.collect :=
  .of_shelters (Shelters.refl wf).collect (Extends.act .collect rt fun letsGo => nomatch letsGo) rfl

/-! ## Taking a value out -/

/-- What is under a name comes out of the table and is held from then on. -/
def takeOut (rt : Runtime) (r : Ref) (name : Sym) (v : Val) : Runtime :=
  (rt.modifyEntries r (·.erase (.sym name))).hold v

theorem Root.hold {w : Val} (root : rt.Root w) (v : Val) : (rt.hold v).Root w := by
  unfold Runtime.hold
  split
  next => exact root
  next =>
    cases root with
    | core c member => exact .core c member
    | top held => exact .top held
    | global held => exact .global held
    | handle held => exact .handle (Array.mem_push.mpr (.inl held))
    | running member held => exact .running member held
    | registered held => exact .registered held
    | pinned slot occupied pinned => exact .pinned slot occupied pinned

theorem held_hold (rt : Runtime) (k : Kind) (a : Ref) : .cell k a ∈ (rt.hold (.cell k a)).handles :=
  Array.mem_push.mpr (.inr rfl)

theorem available_hold (rt : Runtime) (v : Val) : (rt.hold v).Available v := by
  cases v with
  | cell k a => exact .inr (Root.handle (held_hold rt k a)).reaches
  | _ => exact .inl rfl

theorem cell?_takeOut (rt : Runtime) (r : Ref) (name : Sym) (v : Val) (a : Ref) :
    (rt.takeOut r name v).heap.cell? a =
      (rt.modifyEntries r (·.erase (.sym name))).heap.cell? a := by
  rw [takeOut, hold_eq]

theorem cell?_takeOut_self {cls : Ref} (found : rt.heap.cell? r = some (.table cls t)) (name : Sym)
    (v : Val) : (rt.takeOut r name v).heap.cell? r = some (.table cls (t.erase (.sym name))) := by
  rw [cell?_takeOut]
  simp only [modifyEntries, modifyCell, Heap.cell?_modify, if_true, found, Option.map_some]

theorem entries?_takeOut (held : rt.entries? r = some t) (name : Sym) (v : Val) :
    (rt.takeOut r name v).entries? r = some (t.erase (.sym name)) := by
  obtain ⟨cls, found⟩ := entries?_eq_some.mp held
  exact entries?_eq_some.mpr ⟨cls, cell?_takeOut_self found name v⟩

theorem cell?_takeOut_of_ne {a : Ref} (apart : a ≠ r) :
    (rt.takeOut r name v).heap.cell? a = rt.heap.cell? a := by
  rw [cell?_takeOut]
  simp only [modifyEntries, modifyCell, Heap.cell?_modify, if_neg apart]

/-- All that is lost is the way through the table to what is held in its place. -/
theorem available_takeOut (held : rt.entries? r = some t) (found : t.get? (.sym name) = some v)
    {w : Val} (reached : rt.Reaches w) : (rt.takeOut r name v).Available w := by
  have frames : (rt.takeOut r name v).frames = rt.frames := by
    rw [takeOut, hold_eq]
    rfl
  refine reached.available_mono (fun w root => ?_) fun k a c _ reached' here w child => ?_
  · have written : (rt.modifyEntries r (·.erase (.sym name))).Root w :=
      (root_modifyCell (fun c => by cases c <;> rfl) w).mpr root
    exact (written.hold v).available
  · rw [← frames] at child
    by_cases same : a = r
    · subst same
      obtain ⟨cls, there⟩ := entries?_eq_some.mp held
      rw [there] at here
      cases here
      have parent := cell?_takeOut_self there name v
      simp only [Cell.children, List.mem_cons, List.mem_flatMap, List.not_mem_nil, or_false] at child
      rcases child with cls | ⟨e, entry, part⟩
      · exact .inr (.child reached' parent (cls ▸ List.mem_cons_self ..))
      · rcases Table.mem_drop_or (.sym name) entry with still | ⟨under, first⟩
        · refine .inr (.child reached' parent (List.mem_cons_of_mem _ ?_))
          exact List.mem_flatMap.mpr ⟨e, still, by simpa using part⟩
        · rcases part with rfl | rfl
          · rw [under]
            exact .inl rfl
          · rw [Option.some.inj (found.symm.trans first)]
            exact available_hold _ _
    · rw [← cell?_takeOut_of_ne same] at here
      exact .inr (.child reached' here child)

theorem draws_takeOut (held : rt.entries? r = some t) (found : t.get? (.sym name) = some v) :
    Draws rt (rt.takeOut r name v) where
  toExtends := (Extends.modifyCell rt r _).trans (Extends.hold _ v)
  symbols := by
    rw [takeOut, hold_eq]
    rfl
  reaches k a reached := (available_takeOut held found reached).reaches
  live k a _ before := by
    rw [Heap.isLive, cell?_takeOut, ← Heap.isLive]
    exact (Heap.isLive_modify ..).trans before
  elements a es _ listed := by
    obtain ⟨cls, there⟩ := elements?_eq_some.mp listed
    refine elements?_eq_some.mpr ⟨cls, ?_⟩
    obtain ⟨_, table⟩ := entries?_eq_some.mp held
    have apart : a ≠ r := fun same => by
      rw [same, table] at there
      cases there
    rw [cell?_takeOut_of_ne apart, there]

/-! ## Where nothing is under the key -/

theorem modifyCell_self {f : Cell → Cell} (same : ∀ c, rt.heap.cell? r = some c → f c = c) :
    rt.modifyCell r f = rt := by
  have slots : rt.heap.slots.modify r.index (fun s =>
      if s.generation = r.generation then { s with cell := s.cell.map f } else s) =
        rt.heap.slots := by
    apply Array.ext_getElem?
    intro i
    rw [Array.getElem?_modify]
    split
    next here =>
      subst here
      cases slot : rt.heap.slots[r.index]? with
      | none => rfl
      | some s =>
        rw [Option.map_some]
        split
        next current =>
          cases occupied : s.cell with
          | none => rw [Option.map_none, ← occupied]
          | some c =>
            have found : rt.heap.cell? r = some c := by
              simp only [Heap.cell?, slot, if_pos current, occupied]
            rw [Option.map_some, same c found, ← occupied]
        next => rfl
    next => rfl
  rw [modifyCell, Heap.modify, slots]

theorem erase_nothing (held : rt.entries? r = some t) (absent : t.get? (.sym name) = none) :
    rt.modifyEntries r (·.erase (.sym name)) = rt := by
  obtain ⟨cls, found⟩ := entries?_eq_some.mp held
  refine modifyCell_self fun c found' => ?_
  rw [found] at found'
  cases found'
  exact congrArg (Cell.table cls) (Table.erase_of_absent absent)

end Runtime

/-! ## Subjects -/

namespace Subject.EndsIn
variable {subject : Subject} {rt rt' : Runtime} {r : Ref}

/-- The table is the last of the arguments, or the last element of an array that is reached. -/
theorem cases (ends : subject.EndsIn rt r) :
    (∃ args, subject = .arguments args ∧ args.getLast? = some (.table r)) ∨
      ∃ a es, subject = .value (.array a) ∧ rt.Reaches (.array a) ∧ rt.elements? a = some es ∧
        es.back? = some (.table r) := by
  obtain ⟨last, available⟩ := ends
  unfold last? at last
  split at last
  next args => exact .inl ⟨args, rfl, last⟩
  next a =>
    obtain ⟨es, listed, back⟩ := Option.bind_eq_some_iff.mp last
    exact .inr ⟨a, es, rfl, (available _ (List.mem_singleton.mpr rfl)).reaches, listed, back⟩
  next => cases last

theorem reaches (ends : subject.EndsIn rt r) : rt.Reaches (.table r) := by
  obtain ⟨args, rfl, last⟩ | ⟨a, es, -, reached, listed, back⟩ := ends.cases
  · exact (ends.available _ (List.mem_of_getLast? last)).reaches
  · obtain ⟨cls, found⟩ := Runtime.elements?_eq_some.mp listed
    exact .child reached found (List.mem_cons_of_mem _ (Array.mem_toList_iff.mpr
      (Array.mem_of_back? back)))

theorem later (ends : subject.EndsIn rt r) (draws : rt.Draws rt') : subject.EndsIn rt' r := by
  refine ⟨?_, fun v member => draws.available (ends.available v member)⟩
  obtain ⟨args, rfl, last⟩ | ⟨a, es, rfl, reached, listed, back⟩ := ends.cases
  · exact last
  · simp only [last?, draws.elements a es reached listed, Option.bind_some, back]

theorem level_eq (ends : subject.EndsIn rt r) (draws : rt.Draws rt') :
    subject.level rt' = subject.level rt := by
  obtain ⟨args, rfl, -⟩ | ⟨a, es, rfl, reached, listed, -⟩ := ends.cases
  · rfl
  · simp only [level, Level.ofVal, draws.elements a es reached listed, listed]

/-- A path of one index does not lead into the table, whatever is left in it. -/
theorem bind_eq (ends : subject.EndsIn rt r) (draws : rt.Draws rt') (s : Shape) (index : Int)
    (default : Val) : s.bind rt' subject [index] default = s.bind rt subject [index] default := by
  simp only [Shape.bind, List.getLast?_singleton, List.dropLast_singleton, descend, List.foldlM_nil,
    ends.level_eq draws]

theorem splatElements_eq (ends : subject.EndsIn rt r) (draws : rt.Draws rt') (s : Shape)
    (start : Int) : s.splatElements rt' subject [start] = s.splatElements rt subject [start] := by
  simp only [Shape.splatElements, List.getLast?_singleton, List.dropLast_singleton, descend,
    List.foldlM_nil, ends.level_eq draws]

end Subject.EndsIn

/-! ## Single requests -/

namespace Machine
variable {η α : Type} {caller : Caller η} {unwinding : Bool} {rt rt' left : Runtime} {host : η}
  {s : Shape} {subject : Subject} {r : Ref} {t : Table Val Val} {name : Sym} {default : Option Val}

section
variable (takes : s.takesKeywords = true) (last : subject.last? rt = some (.table r))
  (held : rt.entries? r = some t)
include takes last held

theorem step_bindKeyword_found {v : Val} (found : t.get? (.sym name) = some v) :
    step caller unwinding (Program.bindKeyword s subject name default) rt host =
      .ended (.value v) (rt.takeOut r name v) host := by
  have erased : (Action.erase r (.sym name)).run rt =
      (some v, rt.modifyEntries r (·.erase (.sym name))) := by
    rw [Action.run, held, Option.bind_some, found]
  unfold Program.bindKeyword
  simp only [Bind.bind, Program.bind, Program.asks, step, takes, if_true, last, Program.perform, erased]
  rfl

theorem step_bindKeyword_unfound (absent : t.get? (.sym name) = none) :
    step caller unwinding (Program.bindKeyword s subject name default) rt host =
      .ended (Request.unfound rt name default) rt host := by
  have erased : (Action.erase r (.sym name)).run rt = (none, rt) := by
    rw [Action.run, held, Option.bind_some, absent, Runtime.erase_nothing held absent]
  unfold Program.bindKeyword
  simp only [Bind.bind, Program.bind, Program.asks, step, takes, if_true, last, Program.perform,
    erased]
  cases default with
  | none => rfl
  | some v => rfl

end

end Machine

/-! ## Series of requests -/

namespace Request
variable {η : Type} {s : Shape} {subject : Subject} {rt mid left : Runtime} {r : Ref}
  {t : Table Val Val} {q : Request} {requests : List Request} {answer : Outcome Val}
  {answers : List (Outcome Val)}

/-- What a series of requests does: all are answered, what they take out of the table is gone from
it, and is held. -/
structure Served (s : Shape) (subject : Subject) (r : Ref) (t : Table Val Val) (rt left : Runtime)
    (requests : List Request) (answers : List (Outcome Val)) : Prop where
  draws : rt.Draws left
  answered : List.Forall₂ (Answered s subject rt left t) requests answers
  entries : left.entries? r = some (t.without (keys requests))
  held : ∀ name k a, .sym name ∈ keys requests → (.sym name, .cell k a) ∈ t.entries →
    .cell k a ∈ left.handles

theorem keys_cons (q : Request) (requests : List Request) :
    keys (q :: requests) = keys [q] ++ keys requests :=
  List.filterMap_append (l := [q])

theorem unfound_congr (same : mid.symbols = rt.symbols) (name : Sym) (default : Option Val) :
    Request.unfound mid name default = Request.unfound rt name default := by
  unfold Request.unfound Runtime.symName
  rw [same]

/-- What was collected by an earlier request stays as it is. -/
theorem Answered.later (answered : Answered s subject rt mid t q answer) (draws : mid.Draws left) :
    Answered s subject rt left t q answer := by
  cases answered with
  | found default present => exact .found default present
  | unfound default absent => exact .unfound default absent
  | positional index default => exact .positional index default
  | splat start held collected =>
    exact .splat start (draws.mem_handles held)
      (draws.elements _ _ (Runtime.Root.handle held).reaches collected)
  | collect => exact .collect

/-- What is answered after some keywords were taken is what would have been answered before. -/
theorem Answered.earlier {taken : List Val} (ends : subject.EndsIn rt r) (draws : rt.Draws mid)
    (apart : ∀ key ∈ q.key?, key ∉ taken)
    (answered : Answered s subject mid left (t.without taken) q answer) :
    Answered s subject rt left t q answer := by
  cases answered with
  | found default present => exact .found default (Table.mem_without.mp present).1
  | unfound default absent =>
    rw [unfound_congr draws.symbols]
    exact .unfound default fun v member =>
      absent v (Table.mem_without.mpr ⟨member, apart _ rfl⟩)
  | positional index default =>
    rw [ends.bind_eq draws]
    exact .positional index default
  | splat start held collected =>
    rw [ends.splatElements_eq draws] at collected
    exact .splat start held collected
  | collect => exact .collect

theorem Served.nil (held : rt.entries? r = some t) : Served s subject r t rt rt [] [] where
  draws := .refl rt
  answered := .nil
  entries := by rw [held]; exact congrArg some t.without_nil.symm
  held _ _ _ member := nomatch member

/-- A request that takes nothing. -/
theorem Served.aside (none : q.key? = none) (draws : rt.Draws left)
    (answered : Answered s subject rt left t q answer) (same : left.entries? r = some t) :
    Served s subject r t rt left [q] [answer] := by
  have nothing : keys [q] = [] := by simp [keys, none]
  refine ⟨draws, .cons answered .nil, ?_, fun name k a member => ?_⟩
  · rw [same, nothing, Table.without_nil]
  · rw [nothing] at member
    cases member

theorem Served.cons (ends : subject.EndsIn rt r)
    (first : Served s subject r t rt mid [q] [answer])
    (rest : Served s subject r (t.without (keys [q])) mid left requests answers)
    (distinct : (keys (q :: requests)).Nodup) :
    Served s subject r t rt left (q :: requests) (answer :: answers) := by
  rw [keys_cons, List.nodup_append] at distinct
  have apart (key : Val) (later : key ∈ keys requests) : key ∉ keys [q] := fun before =>
    distinct.2.2 key before key later rfl
  refine ⟨first.draws.trans rest.draws, ?answered, ?entries, fun name k a member entry => ?held⟩
  case answered =>
    cases first.answered with
    | cons now _ =>
      refine .cons (now.later rest.draws) ?_
      have fresh : ∀ q' ∈ requests, ∀ key ∈ q'.key?, key ∉ keys [q] := fun q' member key here =>
        apart key (List.mem_filterMap.mpr ⟨q', member, here⟩)
      exact ((List.forall₂_and_left ..).mpr ⟨fresh, rest.answered⟩).imp
        fun q' answer both => both.2.earlier ends first.draws both.1
  case entries => rw [rest.entries, Table.without_append, ← keys_cons]
  case held =>
    rw [keys_cons, List.mem_append] at member
    rcases member with now | later
    · exact rest.draws.mem_handles (first.held name k a now entry)
    · exact rest.held name k a later (Table.mem_without.mpr ⟨entry, apart _ later⟩)

/-- What was held, or was under a key, is held and there. -/
theorem Served.keeps (served : Served s subject r t rt left requests answers) (sound : rt.Sound)
    (ends : subject.EndsIn rt r) (held : rt.entries? r = some t) {k : Kind} {a : Ref}
    (kept : .cell k a ∈ rt.handles ∨
      ∃ name, .sym name ∈ keys requests ∧ (.sym name, .cell k a) ∈ t.entries) :
    .cell k a ∈ left.handles ∧ left.heap.isLive a := by
  have reached : rt.Reaches (.cell k a) := by
    rcases kept with before | ⟨name, -, entry⟩
    · exact (Runtime.Root.handle before).reaches
    · obtain ⟨cls, found⟩ := Runtime.entries?_eq_some.mp held
      refine .child ends.reaches found (List.mem_cons_of_mem _ ?_)
      exact List.mem_flatMap.mpr ⟨_, entry, by simp⟩
  refine ⟨?_, served.draws.live k a reached (Heap.isLive_of_holds (sound.holds reached))⟩
  rcases kept with before | ⟨name, asked, entry⟩
  · exact served.draws.mem_handles before
  · exact served.held name k a asked entry

end Request

namespace Machine
variable {η α : Type} {caller : Caller η} {unwinding : Bool} {rt rt' left : Runtime} {host : η}
  {s : Shape} {subject : Subject} {r : Ref} {t : Table Val Val}

section
variable (takes : s.takesKeywords = true)
include takes

theorem step_keyword (caller : Caller η) (unwinding : Bool) (host : η) (ends : subject.EndsIn rt r)
    (held : rt.entries? r = some t) (nodup : t.keys.Nodup) (name : Sym) (default : Option Val) :
    ∃ answer left, step caller unwinding (Program.bindKeyword s subject name default) rt host =
        .ended answer left host ∧
      Request.Served s subject r t rt left [.keyword name default] [answer] := by
  have shrunk : t.erase (.sym name) = t.without (Request.keys [.keyword name default]) :=
    Table.erase_eq_without nodup (.sym name)
  cases found : t.get? (.sym name) with
  | some v =>
    refine ⟨.value v, rt.takeOut r name v, step_bindKeyword_found takes ends.last held found,
      Runtime.draws_takeOut held found, ?_, ?_, fun name' k a member entry => ?_⟩
    · exact .cons (.found default (Table.mem_of_find found)) .nil
    · rw [Runtime.entries?_takeOut held, shrunk]
    · cases List.mem_singleton.mp member
      cases found.symm.trans ((Table.find_eq_some_iff nodup).mpr entry)
      exact Runtime.held_hold _ k a
  | none =>
    have absent := Table.find_eq_none_iff.mp found
    refine ⟨Request.unfound rt name default, rt, step_bindKeyword_unfound takes ends.last held found,
      .refl rt, ?_, ?_, fun name' k a member entry => ?_⟩
    · exact .cons (.unfound default absent) .nil
    · rw [held, ← shrunk, Table.erase_of_absent found]
    · cases List.mem_singleton.mp member
      exact absurd entry (absent _)

theorem step_request (caller : Caller η) (unwinding : Bool) (host : η) (wf : rt.heap.WellFormed)
    (ends : subject.EndsIn rt r) (held : rt.entries? r = some t) (nodup : t.keys.Nodup)
    (q : Request) :
    ∃ answer left, step caller unwinding (q.program s subject) rt host =
        .ended answer left host ∧ Request.Served s subject r t rt left [q] [answer] := by
  cases q with
  | keyword name default => exact step_keyword takes caller unwinding host ends held nodup name default
  | positional index default =>
    exact ⟨_, rt, rfl, .aside rfl (.refl rt) (.positional index default) held⟩
  | splat start =>
    let elements := s.splatElements rt subject [start]
    let made := rt.alloc (.array CoreClass.array.ref elements.toArray)
    have kept : Runtime.Shelters rt made.2 := (Runtime.Shelters.refl wf).alloc _
    have collected : made.2.elements? made.1 = some elements.toArray :=
      Runtime.elements?_eq_some.mpr ⟨_, Runtime.cell?_alloc_self wf _⟩
    exact ⟨.value (.array made.1), made.2, rfl, .aside rfl (Runtime.draws_alloc wf _ _)
      (.splat start (Runtime.alloc_held rt _) collected) (kept.entries ends.reaches held)⟩
  | collect =>
    have kept : Runtime.Shelters rt rt.collect := (Runtime.Shelters.refl wf).collect
    exact ⟨.value .nil, rt.collect, rfl, .aside rfl (Runtime.draws_collect wf) .collect
      (kept.entries ends.reaches held)⟩

/-- By induction on the requests: each finds the table without what those before it have taken. -/
theorem step_serve (caller : Caller η) (unwinding : Bool) (host : η) (wf : rt.heap.WellFormed)
    (ends : subject.EndsIn rt r) (held : rt.entries? r = some t) (nodup : t.keys.Nodup)
    {requests : List Request} (distinct : (Request.keys requests).Nodup) :
    ∃ answers left, step caller unwinding (Request.serve s subject requests) rt host =
        .ended (.value answers) left host ∧
      Request.Served s subject r t rt left requests answers := by
  induction requests generalizing rt t with
  | nil => exact ⟨[], rt, rfl, .nil held⟩
  | cons q rest ih =>
    obtain ⟨answer, mid, ran, first⟩ :=
      step_request takes caller unwinding host wf ends held nodup q
    have later : (Request.keys rest).Nodup := by
      rw [Request.keys_cons] at distinct
      exact (List.nodup_append.mp distinct).2.1
    obtain ⟨answers, left, went, served⟩ := ih (first.draws.heap wf) (ends.later first.draws)
      first.entries (Table.nodup_without nodup _) later
    refine ⟨answer :: answers, left, ?_, first.cons ends served distinct⟩
    change step caller unwinding ((q.program s subject).attempt.bind fun answer =>
      (Request.serve s subject rest).bind fun answers => .done (.value (answer :: answers))) rt host = _
    rw [step_attempt, ran, Run.andThen, Program.bind_eq_attempt, step_attempt, went]
    rfl

end

/-- What was under a key is there while the rest of a call or a scope runs, whatever it runs. -/
theorem taken_stays (code : CodeRef → Code η) (budget : Nat) (wf : left.heap.WellFormed) {k : Kind}
    {a : Ref} (held : .cell k a ∈ left.handles) (live : left.heap.isLive a) (rest : Program η α)
    (firm : ¬ (left.atTopLevel = true ∧ LetsGo (call code budget) unwinding rest left host)) :
    ∀ m ∈ trace (call code budget) (course code budget) unwinding rest left host,
      .cell k a ∈ m.rt.handles ∧ m.rt.heap.isLive a := by
  have retained (m : Moment)
      (member : m ∈ trace (call code budget) (course code budget) unwinding rest left host) :
      .cell k a ∈ m.rt.handles :=
    (trace_retains (call_retains code budget) (course_retains code budget) rest unwinding left host
      m member).mem_handles firm held
  have there := isLive_while code budget rest wf
    (fun m member => (Runtime.Root.handle (retained m member)).reaches) live
  exact fun m member => ⟨retained m member, there m member⟩

/-- Keywords are taken out of the table of a call one by one, whatever their order and whatever else
is asked in between. Each that is there has its value, and each that is not has its default or is
missing, which leaves the runtime as it is. Parameters and splats are bound as they would have been
at the start. What is left is the rest of the table. Cells that were taken out of it are held, beside
what was held before, and stay there, whatever runs in the rest of the call or the scope: to where an
ensure unwinds that they were taken in, or else to the end of what the call or scope runs. -/
theorem keywords_are_taken (code : CodeRef → Code η) (budget : Nat) (unwinding : Bool) (host : η)
    (enabled : s.keywords = true) (calling : s.source = .callArguments) (sound : rt.Sound)
    (ends : subject.EndsIn rt r) (held : rt.entries? r = some t) (built : t.Built)
    {requests : List Request} (distinct : (Request.keys requests).Nodup) :
    ∃ answers left,
      step (call code budget) unwinding (Request.serve s subject requests) rt host =
        .ended (.value answers) left host ∧
      List.Forall₂ (Request.Answered s subject rt left t) requests answers ∧
      left.entries? r = some (t.without (Request.keys requests)) ∧
      (∀ name default, (∀ v, (.sym name, v) ∉ (t.without (Request.keys requests)).entries) →
        step (call code budget) unwinding (Program.bindKeyword s subject name default) left host =
          .ended (Request.unfound rt name default) left host) ∧
      ∀ k a, (.cell k a ∈ rt.handles ∨
          ∃ name, .sym name ∈ Request.keys requests ∧ (.sym name, .cell k a) ∈ t.entries) →
        (∀ {α : Type} (rest : Program η α),
          ¬ (rt.atTopLevel = true ∧ LetsGo (call code budget) unwinding rest left host) →
          ∀ m ∈ trace (call code budget) (course code budget) unwinding rest left host,
            .cell k a ∈ m.rt.handles ∧ m.rt.heap.isLive a) ∧
        ∀ {α β : Type} (p : Program η α) (f : List (Outcome Val) → Program η β) (outer whole : Bool)
          (start : Runtime) (host₀ : η) (later : List Moment), rt.atTopLevel = false →
          Arrives (call code budget) (course code budget) unwinding
            (Request.serve s subject requests >>= f) rt host outer p start host₀ later whole →
          let rest := trace (call code budget) (course code budget) unwinding (f answers) left host ++
            later
          (∃ before more, trace (call code budget) (course code budget) outer p start host₀ =
            before ++ rest ++ more ∧ (whole = true → more = [])) ∧
          ∀ m ∈ rest, .cell k a ∈ m.rt.handles ∧ m.rt.heap.isLive a := by
  have takes : s.takesKeywords = true := by simp [Shape.takesKeywords, enabled, calling]
  obtain ⟨answers, left, ran, served⟩ := step_serve takes (call code budget) unwinding host
    sound.heap ends held built.nodup distinct
  refine ⟨answers, left, ran, served.answered, served.entries, fun name default absent => ?unfound,
    fun k a kept => ?stays⟩
  case unfound =>
    rw [step_bindKeyword_unfound takes (ends.later served.draws).last served.entries
      (Table.find_eq_none_iff.mpr absent), Request.unfound_congr served.draws.symbols]
  case stays =>
    obtain ⟨holding, live⟩ := served.keeps sound ends held kept
    have wf := served.draws.heap sound.heap
    refine ⟨fun rest firm => ?_, fun p f outer whole start host₀ later inside arrives => ?_⟩
    · rw [← served.draws.atTopLevel] at firm
      exact taken_stays code budget wf holding live rest firm
    · have keeps : Keeps [.cell k a] left := {
        heap := wf
        inside := served.draws.atTopLevel.trans inside
        held := List.forall_mem_singleton.mpr holding
        live := List.forall_mem_singleton.mpr live }
      obtain ⟨course, always⟩ := keeps.lasts ran arrives
      exact ⟨course, fun m member => always m member _ (List.mem_singleton.mpr rfl)⟩

/-- A table with a string that nothing else keeps. -/
def keywordsGiven : List Move :=
  [.enterScope, .enterScope, .act (.newTable CoreClass.hash.ref),
   .act (.newString CoreClass.string.ref "kept"),
   .act (.insert ⟨38, 0⟩ (.sym .name) (.string ⟨39, 0⟩)),
   .act (.insert ⟨38, 0⟩ (.sym .arity) (.int 2)), .act (.insert ⟨38, 0⟩ (.sym .owner) .nil),
   .leaveScope 0 (.value (.table ⟨38, 0⟩))]

def keywordsAsked : List Request :=
  [.splat 0, .keyword .arity none, .collect, .keyword .name (some .nil), .positional 0 .nil,
   .keyword .method none]

theorem permits_keywordsGiven : (Runtime.boot {}).PermitsRun keywordsGiven := by
  have held {rt : Runtime} {α : Type} {action : Action α}
      (each : ∀ v ∈ action.given, v.isImmediate = true ∨ v ∈ rt.handles)
      (captured : action.captured = none) : rt.Permits action :=
    ⟨fun v member => (each v member).imp_right fun held => (Runtime.Root.handle held).reaches,
      fun i same => nomatch captured.symm.trans same⟩
  refine ⟨trivial, trivial, .of_roots (List.forall_mem_singleton.mpr (.core .hash (by decide))) rfl,
    .of_roots (List.forall_mem_singleton.mpr (.core .string (by decide))) rfl, held ?_ rfl,
    held ?_ rfl, held ?_ rfl, fun v same => ?_, trivial⟩
  · decide +kernel
  · decide +kernel
  · decide +kernel
  · cases same
    exact (Runtime.Root.handle (by decide +kernel)).available

def givenShape : Shape := { source := .callArguments, splat := true, keywords := true }

def givenArguments : Subject := .arguments [.int 5, .table ⟨38, 0⟩]

def asking : Program Unit Val :=
  Request.serve givenShape givenArguments keywordsAsked >>= fun _ => pure .nil

/-- The requests are made in an ensure, and its cleanup collects. -/
def askingGuarded : Program Unit Val := .withCleanup asking collecting

theorem given_keywords_are_taken :
    let rt := (Runtime.boot {}).after keywordsGiven
    ((Runtime.boot {}).PermitsRun keywordsGiven ∧ givenArguments.EndsIn rt ⟨38, 0⟩) ∧
      ∃ answers left,
        step (call silent 8) false (Request.serve givenShape givenArguments keywordsAsked) rt () =
          .ended (.value answers) left () ∧
        left.entries? ⟨38, 0⟩ = some ⟨[(.sym .owner, .nil)]⟩ ∧
        (∀ m ∈ trace (call silent 8) (course silent 8) false collecting left (),
          m.rt.heap.isLive ⟨39, 0⟩) ∧
        ∃ before rest, trace (call silent 8) (course silent 8) false askingGuarded rt () =
          before ++ rest ∧ rest.length = 4 ∧ ∀ m ∈ rest, m.rt.heap.isLive ⟨39, 0⟩ := by
  intro rt
  let t : Table Val Val :=
    ((({} : Table Val Val).insert (.sym .name) (.string ⟨39, 0⟩)).insert (.sym .arity)
      (.int 2)).insert (.sym .owner) .nil
  have held : rt.entries? ⟨38, 0⟩ = some t := by decide +kernel
  have built : t.Built := ((Table.Built.empty.insert _ _).insert _ _).insert _ _
  have ends : givenArguments.EndsIn rt ⟨38, 0⟩ := by
    refine ⟨rfl, fun v member => ?_⟩
    rcases List.mem_cons.mp member with rfl | last
    · exact .inl rfl
    · rw [List.mem_singleton.mp last]
      exact (Runtime.Root.handle (by decide +kernel)).available
  have sound := ((Runtime.intact_boot {}).after permits_keywordsGiven).sound
  have distinct : (Request.keys keywordsAsked).Nodup := by decide
  obtain ⟨answers, left, ran, -, entries, -, stays⟩ :=
    keywords_are_taken (s := givenShape) silent 8 false () rfl rfl sound ends held built distinct
  have inside : rt.atTopLevel = false := by decide +kernel
  have taken : .sym .name ∈ Request.keys keywordsAsked ∧
      (.sym .name, .string ⟨39, 0⟩) ∈ t.entries := by decide
  obtain ⟨next, behind⟩ := stays .string ⟨39, 0⟩ (.inr ⟨.name, taken⟩)
  refine ⟨⟨permits_keywordsGiven, ends⟩, answers, left, ran, entries.trans ?_, fun m member => ?_, ?_⟩
  · decide +kernel
  · exact (next collecting (fun loose => nomatch inside.symm.trans loose.1) m member).2
  · let after (_ : List (Outcome Val)) : Program Unit Val := pure .nil
    have ended : step (call silent 8) false asking rt () = .ended (.value .nil) left () :=
      ((goesOn_of_ended ran).bind after).step_eq
    have arrives : Arrives (call silent 8) (course silent 8) false asking rt () false askingGuarded
      rt () _ _ := .body .here .done
    obtain ⟨⟨before, more, course, all⟩, always⟩ := behind askingGuarded after false _ rt () _
      inside arrives
    rw [ended] at course all always
    rw [all rfl, List.append_nil] at course
    exact ⟨before, _, course, rfl, fun m member => (always m member).2⟩

/-- What was taken in the body of an ensure is gone when the body panicked, before the scope around it
is left. -/
theorem unwound_keyword_is_freed :
    let rt := (Runtime.boot {}).after keywordsGiven
    let taking : Program Unit Val := Program.bindKeyword givenShape givenArguments .name none
    (answered (step (call silent 8) false taking rt ())).map
        (fun ended => (ended.1, ended.2.isLive ended.1)) = some (.string ⟨39, 0⟩, true) ∧
      (answered (step (call silent 8) false (seekingBehind taking (.string ⟨39, 0⟩)) rt ())).map
        (fun ended => (ended.1, ended.2.scopes)) = some (.bool false, rt.scopes) := by
  decide +kernel

end Machine
end ObjectRuntime
