import ObjectRuntime.Conversion
import ObjectRuntime.Proofs.Lasting
import ObjectRuntime.Proofs.Names

/-! Converted data. The value of host data is made from the inside out, by allocations each of which
may collect. Every cell of it is held from its allocation on, up to the end of the call or scope that
it is made in, unless something unwinds. -/

namespace ObjectRuntime

mutual

/-- The value has the shape of the datum, with options flattened. It is made of the listed cells,
each behind those inside of it. -/
inductive Depicts (rt : Runtime) : Datum → Val → List Val → Prop
  | unit : Depicts rt .unit .nil []
  | bool (b : Bool) : Depicts rt (.bool b) (.bool b) []
  | int (n : Int64) : Depicts rt (.int n) (.int n) []
  | float {x : Float} {r : Ref} (found : rt.heap.cell? r = some (.float x)) :
      Depicts rt (.float x) (.float r) [.float r]
  | text {s : String} {r : Ref} (found : rt.heap.cell? r = some (.string CoreClass.string.ref s)) :
      Depicts rt (.text s) (.string r) [.string r]
  | symbol {name : String} {s : Sym} (interned : rt.symbols.ids.get? name = some s.id)
      (named : rt.symbols.names[s.id]? = some name) : Depicts rt (.symbol name) (.sym s) []
  | none : Depicts rt (.option none) .nil []
  | some {d : Datum} {v : Val} {parts : List Val} (inner : Depicts rt d v parts) :
      Depicts rt (.option (some d)) v parts
  | list {ds : List Datum} {vs parts : List Val} {r : Ref} (elements : DepictsAll rt ds vs parts)
      (found : rt.heap.cell? r = some (.array CoreClass.array.ref vs.toArray)) :
      Depicts rt (.list ds) (.array r) (parts ++ [.array r])

inductive DepictsAll (rt : Runtime) : List Datum → List Val → List Val → Prop
  | nil : DepictsAll rt [] [] []
  | cons {d : Datum} {ds : List Datum} {v : Val} {vs parts rest : List Val}
      (first : Depicts rt d v parts) (others : DepictsAll rt ds vs rest) :
      DepictsAll rt (d :: ds) (v :: vs) (parts ++ rest)

end

namespace Runtime

/-- The parts were made, and are held behind what was held before. What was held is as it was. -/
structure Builds (rt rt' : Runtime) (parts : List Val) : Prop where
  heap : rt'.heap.WellFormed
  handles : rt'.handles = rt.handles ++ parts.toArray
  cells : ∀ k r c, .cell k r ∈ rt.handles → rt.heap.cell? r = some c → rt'.heap.cell? r = some c
  names : Interns rt rt'

variable {rt rt' rt'' : Runtime} {parts more : List Val}

namespace Builds

theorem refl (wf : rt.heap.WellFormed) : Builds rt rt [] :=
  ⟨wf, by simp, fun _ _ _ _ => id, .refl rt⟩

theorem mem_handles (builds : Builds rt rt' parts) {v : Val} (held : v ∈ rt.handles) :
    v ∈ rt'.handles := by
  rw [builds.handles]
  exact Array.mem_append.mpr (.inl held)

theorem held (builds : Builds rt rt' parts) {v : Val} (part : v ∈ parts) : v ∈ rt'.handles := by
  rw [builds.handles]
  exact Array.mem_append.mpr (.inr (List.mem_toArray.mpr part))

theorem trans (first : Builds rt rt' parts) (second : Builds rt' rt'' more) :
    Builds rt rt'' (parts ++ more) where
  heap := second.heap
  handles := by simp [second.handles, first.handles]
  cells k r c held found := second.cells k r c (first.mem_handles held) (first.cells k r c held found)
  names := first.names.trans second.names

/-- A cell that is made is held, and a collection before it takes nothing that is. -/
theorem alloc (wf : rt.heap.WellFormed) (c : Cell) :
    Builds rt (rt.alloc c).2 [.cell c.kind (rt.alloc c).1] where
  heap := (Extends.alloc rt c).heap wf
  handles := by
    rw [alloc_eq]
    simp [Runtime.place, handles_room]
  cells k r c' held found := by
    rw [← cell?_room (Root.handle held).reaches] at found
    exact cell?_place_of_found (wellFormed_room wf) c found
  names := .alloc rt c

theorem intern (wf : rt.heap.WellFormed) (name : String) : Builds rt (rt.intern name).2 [] where
  heap := wf
  handles := by simp [Runtime.intern]
  cells _ _ _ _ := id
  names := .intern rt name

end Builds

end Runtime

/-! ## What has been made stays as it is -/

section
variable {rt rt' : Runtime} {more : List Val}

mutual

theorem Depicts.builds {d : Datum} {v : Val} {parts : List Val} (depicts : Depicts rt d v parts)
    (builds : rt.Builds rt' more) (held : ∀ w ∈ parts, w ∈ rt.handles) : Depicts rt' d v parts := by
  cases depicts with
  | unit => exact .unit
  | bool b => exact .bool b
  | int n => exact .int n
  | float found => exact .float (builds.cells _ _ _ (held _ (List.mem_singleton.mpr rfl)) found)
  | text found => exact .text (builds.cells _ _ _ (held _ (List.mem_singleton.mpr rfl)) found)
  | symbol interned named => exact .symbol (builds.names.ids _ _ interned) (builds.names.names _ _ named)
  | none => exact .none
  | some inner => exact .some (Depicts.builds inner builds held)
  | list elements found =>
    obtain ⟨inner, last⟩ := List.forall_mem_append.mp held
    exact .list (DepictsAll.builds elements builds inner)
      (builds.cells _ _ _ (last _ (List.mem_singleton.mpr rfl)) found)

theorem DepictsAll.builds {ds : List Datum} {vs parts : List Val} (depicts : DepictsAll rt ds vs parts)
    (builds : rt.Builds rt' more) (held : ∀ w ∈ parts, w ∈ rt.handles) :
    DepictsAll rt' ds vs parts := by
  cases depicts with
  | nil => exact .nil
  | cons first others =>
    obtain ⟨front, behind⟩ := List.forall_mem_append.mp held
    exact .cons (Depicts.builds first builds front) (DepictsAll.builds others builds behind)

end

mutual

theorem Depicts.isLive {d : Datum} {v : Val} {parts : List Val} (depicts : Depicts rt d v parts) :
    ∀ w ∈ parts, rt.isLive w := by
  have there {k : Kind} {r : Ref} {c : Cell} (found : rt.heap.cell? r = some c) :
      rt.isLive (.cell k r) := (Heap.isLive_iff ..).mpr ⟨c, found⟩
  cases depicts with
  | float found => exact List.forall_mem_singleton.mpr (there found)
  | text found => exact List.forall_mem_singleton.mpr (there found)
  | some inner => exact Depicts.isLive inner
  | list elements found =>
    exact List.forall_mem_append.mpr
      ⟨DepictsAll.isLive elements, List.forall_mem_singleton.mpr (there found)⟩
  | _ => exact fun _ member => nomatch member

theorem DepictsAll.isLive {ds : List Datum} {vs parts : List Val} (depicts : DepictsAll rt ds vs parts) :
    ∀ w ∈ parts, rt.isLive w := by
  cases depicts with
  | nil => exact fun _ member => nomatch member
  | cons first others => exact List.forall_mem_append.mpr ⟨Depicts.isLive first, DepictsAll.isLive others⟩

end

end

/-! ## Making -/

namespace Machine
variable {η α β : Type} {caller : Caller η} {unwinding : Bool}

/-- A program that makes a cell, and answers with it. -/
theorem makes_goes (action : Action Ref) {rt : Runtime} {c : Cell} (made : ∀ rt, action.run rt = rt.alloc c)
    (wf : rt.heap.WellFormed) (answer : Ref → Val) (host : η) :
    ∃ r left, GoesOn caller unwinding (Program.perform action >>= fun r => pure (answer r)) rt host
        (.done (.value (answer r))) left host ∧
      left.heap.cell? r = some c ∧ rt.Builds left [.cell c.kind r] := by
  refine ⟨(rt.alloc c).1, (rt.alloc c).2, ?_, Runtime.cell?_alloc_self wf c, .alloc wf c⟩
  have goes : Goes caller unwinding (Program.perform action >>= fun r => pure (answer r)) rt host
      _ _ _ := .act action (fun r => .done (.value (answer r))) rt host
  rw [made] at goes
  exact .head goes (.refl ..)

mutual

/-- Data converts from the inside out, each part behind those inside of it. -/
theorem ofDatum_goes {rt : Runtime} (d : Datum) (wf : rt.heap.WellFormed)
    (faithful : rt.symbols.Faithful) (host : η) :
    ∃ v parts left, GoesOn caller unwinding (Program.ofDatum d) rt host (.done (.value v)) left host ∧
      Depicts left d v parts ∧ rt.Builds left parts := by
  cases d with
  | unit => exact ⟨_, _, rt, .refl .., .unit, .refl wf⟩
  | bool b => exact ⟨_, _, rt, .refl .., .bool b, .refl wf⟩
  | int n => exact ⟨_, _, rt, .refl .., .int n, .refl wf⟩
  | float x =>
    obtain ⟨r, left, goes, found, builds⟩ :=
      makes_goes (.newFloat x) (fun _ => rfl) wf .float host
    exact ⟨_, _, left, goes, .float found, builds⟩
  | text s =>
    obtain ⟨r, left, goes, found, builds⟩ :=
      makes_goes (.newString CoreClass.string.ref s) (fun _ => rfl) wf .string host
    exact ⟨_, _, left, goes, .text found, builds⟩
  | symbol name =>
    have interned := Runtime.interned_intern faithful name
    exact ⟨_, _, (rt.intern name).2, .head (.act (.intern name) _ rt host) (.refl ..),
      .symbol interned.1 interned.2, .intern wf name⟩
  | option o =>
    cases o with
    | none => exact ⟨_, _, rt, .refl .., .none, .refl wf⟩
    | some d =>
      obtain ⟨v, parts, left, goes, depicts, builds⟩ := ofDatum_goes d wf faithful host
      exact ⟨v, parts, left, goes, .some depicts, builds⟩
  | list ds =>
    obtain ⟨vs, parts, inner, goes, depicts, builds⟩ := ofData_goes ds wf faithful host
    obtain ⟨r, left, goes', found, builds'⟩ :=
      makes_goes (.newArray CoreClass.array.ref vs) (fun _ => rfl) builds.heap .array host
    exact ⟨_, _, left, (goes.bind _).trans goes',
      .list (depicts.builds builds' fun w => builds.held) found, builds.trans builds'⟩

theorem ofData_goes {rt : Runtime} (ds : List Datum) (wf : rt.heap.WellFormed)
    (faithful : rt.symbols.Faithful) (host : η) :
    ∃ vs parts left, GoesOn caller unwinding (Program.ofData ds) rt host (.done (.value vs)) left host ∧
      DepictsAll left ds vs parts ∧ rt.Builds left parts := by
  cases ds with
  | nil => exact ⟨_, _, rt, .refl .., .nil, .refl wf⟩
  | cons d ds =>
    obtain ⟨v, parts, mid, goes, depicts, builds⟩ := ofDatum_goes d wf faithful host
    obtain ⟨vs, rest, left, goes', depicts', builds'⟩ :=
      ofData_goes ds builds.heap (builds.names.faithful faithful) host
    exact ⟨_, _, left, (goes.bind _).trans (goes'.bind _),
      .cons (depicts.builds builds' fun w => builds.held) depicts', builds.trans builds'⟩

end

/-! ## Lasting -/

/-- In every state of heap and symbols, whatever threshold makes it collect, data converts to a value
that depicts it. The cells of that value are held behind all others, and are there. When that is
inside of a call or scope, they are held and there at every later moment: to where an ensure unwinds
that the conversion is inside of, or else to the end of the program that the call or scope runs. -/
theorem converted_data_lasts (code : CodeRef → Code η) (budget : Nat) (inner : Bool) (d : Datum)
    (there : Runtime) (host₁ : η) (wf : there.heap.WellFormed) (faithful : there.symbols.Faithful) :
    ∃ v parts left,
      step (call code budget) inner (Program.ofDatum d) there host₁ = .ended (.value v) left host₁ ∧
      Depicts left d v parts ∧ left.handles = there.handles ++ parts.toArray ∧
      (∀ w ∈ parts, left.isLive w) ∧
      ∀ {α β : Type} (p : Program η α) (f : Val → Program η β) (unwinding whole : Bool) (rt : Runtime)
        (host : η) (later : List Moment), there.atTopLevel = false →
        Arrives (call code budget) (course code budget) inner (Program.ofDatum d >>= f) there host₁
          unwinding p rt host later whole →
        let rest := trace (call code budget) (course code budget) inner (f v) left host₁ ++ later
        (∃ before more, trace (call code budget) (course code budget) unwinding p rt host =
          before ++ rest ++ more ∧ (whole = true → more = [])) ∧
        ∀ m ∈ rest, ∀ w ∈ parts, w ∈ m.rt.handles ∧ m.rt.isLive w := by
  obtain ⟨v, parts, left, goes, depicts, builds⟩ : ∃ v parts left,
      GoesOn (call code budget) inner (Program.ofDatum d) there host₁ (.done (.value v)) left host₁ ∧
        Depicts left d v parts ∧ there.Builds left parts := ofDatum_goes d wf faithful host₁
  refine ⟨v, parts, left, goes.step_eq, depicts, builds.handles, depicts.isLive, ?_⟩
  intro α β p f unwinding whole rt host later inside arrives
  have keeps : Keeps parts left := {
    heap := builds.heap
    inside := (step_retains (call_retains code budget) _ goes.step_eq).toStandsOn.inside inside
    held := fun w => builds.held
    live := depicts.isLive }
  exact keeps.lasts goes.step_eq arrives

/-- The list of a list of a text, nothing, and another text. -/
def nestedTexts : Datum :=
  .list [.list [.text "a"], .option none, .option (some (.text "b"))]

/-- A scope on a heap that has room for two cells, and then collects. -/
def crowded : Runtime := (Runtime.boot { threshold := 40 }).enterScope

def collectingThen (v : Val) : Program Unit Val := do
  let _ ← Program.perform .collect
  return v

/-- The heap is collected when half of the cells are made, and after the conversion. -/
theorem nested_texts_survive :
    ∃ v parts left,
      step (call silent 8) false (Program.ofDatum nestedTexts) crowded () =
        .ended (.value v) left () ∧
      left.heap.collections = crowded.heap.collections + 1 ∧ parts.length = 4 ∧
      Depicts left nestedTexts v parts ∧ ∀ w ∈ parts, left.collect.isLive w := by
  have facts : (answered (step (call silent 8) false (Program.ofDatum nestedTexts) crowded ())).map
      (fun ended => (ended.2.heap.collections, ended.2.handles.size)) =
        some (crowded.heap.collections + 1, crowded.handles.size + 4) := by decide +kernel
  have inside : crowded.atTopLevel = false := by decide +kernel
  have wf : crowded.heap.WellFormed :=
    Runtime.wellFormed_move .enterScope (Runtime.intact_boot { threshold := 40 }).sound.heap
  have faithful : crowded.symbols.Faithful :=
    (Runtime.Interns.move .enterScope _).faithful (Runtime.faithful_boot { threshold := 40 })
  obtain ⟨v, parts, left, ended, depicts, handles, -, lasts⟩ :=
    converted_data_lasts silent 8 false nestedTexts crowded () wf faithful
  rw [ended] at facts
  obtain ⟨collections, size⟩ := Prod.mk.inj (Option.some.inj facts)
  refine ⟨v, parts, left, ended, collections, ?_, depicts, fun w part => ?_⟩
  · rw [handles, Array.size_append] at size
    exact Nat.add_left_cancel size
  · have course : trace (call silent 8) (course silent 8) false (collectingThen v) left () =
        [⟨0, left, false⟩, ⟨0, left.collect, false⟩] := rfl
    have always := (lasts (Program.ofDatum nestedTexts >>= collectingThen) collectingThen false true
      crowded () [] inside .here).2
    rw [course] at always
    exact (always ⟨0, left.collect, false⟩ (by simp) w part).2

/-- A text is made in an ensure that a panic unwinds, and is looked for behind it. -/
def lookingBehind : Program Unit Val :=
  seekingBehind (Program.ofDatum (.text "x")) (.string ⟨38, 0⟩)

/-- What was made in the body of an ensure is gone when the body panicked, before the scope around it
is left. -/
theorem unwound_text_is_freed :
    let rt := (Runtime.boot {}).enterScope
    (answered (step (call silent 8) false (Program.ofDatum (.text "x")) rt ())).map
        (fun ended => (ended.1, ended.2.isLive ended.1)) = some (.string ⟨38, 0⟩, true) ∧
      (answered (step (call silent 8) false lookingBehind rt ())).map
        (fun ended => (ended.1, ended.2.scopes)) = some (.bool false, rt.scopes) := by
  decide +kernel

end Machine
end ObjectRuntime
