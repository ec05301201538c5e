import ObjectRuntime.Proofs.Heap.Bookkeeping

/-! Marking. The marker reaches what the graph of cells reaches from where it starts:
every marked slot is reached, a followed slot has all its children marked, and the
pending slots are those between the two. Each round takes one pending slot, and a slot
becomes pending at most once, so the rounds it is given are enough. -/

namespace ObjectRuntime.Heap

/-- What is reached from `start` by following the values that cells hold. -/
inductive Reached (fs : Frames) (h : Heap) (start : List Val) : Val → Prop
  | start {v : Val} : v ∈ start → Reached fs h start v
  | child {k : Kind} {r : Ref} {c : Cell} {v : Val} : Reached fs h start (.cell k r) →
      h.cell? r = some c → v ∈ c.children fs → Reached fs h start v

/-- The marker has been at the cell a value names, if it names one. -/
def Seen (h : Heap) (marked : Array Bool) (v : Val) : Prop :=
  ∀ k r, v = .cell k r → h.isLive r → marked[r.index]? = some true

/-- The invariant of marking: `active` are the slots still to be followed to the end. -/
structure Marking.Traced (fs : Frames) (h : Heap) (start : List Val) (active : List Nat)
    (marked : Array Bool) : Prop where
  size : marked.size = h.slots.size
  met : ∀ i ∈ active, marked[i]? = some true
  reached : ∀ i : Nat, marked[i]? = some true →
    ∃ k r, r.index = i ∧ h.isLive r ∧ Reached fs h start (.cell k r)
  followed : ∀ i : Nat, marked[i]? = some true → i ∉ active →
    ∀ c, h.cellAt? i = some c → ∀ v ∈ c.children fs, h.Seen marked v

def unmarked (marked : Array Bool) : Nat := marked.count false

open Marking

theorem cellAt?_of_cell {h : Heap} {r : Ref} {c : Cell} (found : h.cell? r = some c) :
    h.cellAt? r.index = some c := by
  obtain ⟨s, slot, _, occupied⟩ := (cell?_eq_some_iff h r c).mp found
  simp [cellAt?, slot, occupied]

/-! ## One visit -/

def Marking.push (m : Marking) (i : Nat) : Marking :=
  ⟨m.marked.setIfInBounds i true, i :: m.pending⟩

theorem visit_cases {h : Heap} {m : Marking} (size : m.marked.size = h.slots.size) (v : Val) :
    (h.visit m v = m ∧ h.Seen m.marked v) ∨ ∃ k r, v = .cell k r ∧ h.isLive r ∧
      m.marked[r.index]? = some false ∧ h.visit m v = m.push r.index := by
  cases v with
  | cell k r =>
    by_cases live : h.isLive r
    · cases mark : m.marked[r.index]? with
      | none =>
        obtain ⟨c, found⟩ := (isLive_iff h r).mp live
        have bound := index_lt_of_cell found
        have outside := Array.getElem?_eq_none_iff.mp mark
        omega
      | some b =>
        cases b with
        | true =>
          refine .inl ⟨by simp [visit, mark], ?_⟩
          rintro k' r' same -
          cases same
          exact mark
        | false => exact .inr ⟨k, r, rfl, live, mark, by simp [visit, Marking.push, live, mark]⟩
    · refine .inl ⟨by simp [visit, live], ?_⟩
      rintro k' r' same live'
      cases same
      exact absurd live' live
  | _ => exact .inl ⟨rfl, by rintro k r ⟨⟩⟩

/-- Marks only grow, and what becomes pending was unmarked before. -/
structure Marking.Advances (m m' : Marking) : Prop where
  grow : ∀ i : Nat, m.marked[i]? = some true → m'.marked[i]? = some true
  measure : m'.pending.length + unmarked m'.marked = m.pending.length + unmarked m.marked

theorem Marking.Advances.refl (m : Marking) : m.Advances m := ⟨fun _ marked => marked, rfl⟩

theorem Marking.Advances.trans {m m' m'' : Marking} (first : m.Advances m')
    (second : m'.Advances m'') : m.Advances m'' where
  grow i marked := second.grow i (first.grow i marked)
  measure := second.measure.trans first.measure

theorem Seen.mono {h : Heap} {m m' : Marking} (advances : m.Advances m') {v : Val}
    (seen : h.Seen m.marked v) : h.Seen m'.marked v := by
  intro k r same live
  exact advances.grow _ (seen k r same live)

theorem marked_push {m : Marking} {i : Nat} (bound : i < m.marked.size) (j : Nat) :
    (m.push i).marked[j]? = if i = j then some true else m.marked[j]? := by
  unfold Marking.push
  rw [Array.getElem?_setIfInBounds]
  by_cases here : i = j
  · subst here
    simp [bound]
  · simp [here]

theorem advances_push {m : Marking} {i : Nat} (mark : m.marked[i]? = some false) :
    m.Advances (m.push i) := by
  obtain ⟨bound, unmarked_i⟩ := Array.getElem?_eq_some_iff.mp mark
  constructor
  · intro j marked
    rw [marked_push bound]
    split
    · rfl
    · exact marked
  · have member : false ∈ m.marked := unmarked_i ▸ Array.getElem_mem bound
    have positive : 0 < m.marked.count false := Array.count_pos_iff.mpr member
    simp only [unmarked, Marking.push, List.length_cons, Array.setIfInBounds, bound, dif_pos,
      Array.count_set bound, unmarked_i]
    simp
    omega

theorem Marking.Traced.push {fs : Frames} {h : Heap} {start : List Val} {extra : List Nat}
    {m : Marking} {k : Kind} {r : Ref} (traced : Traced fs h start (extra ++ m.pending) m.marked)
    (mark : m.marked[r.index]? = some false) (live : h.isLive r)
    (reached : Reached fs h start (.cell k r)) :
    Traced fs h start (extra ++ (m.push r.index).pending) (m.push r.index).marked := by
  have advances := advances_push mark
  have bound := (Array.getElem?_eq_some_iff.mp mark).choose
  have known {i : Nat} (marked : (m.push r.index).marked[i]? = some true) (other : r.index ≠ i) :
      m.marked[i]? = some true := by
    rwa [marked_push bound, if_neg other] at marked
  refine ⟨?_, fun i active => ?_, fun i marked => ?_, fun i marked inactive c found v held => ?_⟩
  · simp [Marking.push, traced.size]
  · rcases List.mem_append.mp active with before | after
    · exact advances.grow i (traced.met i (List.mem_append_left _ before))
    · rcases List.mem_cons.mp after with rfl | before
      · rw [marked_push bound, if_pos rfl]
      · exact advances.grow i (traced.met i (List.mem_append_right _ before))
  · by_cases here : r.index = i
    · exact ⟨k, r, here, live, reached⟩
    · exact traced.reached i (known marked here)
  · have other : r.index ≠ i := by
      rintro rfl
      exact inactive (List.mem_append_right _ List.mem_cons_self)
    have idle : i ∉ extra ++ m.pending := by
      intro active
      apply inactive
      rcases List.mem_append.mp active with before | before
      · exact List.mem_append_left _ before
      · exact List.mem_append_right _ (List.mem_cons_of_mem _ before)
    exact (traced.followed i (known marked other) idle c found v held).mono advances

theorem visit_spec {fs : Frames} {h : Heap} {start : List Val} {extra : List Nat} {m : Marking}
    {v : Val} (traced : Traced fs h start (extra ++ m.pending) m.marked)
    (reached : Reached fs h start v) :
    Traced fs h start (extra ++ (h.visit m v).pending) (h.visit m v).marked ∧
      h.Seen (h.visit m v).marked v ∧ m.Advances (h.visit m v) := by
  rcases visit_cases traced.size v with ⟨same, seen⟩ | ⟨k, r, rfl, live, mark, step⟩
  · rw [same]
    exact ⟨traced, seen, .refl m⟩
  · rw [step]
    have seen : h.Seen (m.push r.index).marked (.cell k r) := by
      rintro k' r' same -
      cases same
      rw [marked_push (Array.getElem?_eq_some_iff.mp mark).choose, if_pos rfl]
    exact ⟨traced.push mark live reached, seen, advances_push mark⟩

theorem visits_spec {fs : Frames} {h : Heap} {start : List Val} {extra : List Nat} (vs : List Val)
    {m : Marking} (traced : Traced fs h start (extra ++ m.pending) m.marked)
    (reached : ∀ v ∈ vs, Reached fs h start v) :
    Traced fs h start (extra ++ (vs.foldl h.visit m).pending) (vs.foldl h.visit m).marked ∧
      (∀ v ∈ vs, h.Seen (vs.foldl h.visit m).marked v) ∧ m.Advances (vs.foldl h.visit m) := by
  induction vs generalizing m with
  | nil => exact ⟨traced, fun _ member => (List.not_mem_nil member).elim, .refl m⟩
  | cons v vs ih =>
    obtain ⟨traced', seen, first⟩ := visit_spec traced (reached v List.mem_cons_self)
    obtain ⟨traced'', seen', second⟩ :=
      ih traced' fun v member => reached v (List.mem_cons_of_mem _ member)
    refine ⟨traced'', ?_, first.trans second⟩
    intro v' member
    rcases List.mem_cons.mp member with rfl | later
    · exact seen.mono second
    · exact seen' v' later

/-! ## The rounds -/

theorem Marking.Traced.settle {fs : Frames} {h : Heap} {start : List Val} {r : Ref} {c : Cell}
    {pending : List Nat} {marked : Array Bool}
    (traced : Traced fs h start ([r.index] ++ pending) marked) (found : h.cell? r = some c)
    (seen : ∀ v ∈ c.children fs, h.Seen marked v) : Traced fs h start pending marked := by
  refine ⟨traced.size, fun j active => traced.met j (List.mem_append_right _ active),
    traced.reached, fun j here inactive c' found' v held => ?_⟩
  by_cases same : j = r.index
  · subst same
    rw [cellAt?_of_cell found] at found'
    cases found'
    exact seen v held
  · have idle : j ∉ [r.index] ++ pending := by
      intro active
      rcases List.mem_append.mp active with this | later
      · exact same (List.mem_singleton.mp this)
      · exact inactive later
    exact traced.followed j here idle c' found' v held

/-- Following reached slots to the end. With a round for each pending and each unmarked slot,
nothing stays pending. -/
theorem follow_spec {fs : Frames} {h : Heap} {start : List Val} (fuel : Nat) {m : Marking}
    (traced : Traced fs h start m.pending m.marked)
    (enough : m.pending.length + unmarked m.marked ≤ fuel) :
    Traced fs h start [] (follow fs h fuel m).marked ∧ (follow fs h fuel m).pending = [] ∧
      ∀ i : Nat, m.marked[i]? = some true → (follow fs h fuel m).marked[i]? = some true := by
  induction fuel generalizing m with
  | zero =>
    have none_left : m.pending = [] := List.length_eq_zero_iff.mp (by omega)
    exact ⟨by simpa [follow, none_left] using traced, none_left, fun _ marked => marked⟩
  | succ fuel ih =>
    cases next : m.pending with
    | nil =>
      have stop : follow fs h (fuel + 1) m = m := by simp [follow, next]
      rw [stop]
      exact ⟨by simpa [next] using traced, next, fun _ marked => marked⟩
    | cons i rest =>
      have round : follow fs h (fuel + 1) m = follow fs h fuel
          ((((h.cellAt? i).map (·.children fs)).getD []).foldl h.visit ⟨m.marked, rest⟩) := by
        simp [follow, next]
      rw [next] at traced enough
      obtain ⟨k, r, rfl, live, reached⟩ := traced.reached i (traced.met i List.mem_cons_self)
      obtain ⟨c, found⟩ := (isLive_iff h r).mp live
      rw [cellAt?_of_cell found] at round
      simp only [Option.map_some, Option.getD_some] at round
      -- while the children are visited, slot `i` is active but no longer pending
      have begun : Traced fs h start ([r.index] ++ (Marking.mk m.marked rest).pending)
          (Marking.mk m.marked rest).marked := traced
      obtain ⟨traced', seen, advances⟩ :=
        visits_spec (c.children fs) begun fun v held => .child reached found held
      have fewer : ((c.children fs).foldl h.visit ⟨m.marked, rest⟩).pending.length +
          unmarked ((c.children fs).foldl h.visit ⟨m.marked, rest⟩).marked ≤ fuel := by
        have measure := advances.measure
        simp only [List.length_cons] at measure enough
        omega
      obtain ⟨done, empty, grow⟩ := ih (traced'.settle found seen) fewer
      rw [round]
      exact ⟨done, empty, fun j marked => grow j (advances.grow j marked)⟩

/-! ## The whole mark -/

/-- Where the marker starts: the values it is given, the registered roots and the pinned cells. -/
def markStart (h : Heap) (values : List Val) : List Val := values ++ h.roots.values ++ h.pinnedValues

def markBegun (h : Heap) (values : List Val) : Marking :=
  (h.markStart values).foldl h.visit ⟨Array.replicate h.slots.size false, []⟩

def markDone (fs : Frames) (h : Heap) (values : List Val) : Marking :=
  follow fs h h.slots.size (h.markBegun values)

theorem mark_eq (fs : Frames) (h : Heap) (values : List Val) :
    mark fs h values = (markDone fs h values).marked := rfl

theorem markBegun_spec (fs : Frames) (h : Heap) (values : List Val) :
    Traced fs h (h.markStart values) (h.markBegun values).pending (h.markBegun values).marked ∧
      (∀ v ∈ h.markStart values, h.Seen (h.markBegun values).marked v) ∧
      (h.markBegun values).pending.length + unmarked (h.markBegun values).marked = h.slots.size := by
  have fresh : Traced fs h (h.markStart values)
      ([] ++ (Marking.mk (Array.replicate h.slots.size false) []).pending)
      (Marking.mk (Array.replicate h.slots.size false) []).marked := by
    refine ⟨by simp, by simp, fun i marked => ?_, fun i marked => ?_⟩ <;>
      simp [Array.getElem?_replicate] at marked
  obtain ⟨traced, seen, advances⟩ :=
    visits_spec (h.markStart values) fresh fun v member => .start member
  have all : unmarked (Array.replicate h.slots.size false) = h.slots.size := by simp [unmarked]
  exact ⟨traced, seen, advances.measure.trans (by simp [all])⟩

theorem markDone_pending (fs : Frames) (h : Heap) (values : List Val) :
    (markDone fs h values).pending = [] := by
  obtain ⟨traced, -, measure⟩ := markBegun_spec fs h values
  exact (follow_spec h.slots.size traced (by omega)).2.1

/-- Exactly the cells that are reached get marked. -/
theorem mark_iff (fs : Frames) (h : Heap) (values : List Val) {r : Ref} (live : h.isLive r) :
    (mark fs h values)[r.index]? = some true ↔
      ∃ k, Reached fs h (h.markStart values) (.cell k r) := by
  obtain ⟨traced, seen, measure⟩ := markBegun_spec fs h values
  obtain ⟨done, -, grow⟩ := follow_spec h.slots.size traced (by omega)
  rw [mark_eq]
  constructor
  · intro marked
    obtain ⟨k, r', same, live', reached⟩ := done.reached r.index marked
    rw [eq_of_index_eq live live' same.symm]
    exact ⟨k, reached⟩
  · rintro ⟨k, reached⟩
    -- what is marked at the end is closed under children, so it holds everything reached
    have closed (v : Val) (reached : Reached fs h (h.markStart values) v) :
        h.Seen (markDone fs h values).marked v := by
      induction reached with
      | start member =>
        intro k r same live
        exact grow _ (seen _ member k r same live)
      | child parent found held ih =>
        have marked := ih _ _ rfl ((isLive_iff h _).mpr ⟨_, found⟩)
        exact done.followed _ marked (by simp) _ (cellAt?_of_cell found) _ held
    exact closed _ reached k r rfl live

end ObjectRuntime.Heap
