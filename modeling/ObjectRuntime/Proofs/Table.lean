import ObjectRuntime.Table

/-! Bindings of a table. What a table holds after a write it held before, or it is what was
written. -/

namespace ObjectRuntime.Table
variable {κ ν : Type} [DecidableEq κ]

theorem mem_of_find {entries : List (κ × ν)} {key : κ} {val : ν}
    (found : find entries key = some val) : (key, val) ∈ entries := by
  induction entries with
  | nil => cases found
  | cons e rest ih =>
    obtain ⟨k, v⟩ := e
    unfold find at found
    split at found
    next same =>
      cases found
      simp [same]
    next => exact List.mem_cons_of_mem _ (ih found)

theorem mem_write {entries : List (κ × ν)} {key : κ} {val : ν} {e : κ × ν}
    (member : e ∈ write entries key val) : e ∈ entries ∨ e = (key, val) := by
  induction entries with
  | nil => exact .inr (by simpa [write] using member)
  | cons e' rest ih =>
    obtain ⟨k, v⟩ := e'
    unfold write at member
    split at member
    next same =>
      rcases List.mem_cons.mp member with rfl | later
      · exact .inr (by rw [same])
      · exact .inl (List.mem_cons_of_mem _ later)
    next =>
      rcases List.mem_cons.mp member with rfl | later
      · exact .inl (by simp)
      · rcases ih later with old | new
        · exact .inl (List.mem_cons_of_mem _ old)
        · exact .inr new

theorem drop_sublist (entries : List (κ × ν)) (key : κ) : (drop entries key).Sublist entries := by
  induction entries with
  | nil => exact .refl _
  | cons e rest ih =>
    obtain ⟨k, v⟩ := e
    unfold drop
    split
    next => exact List.sublist_cons_self ..
    next => exact ih.cons_cons _

theorem mem_drop {entries : List (κ × ν)} {key : κ} {e : κ × ν} (member : e ∈ drop entries key) :
    e ∈ entries :=
  (drop_sublist entries key).subset member

theorem mem_values_insert {t : Table κ ν} {key : κ} {val v : ν}
    (member : v ∈ (t.insert key val).values) : v ∈ t.values ∨ v = val := by
  obtain ⟨e, entry, rfl⟩ := List.mem_map.mp member
  rcases mem_write entry with old | rfl
  · exact .inl (List.mem_map.mpr ⟨e, old, rfl⟩)
  · exact .inr rfl

theorem mem_values_erase {t : Table κ ν} {key : κ} {v : ν} (member : v ∈ (t.erase key).values) :
    v ∈ t.values := by
  obtain ⟨e, entry, rfl⟩ := List.mem_map.mp member
  exact List.mem_map.mpr ⟨e, mem_drop entry, rfl⟩

theorem mem_values_of_get {t : Table κ ν} {key : κ} {val : ν} (found : t.get? key = some val) :
    val ∈ t.values :=
  List.mem_map.mpr ⟨_, mem_of_find found, rfl⟩

/-! ## Reading after writing -/

theorem get?_insert_self (t : Table κ ν) (key : κ) (val : ν) :
    (t.insert key val).get? key = some val := by
  unfold get? insert
  induction t.entries with
  | nil => simp [write, find]
  | cons e rest ih =>
    obtain ⟨k, v⟩ := e
    by_cases same : k = key <;> simp [write, find, same, ih]

theorem get?_insert_of_ne (t : Table κ ν) {key key' : κ} (apart : key' ≠ key) (val : ν) :
    (t.insert key val).get? key' = t.get? key' := by
  unfold get? insert
  induction t.entries with
  | nil => simp [write, find, Ne.symm apart]
  | cons e rest ih =>
    obtain ⟨k, v⟩ := e
    by_cases same : k = key
    · simp [write, find, same, Ne.symm apart]
    · simp [write, find, same, ih]

theorem get?_erase_of_ne (t : Table κ ν) {key key' : κ} (apart : key' ≠ key) :
    (t.erase key).get? key' = t.get? key' := by
  unfold get? erase
  induction t.entries with
  | nil => rfl
  | cons e rest ih =>
    obtain ⟨k, v⟩ := e
    by_cases same : k = key
    · simp [drop, find, same, Ne.symm apart]
    · simp [drop, find, same, ih]

/-! ## Distinct keys -/

/-- A table that writing and erasing have made out of the empty one. -/
inductive Built : Table κ ν → Prop
  | empty : Built {}
  | insert {t : Table κ ν} (built : Built t) (key : κ) (val : ν) : Built (t.insert key val)
  | erase {t : Table κ ν} (built : Built t) (key : κ) : Built (t.erase key)

/-- What is left of a table without some keys, in its order. -/
def without (t : Table κ ν) (keys : List κ) : Table κ ν :=
  ⟨t.entries.filter fun e => e.1 ∉ keys⟩

variable {t : Table κ ν} {entries : List (κ × ν)} {key : κ} {val : ν}

theorem keys_insert (t : Table κ ν) (key : κ) (val : ν) :
    (t.insert key val).keys = if key ∈ t.keys then t.keys else t.keys ++ [key] := by
  unfold keys insert
  induction t.entries with
  | nil => simp [write]
  | cons e rest ih =>
    obtain ⟨k, v⟩ := e
    by_cases same : k = key
    · simp [write, same]
    · simp only [write, if_neg same, List.map_cons, ih, List.mem_cons, Ne.symm same, false_or]
      split
      next => rfl
      next => rfl

theorem Built.nodup (built : t.Built) : t.keys.Nodup := by
  induction built with
  | empty => exact List.nodup_nil
  | @insert t built key val ih =>
    rw [keys_insert]
    split
    next => exact ih
    next new =>
      refine List.nodup_append.mpr ⟨ih, by simp, fun k member k' last => ?_⟩
      rw [List.mem_singleton.mp last]
      exact fun same => new (same ▸ member)
  | erase _ key ih => exact ih.sublist ((drop_sublist ..).map _)

theorem find_eq_none_iff : find entries key = none ↔ ∀ val, (key, val) ∉ entries := by
  induction entries with
  | nil => simp [find]
  | cons e rest ih =>
    obtain ⟨k, v⟩ := e
    by_cases same : k = key
    · subst same
      simp only [find, if_true, reduceCtorEq, false_iff]
      exact fun absent => absent v (List.mem_cons_self ..)
    · simp [find, same, Ne.symm same, ih]

theorem find_eq_some_iff (nodup : (entries.map Prod.fst).Nodup) :
    find entries key = some val ↔ (key, val) ∈ entries := by
  induction entries with
  | nil => simp [find]
  | cons e rest ih =>
    obtain ⟨k, v⟩ := e
    obtain ⟨first, later⟩ := List.nodup_cons.mp nodup
    by_cases same : k = key
    · subst same
      have absent : (k, val) ∉ rest := fun member => first (List.mem_map.mpr ⟨_, member, rfl⟩)
      simp [find, absent, eq_comm]
    · simp [find, same, Ne.symm same, ih later]

theorem erase_of_absent (absent : t.get? key = none) : t.erase key = t := by
  have unchanged {entries : List (κ × ν)} (absent : find entries key = none) :
      drop entries key = entries := by
    induction entries with
    | nil => rfl
    | cons e rest ih =>
      obtain ⟨k, v⟩ := e
      by_cases same : k = key
      · simp [find, same] at absent
      · simp only [find, if_neg same] at absent
        simp only [drop, if_neg same, ih absent]
  exact congrArg Table.mk (unchanged absent)

/-- With distinct keys, nothing else is under the key that is erased. -/
theorem erase_eq_without (nodup : t.keys.Nodup) (key : κ) : t.erase key = t.without [key] := by
  have dropped {entries : List (κ × ν)} (nodup : (entries.map Prod.fst).Nodup) :
      drop entries key = entries.filter fun e => e.1 ∉ [key] := by
    induction entries with
    | nil => rfl
    | cons e rest ih =>
      obtain ⟨k, v⟩ := e
      obtain ⟨first, later⟩ := List.nodup_cons.mp nodup
      by_cases same : k = key
      · subst same
        have others : ∀ e ∈ rest, decide (e.1 ∉ [k]) = true := fun e member =>
          decide_eq_true fun same =>
            first (List.mem_map.mpr ⟨e, member, List.mem_singleton.mp same⟩)
        rw [List.filter_cons_of_neg (by simp), List.filter_eq_self.mpr others]
        simp [drop]
      · rw [List.filter_cons_of_pos (by simp [same]), ← ih later]
        simp [drop, same]
  exact congrArg Table.mk (dropped nodup)

theorem mem_without {keys : List κ} {e : κ × ν} :
    e ∈ (t.without keys).entries ↔ e ∈ t.entries ∧ e.1 ∉ keys := by
  simp [without]

theorem nodup_without (nodup : t.keys.Nodup) (keys : List κ) : (t.without keys).keys.Nodup :=
  nodup.sublist (List.filter_sublist.map _)

theorem keys_without (t : Table κ ν) (ks : List κ) :
    (t.without ks).keys = t.keys.filter (· ∉ ks) := by
  rw [keys, keys, List.filter_map]
  rfl

theorem without_nil (t : Table κ ν) : t.without [] = t :=
  congrArg Table.mk (List.filter_eq_self.mpr (by simp))

theorem without_append (t : Table κ ν) (first second : List κ) :
    (t.without first).without second = t.without (first ++ second) := by
  simp only [without, List.filter_filter, List.mem_append, not_or, Bool.decide_and, Bool.and_comm]

/-- What is no longer in a table was the first binding of its key. -/
theorem mem_drop_or (key : κ) {e : κ × ν} (member : e ∈ entries) :
    e ∈ drop entries key ∨ e.1 = key ∧ find entries key = some e.2 := by
  induction entries with
  | nil => exact nomatch member
  | cons e' rest ih =>
    obtain ⟨k, v⟩ := e'
    by_cases same : k = key
    · rcases List.mem_cons.mp member with rfl | later
      · exact .inr ⟨same, by simp [find, same]⟩
      · exact .inl (by simpa [drop, same] using later)
    · simp only [drop, find, if_neg same, List.mem_cons]
      rcases List.mem_cons.mp member with rfl | later
      · exact .inl (.inl rfl)
      · exact (ih later).imp_left .inr

/-! ## Places -/

theorem get?_eq_none_iff : t.get? key = none ↔ key ∉ t.keys := by
  rw [get?, find_eq_none_iff, keys, List.mem_map]
  exact ⟨fun absent ⟨e, member, same⟩ => absent e.2 (same ▸ member),
    fun absent val member => absent ⟨_, member, rfl⟩⟩

/-- A new key comes last. -/
theorem insert_of_not_mem (new : key ∉ t.keys) (val : ν) :
    (t.insert key val).entries = t.entries ++ [(key, val)] := by
  have written {entries : List (κ × ν)} (absent : find entries key = none) :
      write entries key val = entries ++ [(key, val)] := by
    induction entries with
    | nil => rfl
    | cons e rest ih =>
      obtain ⟨k, v⟩ := e
      by_cases same : k = key
      · simp [find, same] at absent
      · simp only [find, if_neg same] at absent
        simp only [write, if_neg same, ih absent, List.cons_append]
  exact written (get?_eq_none_iff.mpr new)

/-- A key that is there keeps its place, and all that is under other keys stays. -/
theorem insert_of_mem (nodup : t.keys.Nodup) (old : key ∈ t.keys) (val : ν) :
    (t.insert key val).entries = t.entries.map fun e => if e.1 = key then (key, val) else e := by
  have written {entries : List (κ × ν)} (nodup : (entries.map Prod.fst).Nodup)
      (old : key ∈ entries.map Prod.fst) :
      write entries key val = entries.map fun e => if e.1 = key then (key, val) else e := by
    induction entries with
    | nil => cases old
    | cons e rest ih =>
      obtain ⟨k, v⟩ := e
      obtain ⟨first, later⟩ := List.nodup_cons.mp nodup
      by_cases same : k = key
      · subst same
        have others : ∀ e ∈ rest, (if e.1 = k then (k, val) else e) = e := fun e member =>
          if_neg fun same => first (List.mem_map.mpr ⟨e, member, same⟩)
        simp only [write, if_true, List.map_cons, List.map_congr_left others, List.map_id']
      · have there : key ∈ rest.map Prod.fst := (List.mem_cons.mp old).resolve_left (Ne.symm same)
        simp only [write, if_neg same, List.map_cons, ih later there]
  exact written nodup old

theorem get?_erase_self (nodup : t.keys.Nodup) (key : κ) : (t.erase key).get? key = none := by
  rw [get?_eq_none_iff, erase_eq_without nodup, keys_without]
  simp

theorem without_insert (t : Table κ ν) (key : κ) (val : ν) :
    (t.insert key val).without [key] = t.without [key] := by
  have written (entries : List (κ × ν)) :
      (write entries key val).filter (fun e => e.1 ∉ [key]) = entries.filter fun e => e.1 ∉ [key] := by
    induction entries with
    | nil => simp [write]
    | cons e rest ih =>
      obtain ⟨k, v⟩ := e
      by_cases same : k = key
      · simp [write, same]
      · simp only [write, if_neg same, List.filter_cons, ih]
  exact congrArg Table.mk (written t.entries)

theorem without_erase (nodup : t.keys.Nodup) (key : κ) :
    (t.erase key).without [key] = t.without [key] := by
  rw [erase_eq_without nodup, without_append]
  simp [without]

end ObjectRuntime.Table
