import Mathlib.Algebra.Group.Nat.Defs
import Mathlib.Data.List.Dedup
import Mathlib.Data.List.Induction
import Mathlib.Data.List.Perm.Subperm
import ObjectRuntime.Core
import ObjectRuntime.Proofs.Table

/-! Interning. The names and the ids of a symbol table are inverse to each other, whatever is interned,
and a table only grows. So each name has one symbol and each symbol one name, from the first time that
the name is interned on, and the stock symbols from the start. -/

namespace ObjectRuntime

namespace Sym

/-- The greatest id that a symbol can have. -/
def last : UInt32 := 0xffffff

/-- The names that a table has before anything is interned. -/
def stockNames : List String := reserved.take stockCount

/-- The symbols that are constants, each with its name. -/
def stock : List (Sym × String) :=
  [(initializer, "initialize"), (methodMissing, "method_missing"), (toAry, "to_ary"),
   (coerce, "coerce"), (call, "call"), (new, "new"), (inspect, "inspect"), (toS, "to_s"),
   (respondTo, "respond_to?"), (eq, "=="), (add, "+"), (atExitHandlers, "$__at_exit_handlers")]

end Sym

namespace SymbolTable

/-- The table after the names are interned, one after the other. -/
def after (t : SymbolTable) (names : List String) : SymbolTable :=
  names.foldl (fun t name => (t.intern name).2) t

def stock : SymbolTable := after {} Sym.stockNames

/-- Interning with ids of 32 bits: a name that is new is refused when no id is left for it. -/
def intern? (t : SymbolTable) (name : String) : Option (Sym × SymbolTable) :=
  match t.ids.get? name with
  | some id => some (⟨id⟩, t)
  | none =>
    let id := UInt32.ofNat t.names.size
    if Sym.last < id then none
    else some (⟨id.toNat⟩, ⟨t.names.push name, t.ids.insert name id.toNat⟩)

/-- Each id is that of the name at its position, and of no other. -/
def Inverse (t : SymbolTable) : Prop :=
  ∀ name id, t.ids.get? name = some id ↔ t.names[id]? = some name

/-- The symbol is in the table; its name is the given one, for which it is found again. -/
structure Stands (t : SymbolTable) (s : Sym) (name : String) : Prop where
  there : s.id < t.names.size
  named : t.name s = name
  found : t.intern name = (s, t)

variable {t : SymbolTable} {name name' : String} {names : List String} {id : Nat} {s : Sym}

theorem after_append (t : SymbolTable) (first second : List String) :
    t.after (first ++ second) = (t.after first).after second :=
  List.foldl_append

theorem intern_of_found (found : t.ids.get? name = some id) : t.intern name = (⟨id⟩, t) := by
  simp only [intern, found]

theorem intern_of_absent (absent : t.ids.get? name = none) :
    t.intern name =
      (⟨t.names.size⟩, ⟨t.names.push name, t.ids.insert name t.names.size⟩) := by
  simp only [intern, absent]

/-! ## A table only grows -/

theorem names_intern (named : t.names[id]? = some name) (name' : String) :
    (t.intern name').2.names[id]? = some name := by
  cases known : t.ids.get? name' with
  | some id' => rwa [intern_of_found known]
  | none =>
    obtain ⟨below, -⟩ := Array.getElem?_eq_some_iff.mp named
    rw [intern_of_absent known, Array.getElem?_push, if_neg (Nat.ne_of_lt below), named]

/-- An id that is given is not given again. -/
theorem ids_intern (found : t.ids.get? name = some id) (name' : String) :
    (t.intern name').2.ids.get? name = some id := by
  cases known : t.ids.get? name' with
  | some id' => rwa [intern_of_found known]
  | none =>
    have apart : name ≠ name' := by
      rintro rfl
      rw [known] at found
      cases found
    rw [intern_of_absent known, Table.get?_insert_of_ne _ apart, found]

theorem names_after (named : t.names[id]? = some name) (names : List String) :
    (t.after names).names[id]? = some name := by
  induction names generalizing t with
  | nil => exact named
  | cons first rest ih => exact ih (names_intern named first)

theorem ids_after (found : t.ids.get? name = some id) (names : List String) :
    (t.after names).ids.get? name = some id := by
  induction names generalizing t with
  | nil => exact found
  | cons first rest ih => exact ih (ids_intern found first)

/-! ## Names and ids are inverse -/

theorem inverse_empty : ({} : SymbolTable).Inverse := fun name id => by
  simp [Table.get?, Table.find]

namespace Inverse

theorem intern (inverse : t.Inverse) (name : String) : (t.intern name).2.Inverse := by
  cases known : t.ids.get? name with
  | some id => rwa [intern_of_found known]
  | none =>
    rw [intern_of_absent known]
    intro name' id
    -- A new name is at no position yet, and its position is the id of no name.
    have fresh : t.names[id]? ≠ some name := fun named => by
      rw [← inverse name id, known] at named
      cases named
    have beyond (there : t.ids.get? name' = some id) : id ≠ t.names.size :=
      Nat.ne_of_lt (Array.getElem?_eq_some_iff.mp ((inverse name' id).mp there)).1
    rw [Array.getElem?_push]
    by_cases same : name' = name
    · subst same
      rw [Table.get?_insert_self, Option.some.injEq, eq_comm]
      split
      next here => simp [here]
      next apart => simp [apart, fresh]
    · rw [Table.get?_insert_of_ne _ same]
      split
      next here =>
        refine ⟨fun there => absurd here (beyond there), fun named => ?_⟩
        exact absurd (Option.some.inj named).symm same
      next => exact inverse name' id

theorem after (inverse : t.Inverse) (names : List String) : (t.after names).Inverse := by
  induction names generalizing t with
  | nil => exact inverse
  | cons first rest ih => exact ih (inverse.intern first)

theorem named_intern (inverse : t.Inverse) (name : String) :
    (t.intern name).2.names[(t.intern name).1.id]? = some name := by
  cases known : t.ids.get? name with
  | some id =>
    rw [intern_of_found known]
    exact (inverse name id).mp known
  | none =>
    rw [intern_of_absent known]
    exact Array.getElem?_push_size

theorem stands (inverse : t.Inverse) (named : t.names[s.id]? = some name) : t.Stands s name where
  there := (Array.getElem?_eq_some_iff.mp named).1
  named := by rw [SymbolTable.name, Array.getD_eq_getD_getElem?, named, Option.getD_some]
  found := intern_of_found ((inverse name s.id).mpr named)

/-- The symbol that a name is given stands for it from then on. -/
theorem stands_after (inverse : t.Inverse) (name : String) (later : List String) :
    ((t.intern name).2.after later).Stands (t.intern name).1 name :=
  ((inverse.intern name).after later).stands (names_after (inverse.named_intern name) later)

theorem nodup (inverse : t.Inverse) : t.names.toList.Nodup := by
  refine List.nodup_iff_injective_getElem.mpr fun i j same => Fin.ext ?_
  have position (i : Fin t.names.toList.length) : t.ids.get? t.names.toList[i] = some i.val :=
    (inverse _ i.val).mpr (by simp)
  have shared : t.names.toList[i] = t.names.toList[j] := same
  have positions := position i
  rw [shared, position j] at positions
  exact (Option.some.inj positions).symm

end Inverse

theorem Stands.eq_iff (first : t.Stands s name) {s' : Sym} (second : t.Stands s' name') :
    s = s' ↔ name = name' := by
  constructor
  · rintro rfl
    exact first.named.symm.trans second.named
  · rintro rfl
    exact congrArg Prod.fst (first.found.symm.trans second.found)

/-! ## How many symbols there are -/

theorem mem_names_intern (inverse : t.Inverse) :
    name' ∈ (t.intern name).2.names.toList ↔ name' ∈ t.names.toList ∨ name' = name := by
  cases known : t.ids.get? name with
  | some id =>
    rw [intern_of_found known]
    refine ⟨.inl, ?_⟩
    rintro (before | rfl)
    · exact before
    · exact Array.mem_toList_iff.mpr (Array.mem_of_getElem? ((inverse name' id).mp known))
  | none => simp [intern_of_absent known]

theorem mem_names_after (inverse : t.Inverse) :
    name ∈ (t.after names).names.toList ↔ name ∈ t.names.toList ∨ name ∈ names := by
  induction names generalizing t with
  | nil => simp [after]
  | cons first rest ih =>
    have step := ih (inverse.intern first)
    rw [mem_names_intern inverse] at step
    rw [List.mem_cons, ← or_assoc, ← step]
    rfl

/-- There are as many symbols as there are different names. -/
theorem size_after (names : List String) : (after {} names).names.size = names.dedup.length := by
  have inverse := inverse_empty.after names
  have perm : (after {} names).names.toList.Perm names.dedup :=
    (List.perm_ext_iff_of_nodup inverse.nodup names.nodup_dedup).mpr fun name => by
      rw [mem_names_after inverse_empty, List.mem_dedup]
      simp
  rw [← Array.length_toList, perm.length_eq]

theorem intern?_eq (room : (t.intern name).2.names.size ≤ 2 ^ 24) :
    t.intern? name = some (t.intern name) := by
  cases known : t.ids.get? name with
  | some id => simp only [intern?, known, intern_of_found known]
  | none =>
    rw [intern_of_absent known, Array.size_push] at room
    have exact : (UInt32.ofNat t.names.size).toNat = t.names.size :=
      UInt32.toNat_ofNat_of_lt' (by change _ < 2 ^ 32; omega)
    have free : ¬ Sym.last < UInt32.ofNat t.names.size := by
      rw [UInt32.lt_iff_toNat_lt, exact]
      change ¬ 2 ^ 24 - 1 < t.names.size
      omega
    simp only [intern?, known, if_neg free, exact, intern_of_absent known]

/-! ## The stock symbols -/

theorem inverse_stock : stock.Inverse := inverse_empty.after Sym.stockNames

/-- A constant is the symbol of its name in every table. -/
theorem stock_stands (names : List String) {e : Sym × String} (member : e ∈ Sym.stock) :
    (stock.after names).Stands e.1 e.2 := by
  have positions : ∀ e ∈ Sym.stock, stock.names[e.1.id]? = some e.2 := by decide +kernel
  exact (inverse_stock.after names).stands (names_after (positions e member) names)

theorem after_of_nodup {names : List String} (nodup : names.Nodup) : after {} names = ofNames names := by
  induction names using List.reverseRecOn with
  | nil => rfl
  | append_singleton names name ih =>
    obtain ⟨before, -, apart⟩ := List.nodup_append.mp nodup
    have keys : (ofNames names).ids.keys = names := by simp [ofNames, Table.keys]
    have absent : name ∉ (ofNames names).ids.keys := fun member =>
      apart name (keys ▸ member) name (List.mem_singleton.mpr rfl) rfl
    have last : (ofNames names).ids.insert name names.length = (ofNames (names ++ [name])).ids :=
      congrArg Table.mk ((Table.insert_of_not_mem absent _).trans (by simp [ofNames, List.zipIdx_append]))
    calc after {} (names ++ [name])
      _ = ((ofNames names).intern name).2 := by rw [after_append, ih before]; rfl
      _ = ⟨(ofNames names).names.push name, (ofNames names).ids.insert name names.length⟩ := by
        rw [intern_of_absent (Table.get?_eq_none_iff.mpr absent)]
        rfl
      _ = ofNames (names ++ [name]) := by
        rw [last]
        simp [ofNames]

/-- The names of a new runtime are the stock names and others that are interned at once. -/
theorem initial_eq : initial =
    stock.after (Sym.reserved.drop Sym.stockCount ++ CoreClass.all.map (·.name)) := by
  have nodup : (Sym.reserved ++ CoreClass.all.map (·.name)).Nodup := by decide +kernel
  rw [initial, ← after_of_nodup nodup, stock, ← after_append, Sym.stockNames, ← List.append_assoc,
    List.take_append_drop]

/-- The table when the first `n` of the names have been interned. -/
def upto (names : List String) (n : Nat) : SymbolTable := stock.after (names.take n)

/-- The symbol that a name is given when its turn comes. -/
def given (names : List String) (i : Fin names.length) : Sym :=
  ((upto names i).intern (names.get i)).1

theorem inverse_upto (names : List String) (n : Nat) : (upto names n).Inverse :=
  inverse_stock.after _

theorem upto_succ (names : List String) (i : Fin names.length) :
    upto names (i + 1) = ((upto names i).intern (names.get i)).2 := by
  rw [upto, List.take_add_one, List.getElem?_eq_getElem i.isLt, after_append]
  rfl

theorem size_upto_le (names : List String) (n : Nat) :
    (upto names n).names.size ≤ (Sym.stockNames ++ names).dedup.length := by
  rw [upto, stock, ← after_append, size_after]
  have fewer : (Sym.stockNames ++ names.take n).dedup ⊆ (Sym.stockNames ++ names).dedup := by
    intro name member
    rw [List.mem_dedup, List.mem_append] at member ⊢
    exact member.imp_right List.mem_of_mem_take
  exact ((List.nodup_dedup _).subperm fewer).length_le

theorem given_stands (names : List String) (i : Fin names.length) {n : Nat} (later : i < n) :
    (upto names n).Stands (given names i) (names.get i) := by
  have interned : (upto names n).names[(given names i).id]? = some (names.get i) := by
    obtain ⟨d, rfl⟩ := Nat.exists_eq_add_of_le later
    rw [upto, List.take_add, after_append]
    refine names_after ?_ _
    rw [← upto, upto_succ]
    exact (inverse_upto names i).named_intern (names.get i)
  exact (inverse_upto names n).stands interned

/-- As long as there are no more than 2 ^ 24 different names in all, the stock names among them, each
name that is interned is given a symbol. Two names are given the same symbol if and only if they are
equal, however far apart they are interned. From then on the symbol has that name and is found for it,
whatever else is interned, and every constant is all along the symbol of its own name. -/
theorem symbols_match_names (names : List String)
    (few : (Sym.stockNames ++ names).dedup.length ≤ 2 ^ 24) :
    (∀ i : Fin names.length, (upto names i).intern? (names.get i) = some (given names i, upto names (i + 1))) ∧
    (∀ i j, given names i = given names j ↔ names.get i = names.get j) ∧
    (∀ i : Fin names.length, ∀ n > i.val, (upto names n).Stands (given names i) (names.get i)) ∧
    (∀ n, ∀ e ∈ Sym.stock, (upto names n).Stands e.1 e.2) ∧
    ∀ n, (upto names n).Inverse := by
  refine ⟨fun i => ?total, fun i j => ?apart, fun i n later => given_stands names i later,
    fun n e member => stock_stands _ member, inverse_upto names⟩
  case total =>
    rw [upto_succ]
    refine intern?_eq ?_
    rw [← upto_succ]
    exact Nat.le_trans (size_upto_le names _) few
  case apart =>
    exact (given_stands names i i.isLt).eq_iff (given_stands names j j.isLt)

/-- A name that is interned twice, and a stock name in between. -/
def repeating : List String := ["each", "inspect", "each"]

theorem repeated_name_keeps_its_symbol :
    let first : Fin repeating.length := ⟨0, by decide⟩
    let second : Fin repeating.length := ⟨1, by decide⟩
    let third : Fin repeating.length := ⟨2, by decide⟩
    (Sym.stockNames ++ repeating).dedup.length ≤ 2 ^ 24 ∧
      (given repeating first = given repeating third ∧
        given repeating first ≠ given repeating second ∧ given repeating second = Sym.inspect) ∧
      (upto repeating 2).intern? "each" = some (given repeating first, upto repeating 3) := by
  intro first second third
  have few : (Sym.stockNames ++ repeating).dedup.length ≤ 2 ^ 24 := by decide
  obtain ⟨total, apart, stands, constants, -⟩ := symbols_match_names repeating few
  have again : given repeating first = given repeating third := (apart first third).mpr rfl
  have constant := constants 2 (Sym.inspect, "inspect") (by decide)
  refine ⟨few, ⟨again, fun same => ?_, ?_⟩, ?_⟩
  · exact absurd ((apart first second).mp same) (by decide)
  · exact ((stands second 2 (by decide)).eq_iff constant).mpr rfl
  · rw [again]
    exact total third

end SymbolTable
end ObjectRuntime
