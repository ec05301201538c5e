import ObjectRuntime.Proofs.Interning
import ObjectRuntime.Proofs.Running

/-! Names and symbols. Interning gives a name the next position, once; the table only ever grows, so
that a symbol has one name for the whole of a run, and a name one symbol. -/

namespace ObjectRuntime

/-- A name is at the position that it is found under. -/
def SymbolTable.Faithful (t : SymbolTable) : Prop :=
  ∀ name id, t.ids.get? name = some id → t.names[id]? = some name

namespace SymbolTable
variable {t : SymbolTable}

theorem Inverse.faithful (inverse : t.Inverse) : t.Faithful := fun name id => (inverse name id).mp

theorem faithful_initial : initial.Faithful := by
  rw [initial_eq]
  exact (inverse_stock.after _).faithful

theorem faithful_intern (faithful : t.Faithful) (name : String) : (t.intern name).2.Faithful := by
  intro name' id found
  cases known : t.ids.get? name with
  | some id' =>
    rw [intern_of_found known] at found ⊢
    exact faithful name' id found
  | none =>
    by_cases same : name' = name
    · subst same
      rw [intern_of_absent known] at found ⊢
      rw [Table.get?_insert_self, Option.some.injEq] at found
      exact found ▸ Array.getElem?_push_size
    · have before : t.ids.get? name' = some id := by
        rwa [intern_of_absent known, Table.get?_insert_of_ne _ same] at found
      exact names_intern (faithful name' id before) name

theorem faithful_after (faithful : t.Faithful) (names : List String) : (t.after names).Faithful := by
  induction names generalizing t with
  | nil => exact faithful
  | cons first rest ih => exact ih (faithful_intern faithful first)

end SymbolTable

namespace Runtime

/-- Of the symbols nothing changes but that names are interned. -/
def Coins (rt rt' : Runtime) : Prop := ∃ names, rt'.symbols = rt.symbols.after names

/-- The names that were interned are, under the same symbols. -/
structure Interns (rt rt' : Runtime) : Prop where
  faithful : rt.symbols.Faithful → rt'.symbols.Faithful
  ids : ∀ name id, rt.symbols.ids.get? name = some id → rt'.symbols.ids.get? name = some id
  names : ∀ (id : Nat) (name : String), rt.symbols.names[id]? = some name →
    rt'.symbols.names[id]? = some name

variable {rt rt' rt'' : Runtime}

theorem symbols_room (rt : Runtime) : rt.room.symbols = rt.symbols := by
  unfold room
  split <;> rfl

theorem symbols_alloc (rt : Runtime) (c : Cell) : (rt.alloc c).2.symbols = rt.symbols :=
  symbols_room rt

namespace Coins

theorem of_symbols (same : rt'.symbols = rt.symbols) : Coins rt rt' := ⟨[], same⟩

theorem refl (rt : Runtime) : Coins rt rt := of_symbols rfl

theorem trans (first : Coins rt rt') (second : Coins rt' rt'') : Coins rt rt'' := by
  obtain ⟨before, coined⟩ := first
  obtain ⟨later, coined'⟩ := second
  exact ⟨before ++ later, by rw [coined', coined, SymbolTable.after_append]⟩

theorem of_forget (same : rt'.forget = rt.forget) : Coins rt rt' :=
  of_symbols (congrArg (fun rt => rt.symbols) same)

theorem intern (rt : Runtime) (name : String) : Coins rt (rt.intern name).2 := ⟨[name], rfl⟩

theorem alloc (rt : Runtime) (c : Cell) : Coins rt (rt.alloc c).2 := of_symbols (symbols_alloc rt c)

theorem setConst (rt : Runtime) (m : Ref) (name : Sym) (v : Val) :
    Coins rt (rt.setConst m name v) := by
  obtain ⟨rt', named, writes⟩ := setConst_writes rt m name v
  rw [writes]
  rcases named with rfl | ⟨bound, _, -, -, -, rfl⟩ <;> exact of_symbols rfl

theorem includeOnce (rt : Runtime) (m other : Ref) : Coins rt (rt.includeOnce m other).2 := by
  rcases includeOnce_writes rt m other with same | ⟨rt', same, -, writes⟩
  · exact of_forget same
  · rw [writes]
    exact (of_forget same).trans (of_symbols rfl)

theorem aliasMethod (rt : Runtime) (m : Ref) (newName oldName : Sym) :
    Coins rt (rt.aliasMethod m newName oldName).2 := by
  rcases aliasMethod_writes rt m newName oldName with same | ⟨rt', x, same, writes⟩
  · exact of_forget same
  · rw [writes]
    exact (of_forget same).trans (of_symbols rfl)

theorem removeMethod (rt : Runtime) (m : Ref) (name : Sym) :
    Coins rt (rt.removeMethod m name).2 := by
  rcases removeMethod_writes rt m name with same | writes
  · rw [same]
    exact refl rt
  · rw [writes]
    exact of_symbols rfl

theorem subclass (rt : Runtime) (sup : Ref) (name : Option String) (tag : Option Tag) :
    Coins rt (rt.subclass sup name tag).2 := by
  rcases subclass_cases rt sup name tag with ⟨e, same⟩ | ⟨_, made, -, same⟩
  · rw [same]
    exact refl rt
  · rw [same]
    exact alloc rt _

theorem singletonClass (rt : Runtime) (v : Val) : Coins rt (rt.singletonClass v).2 :=
  singletonClass_induct (refl rt) (fun _ _ => of_symbols (symbols_room rt))
    (fun _ _ _ _ before => before.trans (of_symbols (symbols_room _))) v

theorem failureClass (rt : Runtime) (e : Failure) : Coins rt (rt.failureClass e).2 :=
  intern rt e.kind.className

theorem act {α : Type} (action : Action α) (rt : Runtime) : Coins rt (action.run rt).2 := by
  cases action with
  | intern name => exact intern rt name
  | newArray | newTable | newString | newFloat | newObject | newProc | newBound | newModule =>
    exact alloc rt _
  | hold v =>
    refine of_symbols ?_
    simp only [Action.run, Runtime.hold]
    split <;> rfl
  | releaseTopLevel =>
    refine of_symbols ?_
    simp only [Action.run, Runtime.releaseTopLevel]
    split <;> rfl
  | subclass sup name tag => exact subclass rt sup name tag
  | setConst m name v => exact setConst rt m name v
  | findConst m name => exact of_forget (findConst_forget rt m name)
  | includeOnce m other => exact includeOnce rt m other
  | ancestry m => exact of_forget (ancestry_forget rt m)
  | singletonClass v => exact singletonClass rt v
  | isA v m => exact of_forget (ancestry_forget rt (rt.classOf v))
  | failureClass e => exact failureClass rt e
  | failureIsA e m => exact (failureClass rt e).trans (of_forget (failureIsA_forget rt e m))
  | aliasMethod m newName oldName => exact aliasMethod rt m newName oldName
  | removeMethod m name => exact removeMethod rt m name
  | findMethod cls name after exclude => exact of_forget (findMethod_forget rt cls name after exclude)
  | _ => exact of_symbols rfl

theorem move (move : Move) (rt : Runtime) : Coins rt (move.run rt).2 := by
  cases other : move.isAct with
  | true =>
    cases move with
    | act action => exact act action rt
    | _ => cases other
  | false => exact of_symbols (congrArg (fun rt => rt.symbols) (aside_move other))

theorem after (moves : List Move) (rt : Runtime) : Coins rt (rt.after moves) :=
  Machine.kept_after (I := Coins rt) (fun step rt' before => before.trans (move step rt'))
    (refl rt) moves

end Coins

namespace Interns

theorem of_coins (coins : Coins rt rt') : Interns rt rt' := by
  obtain ⟨names, coined⟩ := coins
  exact {
    faithful before := coined ▸ SymbolTable.faithful_after before names
    ids _ _ found := coined ▸ SymbolTable.ids_after found names
    names _ _ named := coined ▸ SymbolTable.names_after named names }

theorem refl (rt : Runtime) : Interns rt rt := of_coins (.refl rt)

theorem trans (first : Interns rt rt') (second : Interns rt' rt'') : Interns rt rt'' where
  faithful before := second.faithful (first.faithful before)
  ids name id found := second.ids name id (first.ids name id found)
  names id name named := second.names id name (first.names id name named)

theorem intern (rt : Runtime) (name : String) : Interns rt (rt.intern name).2 :=
  of_coins (.intern rt name)

theorem alloc (rt : Runtime) (c : Cell) : Interns rt (rt.alloc c).2 := of_coins (.alloc rt c)

theorem move (move : Move) (rt : Runtime) : Interns rt (move.run rt).2 := of_coins (.move move rt)

end Interns

/-! ## From the start on -/

theorem Coins.boot (config : Config) : Coins (bare config) (Runtime.boot config) := by
  refine boot_relates .refl .trans (fun _ _ => .setConst ..) fun _ boots => ?_
  cases boots with
  | includes m other => exact .includeOnce ..
  | singleton => exact .singletonClass ..
  | handlers => exact .alloc _ (.array CoreClass.array.ref #[])
  | method => exact .of_symbols rfl
  | release => exact .of_symbols rfl

/-- Whatever a run does, its symbol table is one that interning has made out of the stock names. -/
theorem symbols_after (config : Config) (moves : List Move) :
    ∃ names, ((boot config).after moves).symbols = SymbolTable.stock.after names := by
  obtain ⟨names, coined⟩ := (Coins.boot config).trans (.after moves _)
  have start : (bare config).symbols = .initial := rfl
  rw [start, SymbolTable.initial_eq, ← SymbolTable.after_append] at coined
  exact ⟨_, coined⟩

theorem inverse_symbols (config : Config) (moves : List Move) :
    ((boot config).after moves).symbols.Inverse := by
  obtain ⟨names, coined⟩ := symbols_after config moves
  exact coined ▸ SymbolTable.inverse_stock.after names

theorem faithful_boot (config : Config) : (boot config).symbols.Faithful :=
  (Interns.of_coins (.boot config)).faithful SymbolTable.faithful_initial

/-- The symbol that a name is given in a run is the symbol of that name, and of no other, in all that
the run does later. -/
theorem stands_for_rest (config : Config) (moves later : List Move) (name : String) :
    let interned := ((boot config).after moves).intern name
    (interned.2.after later).symbols.Stands interned.1 name := by
  intro interned
  obtain ⟨names, coined⟩ := Coins.after later interned.2
  rw [coined]
  exact (inverse_symbols config moves).stands_after name names

/-- An interned name is the one that its symbol is found under, and the name of that symbol. -/
theorem interned_intern (faithful : rt.symbols.Faithful) (name : String) :
    let (s, left) := rt.intern name
    left.symbols.ids.get? name = some s.id ∧ left.symbols.names[s.id]? = some name := by
  simp only [Runtime.intern, SymbolTable.intern]
  split
  next id found => exact ⟨found, faithful name id found⟩
  next => exact ⟨Table.get?_insert_self .., Array.getElem?_push_size⟩

end Runtime
end ObjectRuntime
