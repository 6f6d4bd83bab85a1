import ApiSchema.Schema.Draft

/-!
What can go wrong while a schema is inferred. A problem with a message is one that a reader of the
analysed code can mend.
-/
namespace ApiSchema

inductive Problem where
  /-- An operation on literal values that has no result. -/
  | fault (f : Fault)
  /-- Children that do not agree with the kind of a node. -/
  | shape (e : DraftError)
  /-- Source text that cannot be read. -/
  | unreadable (message : String)
  /-- A name that denotes nothing. -/
  | unresolved (message : String)

def Problem.message? : Problem → Option String
  | .fault _ => none
  | .shape e => some e.message
  | .unreadable m | .unresolved m => some m

abbrev Attempt := Except Problem

instance : MonadLift (Except Fault) Attempt := ⟨fun x => x.mapError .fault⟩

instance : MonadLift (Except DraftError) Attempt := ⟨fun x => x.mapError .shape⟩

/-! ## Attempts that succeed, and those that do not -/

section

variable {ε α β : Type}

theorem ok_of_bind {x : Except ε α} {f : α → Except ε β} {b : β} (h : (x >>= f) = .ok b) :
    ∃ a, x = .ok a ∧ f a = .ok b := by
  cases x with
  | error e => cases h
  | ok a => exact ⟨a, rfl, h⟩

theorem error_of_bind {x : Except ε α} {f : α → Except ε β} {e : ε} (h : (x >>= f) = .error e) :
    x = .error e ∨ ∃ a, x = .ok a ∧ f a = .error e := by
  cases x with
  | error e' =>
    cases h
    exact .inl rfl
  | ok a => exact .inr ⟨a, rfl, h⟩

/-- A step that was taken over from another kind of computation succeeded there. -/
theorem ok_of_mapError {ε' : Type} {x : Except ε α} {g : ε → ε'} {a : α} (h : x.mapError g = .ok a) : x = .ok a := by
  cases x with
  | error e => cases h
  | ok b => exact congrArg Except.ok (Except.ok.inj h)

theorem ok_of_toOption {x : Except ε α} {a : α} (h : x.toOption = some a) : x = .ok a := by
  cases x with
  | error e => cases h
  | ok b => exact congrArg Except.ok (Option.some.inj h)

end

end ApiSchema
