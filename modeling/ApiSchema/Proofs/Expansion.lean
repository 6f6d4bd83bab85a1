import ApiSchema.Proofs.Building
import ApiSchema.Proofs.Readings
import Mathlib.Tactic.Choose

/-!
# Names that are looked through

A local name is looked through unless that is being done already. So a reading can keep the names at work
in a state: it puts a name there before it reads what the name is bound to, and takes the name away
afterwards, with or without a result (`whileAt`, `Body.tracked`). Such a reading has a budget of names
that may be nested, and gives up beyond it.

It never gives up if the budget is the number of names that the body binds. It gives what `shapeIn`
gives, and every reading of an expression leaves the names at work as it found them (`shapeIn_tracked`).
-/
namespace ApiSchema.Shape

open Source

variable {m : Type → Type} [Monad m] {α β : Type}

/-! ## Names at work -/

/-- Computations over the names at work, which may give up. -/
abbrev Tracking (m : Type → Type) := StateT (List String) (OptionT m)

def Tracking.lift (x : m α) : Tracking m α := StateT.lift (OptionT.lift x)

def Tracking.giveUp : Tracking m α := StateT.lift failure

/-- A computation during which a name is at work, unless it is already. -/
def whileAt (name : String) (instead : α) (x : Tracking m α) : Tracking m α := do
  if (← get).contains name then return instead
  modify (name :: ·)
  let a ← x
  modify (·.erase name)
  return a

/-- A computation does not give up, has the result of another one and leaves the names at work as it
found them. -/
def Restores (names : List String) (x : m α) (y : Tracking m α) : Prop :=
  (y.run names).run = (fun a => some (a, names)) <$> x

section

variable [LawfulMonad m] {names : List String} {name : String}

theorem restores_pure (a : α) : Restores names (pure a : m α) (pure a) := by
  simp [Restores]

theorem restores_bind {x : m α} {y : Tracking m α} {f : α → m β} {g : α → Tracking m β}
    (hx : Restores names x y)
    (hf : ∀ a, Restores names (f a) (g a)) : Restores names (x >>= f) (y >>= g) := by
  unfold Restores at hx hf ⊢
  simp [hx, hf, Option.elimM]

theorem restores_lift (x : m α) : Restores names x (Tracking.lift x) := by
  unfold Restores Tracking.lift
  simp

/-- A name that is not at work yet is at work for the time of the computation only. -/
theorem restores_whileAt {x : m α} {y : Tracking m α} (hname : name ∉ names)
    (h : Restores (name :: names) x y) (a : α) :
    Restores names x (whileAt name a y) := by
  unfold Restores at h ⊢
  unfold whileAt
  simp [hname, h]

theorem restores_whileAt_of_mem (hname : name ∈ names) (a : α) (y : Tracking m α) :
    Restores names (pure a) (whileAt name a y) := by
  unfold Restores whileAt
  simp [hname]

end

/-! ## Bodies -/

variable [MonadLiftT Attempt m]

/-- A reading in an inner scope; without one it gives up. -/
def within (inner : Option (Scope (Tracking m))) (read : Scope (Tracking m) → Tracking m α) :
    Tracking m α :=
  inner.elim Tracking.giveUp read

def Resolvers.tracked (r : Resolvers m) : Resolvers (Tracking m) :=
  ⟨r.nested.map fun f text => .lift (f text), r.member.map fun f path => .lift (f path)⟩

namespace Body

variable (b : Body m)

/-- What a name is bound to, with the name at work while it is looked through. -/
def trackedBinding? (inner : Option (Scope (Tracking m))) (name : String) :
    Option (Binding (Tracking m)) :=
  (b.bindings.get? name).map fun
    | .dictionary _ entries =>
      let object := OptionT.mk (whileAt name none (OptionT.lift (within inner fun s => do
        return Node.objectOf (Entries.ofPairs (← entriesOf s (entries ++ b.updatesOf name))))).run)
      { shape := fun () => object
        value := fun _ => object
        entries := fun () => whileAt name [] (within inner (entriesOf · entries)) }
    | e =>
      { shape := fun () => OptionT.mk (whileAt name none (within inner fun s => (shapeOf s e).run))
        value := fun key => OptionT.mk (whileAt name none (within inner fun s =>
          (valueOf s (key.filter (!·.isEmpty) <|> some name) e).run))
        entries := fun () => return [] }

def trackedIn (inner : Option (Scope (Tracking m))) : Scope (Tracking m) :=
  ⟨b.tables, b.resolvers.tracked, b.trackedBinding? inner⟩

/-- The scope of a body in which at most so many more names can be nested. -/
def tracked : Nat → Scope (Tracking m)
  | 0 => b.trackedIn none
  | n + 1 => b.trackedIn (some (tracked n))

/-- The scope of a body while some names are at work. -/
def during (n : Nat) (names : List String) : Scope m := ⟨b.tables, b.resolvers, b.binding? n names⟩

/-- How many names are bound and not at work. -/
def pending (names : List String) : Nat := (b.bindings.filter fun e => !names.contains e.1).length

def ofTree (tables : Tables) (resolvers : Resolvers m) (body : Source.Tree) : Body m :=
  ⟨tables, resolvers, bindingsOf body, updatesIn body⟩

end Body

/-- The shape of the data that a body produces, with a budget of names that may be nested. -/
def trackedShapeIn (budget : Nat) (tables : Tables) (resolvers : Resolvers m) (body : Source.Tree) :
    Tracking m (Option Node) :=
  firstShape ((Body.ofTree tables resolvers body).tracked budget) ((producedIn body).map Expr.ofTree)

section

variable [LawfulMonad m] {names : List String} {name : String}

/-! ## The two readings -/

/-- Readings without the names at work and with them. -/
abbrev Run (m : Type → Type) : Bool → Type → Type
  | true => m
  | false => Tracking m

instance : (b : Bool) → Monad (Run m b)
  | true => inferInstanceAs (Monad m)
  | false => inferInstanceAs (Monad (Tracking m))

instance : (b : Bool) → LawfulMonad (Run m b)
  | true => inferInstanceAs (LawfulMonad m)
  | false => inferInstanceAs (LawfulMonad (Tracking m))

instance : (b : Bool) → MonadLiftT Attempt (Run m b)
  | true => inferInstanceAs (MonadLiftT Attempt m)
  | false => inferInstanceAs (MonadLiftT Attempt (Tracking m))

/-- Two computations are one that gives related values, and the second restores the names at work. -/
def Joined (names : List String) (R : (Bool → α) → Prop) (x : m α) (y : Tracking m α) : Prop :=
  ∃ z : m {v : Bool → α // R v}, x = (fun v => v.1 true) <$> z ∧
    (y.run names).run = (fun v => some (v.1 false, names)) <$> z

section

variable {R : (Bool → α) → Prop} {S : (Bool → β) → Prop} {x : m α} {y : Tracking m α}

omit [MonadLiftT Attempt m] in
theorem joined_of_restores (hR : ∀ a, R fun _ => a) (h : Restores names x y) : Joined names R x y := by
  refine ⟨(fun a => ⟨fun _ => a, hR a⟩) <$> x, ?_, ?_⟩
  · simp
  · rw [h]
    simp

omit [MonadLiftT Attempt m] in
theorem Joined.restores (h : Joined names R x y) (hR : ∀ v, R v → v true = v false) :
    Restores names x y := by
  obtain ⟨z, rfl, hz⟩ := h
  have hvalue : (fun v : {v // R v} => some (v.1 false, names)) = fun v => some (v.1 true, names) :=
    funext fun v => by rw [hR v.1 v.2]
  rw [Restores, hz, hvalue, Functor.map_map]

omit [MonadLiftT Attempt m] in
theorem Joined.bind {f : α → m β} {g : α → Tracking m β} (h : Joined names R x y)
    (hf : ∀ v, R v → Joined names S (f (v true)) (g (v false))) :
    Joined names S (x >>= f) (y >>= g) := by
  obtain ⟨z, rfl, hz⟩ := h
  choose next hnext hnext' using hf
  refine ⟨z >>= fun v => next v.1 v.2, ?_, ?_⟩
  · simp only [map_bind, bind_map_left]
    exact bind_congr fun v => hnext v.1 v.2
  · simp only [StateT.run_bind, OptionT.run_bind, hz, Option.elimM, map_bind, bind_map_left,
      Option.elim_some]
    exact bind_congr fun v => hnext' v.1 v.2

omit [MonadLiftT Attempt m] in
theorem Joined.mono {R' : (Bool → α) → Prop} (h : Joined names R x y) (hR : ∀ v, R v → R' v) :
    Joined names R' x y := by
  obtain ⟨z, rfl, hz⟩ := h
  refine ⟨(fun v => ⟨v.1, hR v.1 v.2⟩) <$> z, ?_, ?_⟩
  · simp
  · simp [hz]

end

/-- Computations that restore the names at work, beside those without. -/
def restoring (m : Type → Type) [Monad m] [LawfulMonad m] [MonadLiftT Attempt m] (names : List String) :
    Weave Bool (Run m) where
  Meets _ := True
  Rel R x := Joined names R (x true) (x false)
  pure {_ _ v} h := ⟨pure ⟨v, h⟩, by simp, by simp⟩
  bind h hf := h.bind hf
  mono h hR := h.mono hR
  lifted _ := joined_of_restores (fun _ => .intro trivial) (restores_lift (liftM _))

theorem eq_const {v : Bool → α} (h : v true = v false) : v = fun _ => v true := by
  funext b
  cases b with
  | true => rfl
  | false => exact h.symm

theorem eq_of_options {v : Bool → Option α} (h : Options (fun w => w true = w false) v) :
    v true = v false := by
  cases h with
  | none => rfl
  | some h => exact congrArg some h

theorem eq_of_entered {v : Bool → Entries α} (h : Entered (fun w => w true = w false) v) :
    v true = v false := by
  obtain ⟨ps, hp⟩ := h
  exact List.map_congr_left fun p h => by rw [hp p h]

/-- The same nodes in both readings. -/
def equalStock (m : Type → Type) [Monad m] [LawfulMonad m] [MonadLiftT Attempt m] (names : List String) :
    JointStock (restoring m names) where
  Value _ v := v true = v false
  Field v := v true = v false
  Property v := v true = v false
  Root _ := True
  loose h := h
  made _ := rfl
  constant _ _ := joined_of_restores (fun _ => .intro rfl) (restores_lift (liftM _))
  refused _ := joined_of_restores (fun _ => .const fun _ _ => rfl) (restores_lift (liftM _))
  array h := congrArg Node.arrayOf h
  object h := congrArg Node.objectOf (eq_of_entered h)
  nullable h := congrArg Node.asNullable h
  declared h _ := congrArg (declaredOrNamed · _) h
  field h := congrArg (fieldNode <| some ·) h
  property h := h
  included text h := by
    rw [eq_const h]
    exact joined_of_restores (fun _ => rfl) (restores_lift (liftM _))
  includedField text h := by
    rw [eq_const h]
    exact joined_of_restores (fun _ => rfl) (restores_lift (liftM _))
  properties h _ := by
    rw [eq_const h]
    exact .const fun _ _ => .const fun _ _ => rfl
  arithmetic h _ := congrArg (arithmeticNode <| some ·) h
  arrays h _ := by
    rw [eq_const h]
    exact .const fun _ _ => rfl

/-- What a name is bound to is the same in both readings. -/
structure BoundAlike (names : List String) (b : Option (Binding m))
    (b' : Option (Binding (Tracking m))) : Prop where
  shape : Restores names (b.elim failure (·.shape ())).run (b'.elim failure (·.shape ())).run
  value : ∀ key, Restores names (b.elim failure (·.value key)).run (b'.elim failure (·.value key)).run
  entries : Restores names (b.elim (return []) (·.entries ())) (b'.elim (return []) (·.entries ()))

/-- The same is read from both scopes. -/
structure Alike (names : List String) (s : Scope m) (s' : Scope (Tracking m)) : Prop where
  tables : s'.tables = s.tables
  classNode : ∀ text, Restores names (s.classNode text).run (s'.classNode text).run
  attributeNode : ∀ text, Restores names (s.attributeNode text) (s'.attributeNode text)
  bound : ∀ name, BoundAlike names (s.bound name) (s'.bound name)

/-- The scopes of the two readings. -/
def bothScopes (s : Scope m) (s' : Scope (Tracking m)) : (b : Bool) → Scope (Run m b)
  | true => s
  | false => s'

section

variable {s : Scope m} {s' : Scope (Tracking m)}

theorem Alike.scopes (h : Alike names s s') :
    Scopes (equalStock m names) s.tables (fun _ => true) (bothScopes s s') where
  lawful := inferInstance
  tables b := by
    cases b with
    | true => rfl
    | false => exact h.tables
  meets _ _ := trivial
  classNode text := joined_of_restores (fun _ => .const fun _ _ => rfl) (h.classNode text)
  attributeNode text := joined_of_restores (fun _ => .const fun _ _ => rfl) (h.attributeNode text)
  shape name := joined_of_restores (fun _ => .const fun _ _ => rfl) (h.bound name).shape
  value name key := joined_of_restores (fun _ => .const fun _ _ => rfl) ((h.bound name).value key)
  entries name := joined_of_restores (fun _ => .const fun _ _ => rfl) (h.bound name).entries

theorem shapeOf_alike (h : Alike names s s') (e : Expr) :
    Restores names (shapeOf s e).run (shapeOf s' e).run :=
  Joined.restores (shapeOf_rel h.scopes e fun o _ => .of_root (fun _ => trivial) o) fun _ =>
    eq_of_options

theorem valueOf_alike (h : Alike names s s') (key : Option String) (e : Expr) :
    Restores names (valueOf s key e).run (valueOf s' key e).run :=
  Joined.restores (valueOf_rel h.scopes key e fun o _ => .of_root (fun _ => trivial) o) fun _ =>
    eq_of_options

theorem splatOf_alike (h : Alike names s s') (e : Expr) : Restores names (splatOf s e) (splatOf s' e) :=
  Joined.restores (splatOf_rel h.scopes e fun o _ => .of_root (fun _ => trivial) o) fun _ =>
    eq_of_entered

theorem entriesOf_alike (h : Alike names s s') (es : List (EntryKey × Expr)) :
    Restores names (entriesOf s es) (entriesOf s' es) :=
  Joined.restores (entriesOf_rel h.scopes es fun o _ => .of_root (fun _ => trivial) o) fun _ =>
    eq_of_entered

theorem firstShape_alike (h : Alike names s s') (es : List Expr) :
    Restores names (firstShape s es) (firstShape s' es) :=
  Joined.restores (firstShape_rel h.scopes es fun o _ => .of_root (fun _ => trivial) o) fun _ =>
    eq_of_options

end

variable {b : Body m} {e : Expr}

omit [Monad m] [MonadLiftT Attempt m] [LawfulMonad m] in
/-- One more name at work is one name less that can be looked through. -/
theorem pending_cons_lt (he : b.bindings.get? name = some e) (hname : name ∉ names) :
    b.pending (name :: names) < b.pending names := by
  have hfilter : (b.bindings.filter fun e => !(name :: names).contains e.1) =
      (b.bindings.filter fun e => !names.contains e.1).filter fun e => e.1 != name := by
    rw [List.filter_filter]
    refine List.filter_congr fun e _ => ?_
    rw [List.contains_cons, Bool.not_or]
    rfl
  unfold Body.pending
  rw [hfilter]
  refine List.length_filter_lt_length_iff_exists.2
    ⟨(name, e), List.mem_filter.2 ⟨Entries.mem_of_get? he, ?_⟩, ?_⟩
  · simpa using hname
  · simp

omit [LawfulMonad m] in
theorem binding?_of_mem (hname : name ∈ names) (n : Nat) : b.binding? n names name = none := by
  cases n with
  | zero => rfl
  | succ n => rw [Body.binding?, if_pos (by simpa using hname)]

omit [LawfulMonad m] in
theorem binding?_of_none (he : b.bindings.get? name = none) (n : Nat) :
    b.binding? n names name = none := by
  cases n with
  | zero => rfl
  | succ n =>
    rw [Body.binding?, he]
    split
    · rfl
    · rfl

section

variable {inner : Option (Scope (Tracking m))} {k : Nat}

theorem classNode_tracked (text : String) :
    Restores names ((b.during k names).classNode text).run ((b.trackedIn inner).classNode text).run := by
  unfold Scope.classNode Body.during Body.trackedIn Resolvers.tracked
  cases b.resolvers.nested with
  | none => exact restores_pure none
  | some f =>
    dsimp only [Option.map_some]
    split
    · exact restores_lift (f text)
    · exact restores_pure none

theorem attributeNode_tracked (text : String) :
    Restores names ((b.during k names).attributeNode text) ((b.trackedIn inner).attributeNode text) := by
  unfold Scope.attributeNode Body.during Body.trackedIn Resolvers.tracked
  cases b.resolvers.member with
  | none => exact restores_pure none
  | some f =>
    cases ownPath? text with
    | none => exact restores_pure none
    | some path => exact restores_lift (f path)

theorem boundAlike_of_none (he : b.bindings.get? name = none) :
    BoundAlike names ((b.during k names).bound name) ((b.trackedIn inner).bound name) := by
  have hbound : (b.during k names).bound name = none := binding?_of_none he k
  have hbound' : (b.trackedIn inner).bound name = none := congrArg (Option.map _) he
  rw [hbound, hbound']
  exact ⟨restores_pure none, fun _ => restores_pure none, restores_pure []⟩

theorem boundAlike_of_mem (he : b.bindings.get? name = some e) (hname : name ∈ names) :
    BoundAlike names ((b.during k names).bound name) ((b.trackedIn inner).bound name) := by
  have hbound : (b.during k names).bound name = none := binding?_of_mem hname k
  have hbound' : (b.trackedIn inner).bound name = b.trackedBinding? inner name := rfl
  unfold Body.trackedBinding? at hbound'
  rw [he, Option.map_some] at hbound'
  rw [hbound, hbound']
  refine ⟨?_, fun key => ?_, ?_⟩
  · cases e <;> exact restores_whileAt_of_mem hname none _
  · cases e <;> exact restores_whileAt_of_mem hname none _
  · cases e with
    | dictionary t entries => exact restores_whileAt_of_mem hname [] _
    | _ => exact restores_pure []

/-- A name is looked through in the scope in which it is at work. -/
theorem boundAlike_of_alike {s : Scope (Tracking m)} (he : b.bindings.get? name = some e)
    (hname : name ∉ names) (h : Alike (name :: names) (b.during k (name :: names)) s) :
    BoundAlike names ((b.during (k + 1) names).bound name) ((b.trackedIn (some s)).bound name) := by
  have hbound : (b.during (k + 1) names).bound name = b.binding? (k + 1) names name := rfl
  have hbound' : (b.trackedIn (some s)).bound name = b.trackedBinding? (some s) name := rfl
  unfold Body.trackedBinding? at hbound'
  unfold Body.binding? at hbound
  rw [if_neg (by simpa using hname), he, Option.map_some] at hbound
  rw [he, Option.map_some] at hbound'
  rw [hbound, hbound']
  have hshape := restores_whileAt hname (shapeOf_alike h e) none
  have hvalue := fun key => restores_whileAt hname (valueOf_alike h key e) none
  cases e with
  | dictionary t entries =>
    have hobject := restores_whileAt hname
      (restores_bind (restores_bind (entriesOf_alike h (entries ++ b.updatesOf name))
      fun es => restores_pure (Node.objectOf (Entries.ofPairs es))) fun n => restores_pure (some n)) none
    exact ⟨hobject, fun _ => hobject, restores_whileAt hname (entriesOf_alike h entries) []⟩
  | _ => exact ⟨hshape, fun key => hvalue (key.filter (!·.isEmpty) <|> some name), restores_pure []⟩

theorem alike_trackedIn (h : ∀ name e, b.bindings.get? name = some e → name ∉ names →
      BoundAlike names ((b.during k names).bound name) ((b.trackedIn inner).bound name)) :
    Alike names (b.during k names) (b.trackedIn inner) := by
  refine ⟨rfl, classNode_tracked, attributeNode_tracked, fun name => ?_⟩
  cases he : b.bindings.get? name with
  | none => exact boundAlike_of_none he
  | some e =>
    by_cases hname : name ∈ names
    · exact boundAlike_of_mem he hname
    · exact h name e he hname

end

/-- A budget for all names that are not at work yet is enough, with the names at work in a state or
not. -/
theorem alike_tracked {n k : Nat} (hn : b.pending names ≤ n) (hk : b.pending names ≤ k) :
    Alike names (b.during k names) (b.tracked n) := by
  -- The names at work grow with every name that is looked through, so the induction is on the budget for
  -- any of them.
  induction n generalizing names k with
  | zero =>
    refine alike_trackedIn fun name e he hname => ?_
    have hlt := pending_cons_lt he hname
    omega
  | succ n ih =>
    refine alike_trackedIn fun name e he hname => ?_
    have hlt := pending_cons_lt he hname
    obtain ⟨k, rfl⟩ : ∃ k', k = k' + 1 := ⟨k - 1, by omega⟩
    exact boundAlike_of_alike he hname (ih (by omega) (by omega))

omit [Monad m] [MonadLiftT Attempt m] [LawfulMonad m] in
theorem pending_nil (b : Body m) : b.pending [] = b.bindings.length := by
  simp [Body.pending]

/-- A body is read to its end with a budget for the names that it binds, and leaves no name at work.
Every expression that is read on the way leaves the names at work as it found them, whichever they are
and whether the expression has a shape or not. -/
theorem shapeIn_tracked (tables : Tables) (resolvers : Resolvers m) (body : Source.Tree) :
    (∀ budget, (bindingsOf body).length ≤ budget →
      Restores [] (shapeIn tables resolvers body) (trackedShapeIn budget tables resolvers body)) ∧
    ∀ names budget, (Body.ofTree tables resolvers body).pending names ≤ budget →
      let s := (Body.ofTree tables resolvers body).during budget names
      let s' := (Body.ofTree tables resolvers body).tracked budget
      (∀ e, Restores names (shapeOf s e).run (shapeOf s' e).run) ∧
      (∀ key e, Restores names (valueOf s key e).run (valueOf s' key e).run) ∧
      (∀ e, Restores names (splatOf s e) (splatOf s' e)) ∧
      ∀ es, Restores names (entriesOf s es) (entriesOf s' es) := by
  refine ⟨fun budget hbudget => ?_, fun names budget hbudget => ?_⟩
  · have hpending := Nat.le_of_eq (pending_nil (Body.ofTree tables resolvers body))
    exact firstShape_alike (alike_tracked (Nat.le_trans hpending hbudget) hpending) _
  · have halike := alike_tracked hbudget hbudget
    exact ⟨shapeOf_alike halike, valueOf_alike halike, splatOf_alike halike, entriesOf_alike halike⟩

end

open Building in
/-- A dictionary that takes itself over, holds another one and is held by it, and is stored in itself. -/
def knotted : Source.Tree :=
  Building.bodyOf [statement (binding "a" [taken "a", entry "'other'" .identifier "b"]),
    statement (binding "b" [entry "'back'" .identifier "a"]),
      statement (setting "a" "'self'" .identifier "a"),
    returned "a"]

theorem shapeIn_knotted :
    Restores [] (shapeIn {} {} knotted : Attempt (Option Node)) (trackedShapeIn 2 {} {} knotted) ∧
    (shapeIn {} {} knotted : Attempt (Option Node)).toOption.join.map Node.kind = some .object :=
  ⟨(shapeIn_tracked {} {} knotted).1 2 (by decide +kernel), by decide +kernel⟩

end ApiSchema.Shape
