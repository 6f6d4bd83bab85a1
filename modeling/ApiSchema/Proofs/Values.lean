import ApiSchema.Proofs.Bodies

/-!
# Nodes that a body is made of

What holds of every node that a body gives in a single run. `Ends` says how a computation ends over every state, and
makes a weave (`ending`). A `Stock` of nodes is a stock for this weave (`Stock.joint`), so the values that expressions
have are in it (`valueOf_ends`), and so is the shape of a body.
-/
namespace ApiSchema

variable {σ α β : Type}

/-! ## How computations end -/

/-- Over every state, a computation gives a value with a property or meets one of some problems. -/
def Ends (E : Problem → Prop) (P : α → Prop) (x : Over σ α) : Prop :=
  ∀ l, (∃ a, result x l = .ok a ∧ P a) ∨ ∃ p, result x l = .error p ∧ E p

namespace Ends

variable {E : Problem → Prop} {P : α → Prop} {Q : β → Prop}

theorem pure {a : α} (h : P a) : Ends E P (pure a : Over σ α) := fun _ => .inl ⟨a, rfl, h⟩

theorem bind {x : Over σ α} {f : α → Over σ β} (hx : Ends E P x)
    (hf : ∀ a, P a → Ends E Q (f a)) : Ends E Q (x >>= f) := by
  intro l
  rw [result_bind]
  rcases hx l with ⟨a, ha, hP⟩ | ⟨p, hp, hE⟩
  · rw [ha]
    exact hf a hP _
  · rw [hp]
    exact .inr ⟨p, rfl, hE⟩

theorem mono {P' : α → Prop} {x : Over σ α} (hx : Ends E P x) (h : ∀ a, P a → P' a) :
    Ends E P' x := by
  intro l
  rcases hx l with ⟨a, ha, hP⟩ | hp
  · exact .inl ⟨a, ha, h a hP⟩
  · exact .inr hp

theorem tried {x : Attempt α} (h : ∀ a, x = .ok a → P a) (hp : ∀ p, x = .error p → E p) :
    Ends E P (liftM x : Over σ α) := by
  intro l
  rw [result_lift]
  cases x with
  | ok a => exact .inl ⟨a, rfl, h a rfl⟩
  | error p => exact .inr ⟨p, rfl, hp p rfl⟩

end Ends

/-- A result, if there is one, has a property. -/
def IfSome (P : α → Prop) (o : Option α) : Prop := ∀ a, o = some a → P a

theorem IfSome.none {P : α → Prop} : IfSome P none := nofun

theorem Options.ifSome {R : (Unit → α) → Prop} {v : Unit → Option α} (h : Options R v) :
    IfSome (fun a => R fun _ => a) (v ()) := by
  cases h with
  | none => exact .none
  | some h => exact fun _ ha => Option.some.inj ha ▸ h

/-- Computations of one run that end so. -/
def ending (σ : Type) (E : Problem → Prop) : Weave Unit fun _ => Over σ where
  Meets := E
  Rel R x := Ends E (fun a => R fun _ => a) (x ())
  pure h := Ends.pure h
  bind hx hf := Ends.bind hx fun _ ha => hf _ ha
  mono hx h := Ends.mono hx fun _ ha => h _ ha
  lifted h := Ends.tried (fun _ _ => .intro trivial) h

namespace Shape

open Source

/-! ## Stocks -/

/-- Nodes that what a body does with nodes leads to: `N w` for values, which are included under a condition only if `w`,
and `F` for fields. -/
structure Stock (N : Bool → Node → Prop) (F : Node → Prop) : Prop where
  worded : ∀ {w n}, N w n → n.Worded
  wordedField : ∀ {n}, F n → n.Worded
  loose : ∀ {w n}, N false n → N w n
  made : ∀ {n}, Made n → N false n
  array : ∀ {w n}, N w n → N false (Node.arrayOf n)
  object : ∀ {props : Entries Node}, (∀ p ∈ props, F p.2) → N false (Node.objectOf props)
  properties : ∀ {w f props}, N w (.object f props) → ∀ p ∈ props, F p.2
  nullable : ∀ {w n} (b : Bool), N w n → N w (n.mapFacets fun f => { f with nullable := b || f.nullable })
  field : ∀ {w n}, N w n → F (fieldNode (some n))
  included : ∀ {w n} (text : String), N w n → N true (n.mapFacets (includedFacets text))
  includedField : ∀ {n} (text : String), F n → F (n.mapFacets (includedFacets text))

/-- The values of some pairs are fields. -/
def Fields (F : Node → Prop) (ps : List (String × Node)) : Prop := ∀ p ∈ ps, F p.2

theorem fields_of_entered {F : Node → Prop} {v : Unit → Entries Node} (h : Entered (fun n => F (n ())) v) :
    Fields F (v ()) := by
  obtain ⟨ps, hp⟩ := h
  intro p hps
  obtain ⟨q, hq, rfl⟩ := List.mem_map.1 hps
  exact hp q hq

section

variable {E : Problem → Prop} {N : Bool → Node → Prop} {F : Node → Prop} (hN : Stock N F)

include hN

theorem Stock.arithmetic {w : Bool} (o : Option Node) : N w (arithmeticNode o) := by
  unfold arithmeticNode
  split <;> exact hN.loose (hN.made (made_scalar _ _))

theorem Stock.declaredOrNamed {declared named : Node} (hd : N false declared) (hn : N false named) :
    N false (declaredOrNamed declared named) := by
  unfold Shape.declaredOrNamed
  split
  · exact hN.nullable _ hn
  · exact hd

omit hN in
theorem fields_setAll {ps qs : Entries Node} (hp : Fields F ps) (hq : Fields F qs) :
    Fields F (Entries.setAll ps qs) := by
  intro p h
  rcases Entries.mem_setAll h with ⟨q, hmem, hq'⟩ | h
  · rw [hq']
    exact hq q hmem
  · exact hp p h

omit hN in
theorem fields_ofPairs {ps : List (String × Node)} (h : Fields F ps) : Fields F (Entries.ofPairs ps) :=
  fields_setAll (fun _ hp => absurd hp List.not_mem_nil) h

omit hN in
/-- Fields with a description that is a text can all be included. -/
theorem includedFields_eq (text : String) {Q : List (String × Node) → Prop}
    {x : Over σ (List (String × Node))} (hx : Ends E (fun ps => Q ps ∧ Fields Node.Worded ps) x) :
    Ends E (fun qs => ∃ ps, Q ps ∧ qs = (Entries.ofPairs ps).map fun p => (p.1, p.2.mapFacets (includedFacets text)))
      (includedFields text x) := by
  have hall : ∀ (f : String × Node → Over σ (String × Node)) (ps : List (String × Node)),
      (∀ p, p.2.Worded → f p = pure (p.1, p.2.mapFacets (includedFacets text))) → Fields Node.Worded ps →
      ps.mapM f = pure (ps.map fun p => (p.1, p.2.mapFacets (includedFacets text))) := by
    intro f ps hf hps
    induction ps with
    | nil => rfl
    | cons p ps ih =>
      obtain ⟨hp, hps⟩ := List.forall_mem_cons.1 hps
      rw [List.mapM_cons, ih hps, hf p hp]
      rfl
  refine Ends.bind hx fun ps hps => ?_
  rw [hall]
  · exact .pure ⟨ps, hps.1, rfl⟩
  · rintro ⟨key, n⟩ hn
    dsimp only at hn ⊢
    rw [included_eq hn]
    rfl
  · exact fields_ofPairs hps.2

/-- A stock of nodes is one for a single run. -/
def Stock.joint (E : Problem → Prop) : JointStock (ending σ E) where
  Value w v := N w (v ())
  Field v := F (v ())
  Property v := F (v ())
  Root _ := True
  loose h := hN.loose h
  made h := hN.made h
  constant h hp := Ends.tried (fun n hn => .intro (h n hn)) hp
  refused h := Ends.tried nofun fun _ hp => Except.error.inj hp ▸ h
  array h := hN.array h
  object h := hN.object (fields_of_entered h)
  nullable h := hN.nullable true h
  declared hd hn := hN.declaredOrNamed hd hn
  field h := hN.field h
  property h := h
  included {w v} text h := by
    change Ends E _ (liftM (liftFault (Shape.included text (v ()))))
    rw [included_eq (hN.worded h)]
    exact .pure (hN.included text h)
  includedField {v} text h := by
    change Ends E _ (liftM (liftFault (Shape.included text (v ()))))
    rw [included_eq (hN.wordedField h)]
    exact .pure (hN.includedField text h)
  properties {w v} h _ := by
    change Options _ fun _ => properties? (v ())
    generalize v () = n at h ⊢
    cases n with
    | object f ps => exact .some (.const (hN.properties h))
    | _ => exact .none
  arithmetic _ _ := hN.arithmetic _
  arrays {w v} h _ := by
    change Options _ fun _ => if (v ()).kind == .array then some (v ()) else none
    split
    · exact .some h
    · exact .none

variable {T : Tables} {binds : String → Bool} {s : Scope (Over σ)}

/-- A value is included under a condition only if a wrapper says so. -/
theorem Stock.valueOf_ends (hs : Scopes (hN.joint E) T binds fun _ => s) (key : Option String) (e : Expr) :
    Ends E (IfSome (N (wraps T binds e))) (valueOf s key e).run :=
  Ends.mono (valueOf_rel hs key e fun o _ => .of_root (fun _ => trivial) o) fun _ ho => ho.ifSome

end

end Shape
end ApiSchema
