import ApiSchema.Proofs.Shaped

/-!
# Shaped bodies

The shape that a body gives is shaped in several runs if the schemas of the classes that it asks for are: shaped
families make a stock (`shapedStock`). An operand that is looked into must not be a class that one run expands and
another does not; `Rooted` says so.
-/
namespace ApiSchema.Shape

open Source

/-! ## Conditional fields -/

/-- The description of a node with one more sentence; the description was a text. -/
def addedSentence (text : String) : Option Value → Option Value
  | some (.str s) =>
    if text.isEmpty || (!s.isEmpty && Text.contains s text) then some (.str s)
    else if s.isEmpty then some (.str text)
    else some (.str (s ++ " " ++ text))
  | d => if text.isEmpty then d else some (.str text)

/-- The facets of a node that is included under a condition. -/
def includedFacets (text : String) (f : Facets) : Facets :=
  { f with conditional := true, required := false, description := addedSentence text f.description }

theorem withDescription_self {n : Node} {d : Option Value} (h : n.facets.description = d) :
    n.withFacets { n.facets with description := d } = n := by
  subst h
  cases n <;> rfl

theorem addDescription_eq {n : Node} (h : n.Worded) (text : String) :
    n.addDescription text =
      .ok (n.mapFacets fun f => { f with description := addedSentence text f.description }) := by
  change _ = Except.ok (n.withFacets { n.facets with description := addedSentence text n.facets.description })
  unfold Node.addDescription Node.mapFacets
  cases hd : n.facets.description with
  | none =>
    by_cases ht : text.isEmpty = true
    · simp [ht, addedSentence, withDescription_self hd]
    · simp [ht, addedSentence]
  | some d =>
    obtain ⟨s, rfl⟩ := h d hd
    by_cases ht : text.isEmpty = true
    · simp [ht, addedSentence, withDescription_self hd]
    · by_cases hs : s.isEmpty = true
      · simp [ht, hs, addedSentence, Value.truthy]
      · by_cases hc : Text.contains s text = true
        · simp [ht, hs, hc, addedSentence, Value.truthy, Node.describedBy, withDescription_self hd]
          rfl
        · simp [ht, hs, hc, addedSentence, Value.truthy, Node.describedBy]
          rfl

theorem included_eq {n : Node} (h : n.Worded) (text : String) :
    included text n = .ok (n.mapFacets (includedFacets text)) := by
  have hw : (n.mapFacets fun f => { f with conditional := true, required := false }).Worded := by
    intro d hd
    rw [Node.mapFacets, Node.facets_withFacets] at hd
    exact h d hd
  unfold included
  rw [addDescription_eq hw]
  cases n <;> rfl

theorem worded_included {n : Node} (h : n.Worded) (text : String) :
    (n.mapFacets (includedFacets text)).Worded := by
  intro d hd
  rw [Node.mapFacets, Node.facets_withFacets] at hd
  change addedSentence text n.facets.description = some d at hd
  unfold addedSentence at hd
  split at hd
  · split at hd
    · exact ⟨_, (Option.some.inj hd).symm⟩
    · split at hd <;> exact ⟨_, (Option.some.inj hd).symm⟩
  · split at hd
    · exact h d hd
    · exact ⟨_, (Option.some.inj hd).symm⟩

/-! ## Shaped nodes as a stock -/

section

variable {ι : Type} {M : ι → Type → Type} [∀ i, Monad (M i)] [∀ i, MonadExceptOf Problem (M i)]
  [∀ i, MonadLiftT Inference (M i)] [∀ i, MonadLiftT Attempt (M i)]
  (𝓡 : Relator ι M) {Leaf : (ι → Node) → Prop}

theorem fieldNode_shaped (hs : Steady Leaf) {v : ι → Node} (hv : Shaped Leaf v) :
    Shaped Leaf fun i => fieldNode (some (v i)) := by
  have hfield : ∀ n, fieldNode (some n) = n.mapFacets fun f => if f.conditional then f
      else { f with required := true } := by
    intro n
    unfold fieldNode Node.withRequired Node.mapFacets
    dsimp only
    split
    · cases n <;> rfl
    · rfl
  simp only [hfield]
  refine hv.mapFacets hs (fun f => ?_) fun f => ?_
  · split <;> rfl
  · split <;> rfl

theorem included_shaped (hs : Steady Leaf) (text : String) {v : ι → Node} (hv : Shaped Leaf v) :
    𝓡.Rel (Shaped Leaf) fun i => liftM (liftFault (included text (v i))) := by
  refine 𝓡.tried (.inl ⟨fun i => (v i).mapFacets (includedFacets text), ⟨?_, fun i => ?_⟩, fun i => ?_⟩)
  · exact (Grown.congruent hs).retouch (Retouch.ofFacets (g := fun _ => includedFacets text) fun _ _ => rfl) hv.grown
  · exact worded_included (hv.worded i) text
  · rw [included_eq (hv.worded i)]
    rfl

theorem declaredOrNamed_shaped (hs : Steady Leaf) {v : ι → Node} (hv : Shaped Leaf v) {named : Node}
    (hn : Shaped Leaf fun _ => named) : Shaped Leaf fun i => declaredOrNamed (v i) named := by
  refine ⟨(Grown.congruent hs).retouch (h := fun n => declaredOrNamed n named) ⟨?_, ?_, ?_⟩ hv.grown, fun i => ?_⟩
  · exact fun f => ⟨f, fun _ => rfl⟩
  · exact fun f => ⟨f, rfl, fun _ => rfl⟩
  · exact fun f => ⟨f, fun _ _ => rfl⟩
  · unfold declaredOrNamed
    split
    · intro d hd
      rw [Node.mapFacets, Node.facets_withFacets] at hd
      exact hn.worded i d hd
    · exact hv.worded i

/-- Whether a value is an array is seen at its root. -/
theorem arrays_only {v : ι → Node} (hv : Shaped Leaf v) (hr : Rooted Leaf v) :
    Options (Shaped Leaf) fun i => if (v i).kind == .array then some (v i) else none := by
  cases hr with
  | scalar k f => cases k <;> exact .none
  | array f h => exact .some hv
  | object f ps h | union f h hs => exact .none

/-- Shaped families lead to nothing else. -/
def shapedStock (hs : Steady Leaf) : JointStock 𝓡.toWeave where
  Value _ := Shaped Leaf
  Field := Shaped Leaf
  Property := Grown Leaf
  Root := Rooted Leaf
  loose h := h
  made := fun ⟨_, _, h⟩ => .const (worded_ofKind h)
  constant := 𝓡.triedSame
  refused h := 𝓡.tried (.inr ⟨_, h, fun _ => rfl⟩)
  array h := .array rfl h.grown
  object := fun ⟨_, hp⟩ => .object rfl hp
  nullable h := h.asNullable hs
  declared hv hn := declaredOrNamed_shaped hs hv hn
  field h := fieldNode_shaped hs h
  property h := h.grown
  included text h := included_shaped 𝓡 hs text h
  includedField text h := included_shaped 𝓡 hs text h
  properties _ hr := by
    cases hr with
    | object f ps h => exact .some (.intro ps h)
    | _ => exact .none
  arithmetic _ hr := by
    cases hr with
    | scalar k f => cases k <;> exact .const (worded_of_none rfl)
    | _ => exact .const (worded_of_none rfl)
  arrays hv hr := arrays_only hv hr

/-- An operand is no class, if it is shaped. -/
def Sound (Leaf : (ι → Node) → Prop) (s : (i : ι) → Scope (M i)) (o : Operand) : Prop :=
  ∀ key, 𝓡.RelO (Shaped Leaf) (fun i => o.read (s i) key) →
    𝓡.RelO (fun ns => Shaped Leaf ns ∧ Rooted Leaf ns) fun i => o.read (s i) key

variable {𝓡}

theorem Sound.looked {s : (i : ι) → Scope (M i)} {o : Operand} (h : Sound 𝓡 Leaf s o) (hs : Steady Leaf) :
    Looked (shapedStock 𝓡 hs) s o := fun _ key => h key

theorem Sound.of_no_leaf {s : (i : ι) → Scope (M i)} (o : Operand) : Sound 𝓡 (fun _ => False) s o :=
  fun _ h => 𝓡.monoO h fun _ hns => ⟨hns, hns.grown.leaf_or_rooted.resolve_left id⟩

end

end ApiSchema.Shape
