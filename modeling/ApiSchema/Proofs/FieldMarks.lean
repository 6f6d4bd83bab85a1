import ApiSchema.Proofs.Building
import ApiSchema.Proofs.Values

/-!
# Marks of fields

A field of an object that a body produces is marked as required or as included under a condition. The marks are set in
several places: an entry marks its value unless a wrapper has done so, and entries under a condition are marked again
whatever they were. All in all every field has exactly one of the two marks, at any depth (`shapeIn_marked`).

Values have no mark of a requirement before they become fields, and everything inside of them is marked already. So
these values and fields are a stock (`stock_marked`).
-/
namespace ApiSchema

/-! ## Properties at any depth -/

namespace Node

/-- All properties of all objects in a schema are of one sort. -/
def Throughout (P : Node → Prop) (n : Node) : Prop := ∀ o ∈ n.walk, ∀ p ∈ o.properties, P p.2

variable {P Q : Node → Prop} {n : Node}

theorem throughout_iff : n.Throughout P ↔ (∀ p ∈ n.properties, P p.2) ∧ ∀ c ∈ n.children, c.Throughout P := by
  constructor
  · intro h
    exact ⟨h n (mem_walk.2 (.inl rfl)), fun c hc o ho => h o (mem_walk.2 (.inr ⟨c, hc, ho⟩))⟩
  · rintro ⟨hn, hc⟩ o ho
    rcases mem_walk.1 ho with rfl | ⟨c, hmem, ho⟩
    · exact hn
    · exact hc c hmem o ho

theorem Throughout.mono (h : n.Throughout P) (hPQ : ∀ m, P m → Q m) : n.Throughout Q :=
  fun o ho p hp => hPQ p.2 (h o ho p hp)

/-- What is inside of a node does not depend on its own facets. -/
theorem Throughout.mapFacets (h : n.Throughout P) (g : Facets → Facets) : (n.mapFacets g).Throughout P := by
  rw [throughout_iff] at h ⊢
  rw [Node.mapFacets, properties_withFacets, children_withFacets]
  exact h

theorem throughout_scalar (k : Scalar) (f : Facets) : (Node.scalar k f).Throughout P :=
  throughout_iff.2 ⟨fun _ hp => absurd hp List.not_mem_nil, fun _ hc => absurd hc List.not_mem_nil⟩

theorem throughout_array (f : Facets) (h : n.Throughout P) : (Node.array f n).Throughout P :=
  throughout_iff.2 ⟨fun _ hp => absurd hp List.not_mem_nil, fun _ hc => List.mem_singleton.1 hc ▸ h⟩

theorem throughout_object (f : Facets) {props : Entries Node} :
    (Node.object f props).Throughout P ↔ ∀ p ∈ props, P p.2 ∧ p.2.Throughout P := by
  rw [throughout_iff]
  constructor
  · rintro ⟨hp, hc⟩ p hmem
    exact ⟨hp p hmem, hc p.2 (List.mem_map.2 ⟨p, hmem, rfl⟩)⟩
  · intro h
    refine ⟨fun p hp => (h p hp).1, fun c hc => ?_⟩
    obtain ⟨p, hp, rfl⟩ := List.mem_map.1 hc
    exact (h p hp).2

/-- A field that is either required or included under a condition. -/
def IsMarked (n : Node) : Prop := n.facets.required = !n.facets.conditional

end Node

namespace Shape

open Source

variable {σ : Type}

/-! ## Values and fields -/

/-- A field of an object: it is marked, and so are the fields inside of it. -/
structure MarkedField (n : Node) : Prop where
  worded : n.Worded
  marked : n.IsMarked
  inner : n.Throughout fun m => m.Worded ∧ m.IsMarked

/-- A value that may become a field: the fields inside of it are marked. -/
structure Content (n : Node) : Prop where
  worded : n.Worded
  unmarked : n.facets.required = false
  inner : n.Throughout fun m => m.Worded ∧ m.IsMarked

theorem Content.field {n : Node} (h : Content n) : MarkedField (fieldNode (some n)) := by
  unfold fieldNode
  dsimp only
  split
  · rename_i hc
    exact ⟨h.worded, by rw [Node.IsMarked, h.unmarked, hc]; rfl, h.inner⟩
  · rename_i hc
    refine ⟨?_, ?_, h.inner.mapFacets _⟩
    · intro d hd
      rw [Node.withRequired, Node.mapFacets, Node.facets_withFacets] at hd
      exact h.worded d hd
    · rw [Node.IsMarked, Node.withRequired, Node.mapFacets, Node.facets_withFacets, Bool.eq_false_iff.2 hc]
      rfl

theorem content_of_made {n : Node} (h : Made n) : Content n := by
  obtain ⟨kind, format, h⟩ := h
  refine ⟨worded_ofKind h, ?_, ?_⟩
  · rcases kind with k | _ | _ | _ <;> cases h <;> rfl
  · rcases kind with k | _ | _ | _
    · cases h
      exact Node.throughout_scalar k _
    · cases h
      exact Node.throughout_array _ (Node.throughout_scalar .string _)
    · cases h
      exact (Node.throughout_object _).2 fun _ hp => absurd hp List.not_mem_nil
    · cases h

/-- Values without a mark of a requirement, and fields with one of the two marks, lead to nothing else. -/
theorem stock_marked : Stock (fun _ => Content) MarkedField where
  worded h := h.worded
  wordedField h := h.worded
  loose h := h
  made := content_of_made
  array h := ⟨worded_of_none rfl, rfl, Node.throughout_array _ h.inner⟩
  object h := ⟨worded_of_none rfl, rfl,
    (Node.throughout_object _).2 fun p hp => ⟨⟨(h p hp).worded, (h p hp).marked⟩, (h p hp).inner⟩⟩
  properties h p hp := by
    obtain ⟨⟨hw, hm⟩, hi⟩ := (Node.throughout_object _).1 h.inner p hp
    exact ⟨hw, hm, hi⟩
  nullable b h := by
    refine ⟨?_, ?_, h.inner.mapFacets _⟩
    · intro d hd
      rw [Node.mapFacets, Node.facets_withFacets] at hd
      exact h.worded d hd
    · rw [Node.mapFacets, Node.facets_withFacets]
      exact h.unmarked
  field := Content.field
  included text h := by
    refine ⟨worded_included h.worded text, ?_, h.inner.mapFacets _⟩
    rw [Node.mapFacets, Node.facets_withFacets]
    rfl
  includedField text h := by
    refine ⟨worded_included h.worded text, ?_, h.inner.mapFacets _⟩
    rw [Node.IsMarked, Node.mapFacets, Node.facets_withFacets]
    rfl

/-! ## Bodies -/

/-- Without classes and attributes to ask for, every field of every object in the shape of a body is required or
included under a condition, and not both. -/
theorem shapeIn_marked (T : Tables) (body : Tree) (l : σ) {n : Node}
    (h : result (shapeIn T ({} : Resolvers (ExceptT Problem (StateM σ))) body) l = .ok (some n)) :
    ∀ o ∈ n.walk, ∀ p ∈ o.properties, p.2.IsMarked := by
  have hends : (ending σ fun _ => True).Rel (Options fun v => Content (v ())) fun _ => shapeIn T {} body :=
    shapeIn_rel (N := stock_marked.joint _) (fun _ _ => trivial) (fun _ => Weave.failureO _)
      (fun _ => Weave.pure _ .none)
      fun o _ _ _ => .of_root (fun _ => trivial) o
  rcases hends l with ⟨o, ho, hc⟩ | ⟨p, hp, -⟩
  · cases ho.symm.trans h
    exact (hc.ifSome n rfl).inner.mono fun _ hm => hm.2
  · cases hp.symm.trans h

open Building in
/-- Entries that a call includes if a condition holds, which is one word. -/
def merged (condition : String) (items : List Written) : Written :=
  let arguments := "(" ++ condition ++ ", " ++ (display none items 0).text ++ ")"
  whole .dictionarySplat none ("**self.merge_when" ++ arguments) fun start =>
    [whole .call none ("self.merge_when" ++ arguments) (fun start =>
      [whole .attribute (some .function) "self.merge_when" (fun start =>
        [leaf .identifier (some .object) "self" start,
          leaf .identifier (some .attribute) "merge_when" (start + 5)]) start,
      whole .argumentList (some .arguments) arguments (fun start =>
        [leaf .identifier none condition (start + 1), display none items (start + condition.length + 3)])
        (start + 15)]) (start + 2)]

open Building in
/-- A dictionary in a dictionary, with entries of its own and under two kinds of conditions. -/
def mixedBody : Tree :=
  Building.bodyOf [
    statement (binding "v" [entry "'a'" .integer "1", merged "c" [entry "'b'" .integer "2", entry "'a'" .integer "3"],
      given "c" [entry "'d'" .integer "4"], entry "'b'" .integer "5"]),
    statement (binding "u" [entry "'v'" .identifier "v"]), returned "u"]

theorem shapeIn_marked_mixed : ∃ n,
    result (shapeIn (m := ExceptT Problem (StateM Unit)) {} {} mixedBody) () = .ok (some n) ∧
    n.properties.map (fun p => (p.1, p.2.properties.map fun q => (q.1, q.2.facets.required))) =
      [("v", [("a", false), ("b", true), ("d", false)])] ∧
    ∀ o ∈ n.walk, ∀ p ∈ o.properties, p.2.IsMarked := by
  have hfields : (result (shapeIn (m := ExceptT Problem (StateM Unit)) {} {} mixedBody) ()).toOption.join.map
      (fun n => n.properties.map fun p => (p.1, p.2.properties.map fun q => (q.1, q.2.facets.required))) =
        some [("v", [("a", false), ("b", true), ("d", false)])] := by decide +kernel
  obtain ⟨n, hn, hfields⟩ := Option.map_eq_some_iff.1 hfields
  have hresult := ok_of_toOption (Option.join_eq_some_iff.1 hn)
  exact ⟨n, hresult, hfields, shapeIn_marked {} mixedBody () hresult⟩

end Shape
end ApiSchema
