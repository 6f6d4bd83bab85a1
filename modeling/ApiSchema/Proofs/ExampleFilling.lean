import ApiSchema.Proofs.Family
import ApiSchema.Schema.Example
import Mathlib.Data.List.Forall2

/-!
# Filling in examples

Filling in examples changes nothing but the examples of scalars and arrays that had none, and leaves placeholders alone
with everything inside of them (`Node.Filled`). Afterwards no example is missing that could be found: a scalar without
one has no value, and an array without one has items without one (`Node.Settled`). A schema in which none is missing is
kept as it is, so that filling in examples twice is the same as doing it once (`synthesize_filled`).
-/
namespace ApiSchema

variable {tables : ExampleTables} {field : Option String}

/-- The first facets, with an example if there was none. -/
inductive Facets.Filled (f : Facets) : Facets → Prop
  | kept : Filled f f
  | given (h : f.sample = none) (v : Value) : Filled f { f with sample := some v }

namespace Facets

theorem withSample_none {f : Facets} (h : f.sample = none) : { f with sample := none } = f := by
  rw [← h]

/-- The facets of an array around some items: without an example of its own it has the one of its items. -/
def around (f : Facets) (items : Node) : Facets :=
  { f with sample := f.sample.or (items.facets.sample.map fun v => .list [v]) }

theorem around_eq (f : Facets) {items : Node} (h : items.facets.sample.isSome = true → f.sample.isSome = true) :
    f.around items = f := by
  have hsame : f.sample.or (items.facets.sample.map fun v => .list [v]) = f.sample := by
    cases hs : f.sample with
    | some v => rfl
    | none => simpa [hs] using h
  rw [around, hsame]

theorem filled_around (f : Facets) (items : Node) : f.Filled (f.around items) := by
  by_cases h : items.facets.sample.isSome = true → f.sample.isSome = true
  · rw [f.around_eq h]
    exact .kept
  · obtain ⟨hitems, hs⟩ := Classical.not_imp.1 h
    obtain ⟨v, hv⟩ := Option.isSome_iff_exists.1 hitems
    rw [Option.not_isSome_iff_eq_none] at hs
    rw [around, hs, hv]
    exact .given hs (.list [v])

end Facets

namespace Node

/-- The first schema, with examples for some scalars and arrays that had none. Placeholders are as they were. -/
inductive Filled : Node → Node → Prop
  | placeholder {n : Node} (h : n.isPlaceholder = true) : Filled n n
  | scalar {k : Scalar} {f g : Facets} (hf : f.circularRef = none) (hg : f.Filled g) :
      Filled (.scalar k f) (.scalar k g)
  | array {f g : Facets} {n m : Node} (hf : f.circularRef = none) (hg : f.Filled g) (h : Filled n m) :
    Filled (.array f n) (.array g m)
  | object {f : Facets} {ps qs : Entries Node} (hf : f.circularRef = none) (hkeys : ps.keys = qs.keys)
    (h : List.Forall₂ Filled ps.values qs.values) : Filled (.object f ps) (.object f qs)
  | union {f : Facets} {v w : Node} {vs ws : List Node} (hf : f.circularRef = none) (hv : Filled v w)
    (h : List.Forall₂ Filled vs ws) : Filled (.union f v vs) (.union f w ws)

/-- No example is missing that could be found. -/
inductive Settled (tables : ExampleTables) : Option String → Node → Prop
  | placeholder {field : Option String} {n : Node} (h : n.isPlaceholder = true) : Settled tables field n
  | given {field : Option String} {k : Scalar} {f : Facets} (h : f.sample.isSome = true) :
    Settled tables field (.scalar k f)
  | without {field : Option String} {k : Scalar} {f : Facets} (h : valueFor tables (.scalar k) f field = .ok none) :
    Settled tables field (.scalar k f)
  | array {field : Option String} {f : Facets} {n : Node} (hn : Settled tables none n)
    (h : n.facets.sample.isSome = true → f.sample.isSome = true) : Settled tables field (.array f n)
  | object {field : Option String} {f : Facets} {ps : Entries Node} (h : ∀ p ∈ ps, Settled tables (some p.1) p.2) :
    Settled tables field (.object f ps)
  | union {field : Option String} {f : Facets} {v : Node} {vs : List Node} (hv : Settled tables field v)
    (h : ∀ w ∈ vs, Settled tables field w) : Settled tables field (.union f v vs)

end Node

/-! ## One node at a time -/

section

variable {k : Scalar} {f : Facets} {n m v : Node} {ps qs : Entries Node} {vs ws : List Node}

theorem synthesize_placeholder (h : n.isPlaceholder = true) : synthesize tables field n = .ok n := by
  have hcircular : n.facets.circularRef.isSome = true := h
  cases n with
  | scalar k f => exact if_pos (by rw [show f.circularRef.isSome = true from hcircular, Bool.true_or])
  | _ =>
    rw [synthesize]
    exact if_pos hcircular

theorem synthesize_given (h : f.sample.isSome = true) : synthesize tables field (.scalar k f) = .ok (.scalar k f) := by
  rw [synthesize]
  exact if_pos (by rw [h, Bool.or_true])

theorem synthesize_scalar_iff (hf : f.circularRef = none) (hs : f.sample = none) :
    synthesize tables field (.scalar k f) = .ok m ↔
      ∃ v, valueFor tables (.scalar k) f field = .ok v ∧ m = .scalar k { f with sample := v } := by
  rw [synthesize, if_neg (by simp [hf, hs])]
  cases valueFor tables (.scalar k) f field with
  | error p => simp [bind, Except.bind]
  | ok v => cases v <;> simp [bind, Except.bind, pure, Except.pure, Facets.withSample_none hs, eq_comm]

theorem synthesize_array_iff (hf : f.circularRef = none) : synthesize tables field (.array f n) = .ok m ↔
    ∃ items, synthesize tables none n = .ok items ∧ m = .array (f.around items) items := by
  rw [synthesize, if_neg (by simp [hf])]
  cases synthesize tables none n with
  | error p => simp [bind, Except.bind]
  | ok items =>
    cases hs : f.sample with
    | some v =>
      have hsame := f.around_eq fun _ : items.facets.sample.isSome = true => Option.isSome_of_mem hs
      simp [bind, Except.bind, pure, Except.pure, hsame, eq_comm]
    | none =>
      cases hv : items.facets.sample with
      | some v => simp [bind, Except.bind, pure, Except.pure, Facets.around, hs, hv, eq_comm]
      | none =>
        have hsame := f.around_eq fun h : items.facets.sample.isSome = true => by simp [hv] at h
        simp [bind, Except.bind, pure, Except.pure, hv, hsame, eq_comm]

theorem synthesizeProperties_iff : synthesizeProperties tables ps = .ok qs ↔
    List.Forall₂ (fun p q => p.1 = q.1 ∧ synthesize tables (some p.1) p.2 = .ok q.2) ps qs := by
  induction ps generalizing qs with
  | nil => cases qs <;> simp [synthesizeProperties, pure, Except.pure]
  | cons p ps ih =>
    obtain ⟨name, n⟩ := p
    rw [synthesizeProperties]
    cases hn : synthesize tables (some name) n with
    | error e => cases qs <;> simp [bind, Except.bind, hn]
    | ok m =>
      cases hps : synthesizeProperties tables ps with
      | error e => cases qs <;> simp [bind, Except.bind, ← ih, hn, hps]
      | ok rest =>
        cases qs with
        | nil => simp [bind, Except.bind, pure, Except.pure]
        | cons q qs => simp [bind, Except.bind, pure, Except.pure, ← ih, hn, hps, Prod.ext_iff]

theorem synthesizeAll_iff :
    synthesizeAll tables field vs = .ok ws ↔ List.Forall₂ (fun v w => synthesize tables field v = .ok w) vs ws := by
  induction vs generalizing ws with
  | nil => cases ws <;> simp [synthesizeAll, pure, Except.pure]
  | cons v vs ih =>
    rw [synthesizeAll]
    cases hv : synthesize tables field v with
    | error e => cases ws <;> simp [bind, Except.bind, hv]
    | ok w =>
      cases hvs : synthesizeAll tables field vs with
      | error e => cases ws <;> simp [bind, Except.bind, ← ih, hv, hvs]
      | ok rest => cases ws <;> simp [bind, Except.bind, pure, Except.pure, ← ih, hv, hvs]

theorem synthesize_object_iff (hf : f.circularRef = none) : synthesize tables field (.object f ps) = .ok m ↔
    ∃ qs, List.Forall₂ (fun p q => p.1 = q.1 ∧ synthesize tables (some p.1) p.2 = .ok q.2) ps qs ∧
      m = .object f qs := by
  simp only [← synthesizeProperties_iff]
  rw [synthesize, if_neg (by simp [hf])]
  cases synthesizeProperties tables ps <;> simp [bind, Except.bind, pure, Except.pure, eq_comm]

theorem synthesize_union_iff (hf : f.circularRef = none) : synthesize tables field (.union f v vs) = .ok m ↔
    ∃ w ws, synthesize tables field v = .ok w ∧
      List.Forall₂ (fun v w => synthesize tables field v = .ok w) vs ws ∧ m = .union f w ws := by
  simp only [← synthesizeAll_iff]
  rw [synthesize, if_neg (by simp [hf])]
  cases synthesize tables field v with
  | error p => simp [bind, Except.bind]
  | ok w => cases synthesizeAll tables field vs <;> simp [bind, Except.bind, pure, Except.pure, eq_comm]

end

/-! ## Whole schemas -/

theorem kept_of {n : Node} (h : n.facets.circularRef = none → synthesize tables field n = .ok n) :
    synthesize tables field n = .ok n := by
  by_cases hp : n.isPlaceholder = true
  · exact synthesize_placeholder hp
  · exact h (Option.not_isSome_iff_eq_none.1 hp)

theorem Node.Settled.kept {n : Node} (h : n.Settled tables field) : synthesize tables field n = .ok n := by
  induction h with
  | placeholder h => exact synthesize_placeholder h
  | given h => exact synthesize_given h
  | @without field k f h =>
    refine kept_of fun (hf : f.circularRef = none) => ?_
    cases hs : f.sample with
    | some v => exact synthesize_given (Option.isSome_of_mem hs)
    | none => exact (synthesize_scalar_iff hf hs).2 ⟨none, h, by rw [Facets.withSample_none hs]⟩
  | @array field f n _ hs ih =>
    refine kept_of fun (hf : f.circularRef = none) => (synthesize_array_iff hf).2 ⟨n, ih, ?_⟩
    rw [f.around_eq hs]
  | @object field f ps _ ih =>
    exact kept_of fun hf => (synthesize_object_iff hf).2 ⟨ps, List.forall₂_same.2 fun p hp => ⟨rfl, ih p hp⟩, rfl⟩
  | @union field f v vs _ _ ihv ih =>
    exact kept_of fun hf => (synthesize_union_iff hf).2 ⟨v, vs, ihv, List.forall₂_same.2 ih, rfl⟩

theorem filled_of {n m : Node} (h : synthesize tables field n = .ok m)
    (hfill : n.facets.circularRef = none → n.Filled m ∧ m.Settled tables field) :
    n.Filled m ∧ m.Settled tables field := by
  by_cases hp : n.isPlaceholder = true
  · cases (synthesize_placeholder hp).symm.trans h
    exact ⟨.placeholder hp, .placeholder hp⟩
  · exact hfill (Option.not_isSome_iff_eq_none.1 hp)

/-- What holds of each pair of parts holds of the parts in order, and of each new part. -/
theorem forall₂_and_mem {α β : Type} {R S : α → β → Prop} {P : β → Prop} {xs : List α} {ys : List β}
    (h : List.Forall₂ R xs ys) (hR : ∀ x ∈ xs, ∀ y, R x y → S x y ∧ P y) : List.Forall₂ S xs ys ∧ ∀ y ∈ ys, P y := by
  induction h with
  | nil => exact ⟨.nil, fun _ hy => absurd hy List.not_mem_nil⟩
  | @cons x y xs ys hxy _ ih =>
    obtain ⟨hS, hP⟩ := hR x List.mem_cons_self y hxy
    obtain ⟨hSs, hPs⟩ := ih (List.forall_mem_cons.1 hR).2
    exact ⟨.cons hS hSs, List.forall_mem_cons.2 ⟨hP, hPs⟩⟩

theorem filled_and_settled (n : Node) {m : Node} (h : synthesize tables field n = .ok m) :
    n.Filled m ∧ m.Settled tables field := by
  induction n using Node.induct generalizing field m with
  | scalar k f =>
    refine filled_of h fun (hf : f.circularRef = none) => ?_
    cases hs : f.sample with
    | some v =>
      cases (synthesize_given (Option.isSome_of_mem hs)).symm.trans h
      exact ⟨.scalar hf .kept, .given (Option.isSome_of_mem hs)⟩
    | none =>
      obtain ⟨v, hv, rfl⟩ := (synthesize_scalar_iff hf hs).1 h
      cases v with
      | some v => exact ⟨.scalar hf (.given hs v), .given rfl⟩
      | none =>
        rw [Facets.withSample_none hs]
        exact ⟨.scalar hf .kept, .without hv⟩
  | array f n ih =>
    refine filled_of h fun (hf : f.circularRef = none) => ?_
    obtain ⟨items, hitems, rfl⟩ := (synthesize_array_iff hf).1 h
    obtain ⟨hfilled, hsettled⟩ := ih hitems
    refine ⟨.array hf (f.filled_around items) hfilled, .array hsettled fun hs => ?_⟩
    simp [Facets.around, hs]
  | object f ps ih =>
    refine filled_of h fun (hf : f.circularRef = none) => ?_
    obtain ⟨qs, hqs, rfl⟩ := (synthesize_object_iff hf).1 h
    obtain ⟨hfilled, hsettled⟩ : List.Forall₂ (fun p q => p.1 = q.1 ∧ p.2.Filled q.2) ps qs ∧
        ∀ q ∈ qs, q.2.Settled tables (some q.1) := by
      refine forall₂_and_mem hqs fun p hp q hpq => ?_
      obtain ⟨hkey, hnode⟩ := hpq
      obtain ⟨hfilled, hsettled⟩ := ih p hp hnode
      exact ⟨⟨hkey, hfilled⟩, hkey ▸ hsettled⟩
    refine ⟨.object hf ?_ ?_, .object hsettled⟩
    · rw [Entries.keys, Entries.keys, ← List.forall₂_eq_eq_eq, List.forall₂_map_left_iff, List.forall₂_map_right_iff]
      exact hfilled.imp fun _ _ h => h.1
    · rw [Entries.values, Entries.values, List.forall₂_map_left_iff, List.forall₂_map_right_iff]
      exact hfilled.imp fun _ _ h => h.2
  | union f v vs ihv ih =>
    refine filled_of h fun (hf : f.circularRef = none) => ?_
    obtain ⟨w, ws, hw, hws, rfl⟩ := (synthesize_union_iff hf).1 h
    obtain ⟨hfilled, hsettled⟩ := ihv hw
    obtain ⟨hfilleds, hsettleds⟩ : List.Forall₂ Node.Filled vs ws ∧ ∀ w ∈ ws, w.Settled tables field :=
      forall₂_and_mem hws fun v hv w hw => ih v hv hw
    exact ⟨.union hf hfilled hfilleds, .union hsettled hsettleds⟩

/-- Filling in examples leaves everything as it was but the examples of scalars and arrays that had none, and
placeholders altogether. It gives every example that can be found, and doing it again changes nothing. -/
theorem synthesize_filled {n m : Node} (h : synthesize tables field n = .ok m) :
    n.Filled m ∧ m.Settled tables field ∧ synthesize tables field m = .ok m := by
  obtain ⟨hfilled, hsettled⟩ := filled_and_settled n h
  exact ⟨hfilled, hsettled, hsettled.kept⟩

/-- A record with an example of its own, numbers without one, a choice, and a placeholder. -/
def sampledRecord : Node :=
  Node.objectOf [("email", Node.string { sample := some (.str "a@b.c") }),
    ("ratings", Node.arrayOf
      (Node.integer { constraints := some { minimum := some (.int 2), maximum := some (.int 10) } })),
    ("code", .union {} Node.string [Node.boolean]),
    ("parent", .array { circularRef := some "Record" } Node.string)]

/-- The examples of the nodes of a schema, each before those of its children; arrays of arrays are not entered. -/
def outerSamples (n : Node) : List (Option String) :=
  n.children.flatMap fun c => (c :: c.children).map fun d => d.facets.sample.map Value.text

theorem synthesize_filled_record : ∃ m, synthesize {} none sampledRecord = .ok m ∧
    outerSamples m = [some "a@b.c", some "[6]", some "6", none, some "string", some "True", none, none] ∧
    sampledRecord.Filled m ∧ m.Settled {} none ∧ synthesize {} none m = .ok m := by
  have hsamples : (synthesize {} none sampledRecord).toOption.map outerSamples =
      some [some "a@b.c", some "[6]", some "6", none, some "string", some "True", none, none] := by decide +kernel
  obtain ⟨m, hm, hsamples⟩ := Option.map_eq_some_iff.1 hsamples
  have hresult := ok_of_toOption hm
  exact ⟨m, hresult, hsamples, synthesize_filled hresult⟩

end ApiSchema
