import ApiSchema.Problem
import ApiSchema.Proofs.Family

/-!
# Weaves

The schema of a class is written for any computation that can meet problems and ask for the schemas of other
classes. What several such computations have in common when they are asked alike is told by a weave: a relation
between computations that holds of equal values and attempts, and is kept when computations are put together.

The relation between the values is free. `Same` is one value in all runs, `Options` lifts a relation to
results that may be missing, `Listed` to lists and `Entered` to entries.
-/
namespace ApiSchema

variable {ι : Type} {α β : Type}

/-- One value in all runs. -/
inductive Same (P : α → Prop) : (ι → α) → Prop
  | intro {a : α} (h : P a) : Same P fun _ => a

/-- A result in all runs or in none. -/
inductive Options (R : (ι → α) → Prop) : (ι → Option α) → Prop
  | none : Options R fun _ => none
  | some {v : ι → α} (h : R v) : Options R fun i => some (v i)

theorem Options.const {R : (ι → α) → Prop} {o : Option α} (h : ∀ a, o = .some a → R fun _ => a) :
    Options R fun _ => o := by
  cases o with
  | none => exact .none
  | some a => exact .some (h a rfl)

/-- Lists of as many elements in all runs. -/
inductive Listed (R : (ι → α) → Prop) : (ι → List α) → Prop
  | intro (ws : List (ι → α)) (h : ∀ w ∈ ws, R w) : Listed R fun i => ws.map (· i)

/-- Entries with the same names in all runs. -/
inductive Entered (R : (ι → α) → Prop) : (ι → Entries α) → Prop
  | intro (ps : Entries (ι → α)) (h : ∀ p ∈ ps, R p.2) : Entered R fun i => ps.column i

namespace Entered

variable {R : (ι → α) → Prop} {v w : ι → Entries α}

theorem nil : Entered R fun _ => [] := .intro [] nofun

theorem cons {n : ι → α} (key : String) (hn : R n) (h : Entered R v) : Entered R fun i => (key, n i) :: v i := by
  obtain ⟨ps, hp⟩ := h
  exact .intro ((key, n) :: ps) (List.forall_mem_cons.2 ⟨hn, hp⟩)

theorem const {ps : Entries α} (h : ∀ p ∈ ps, R fun _ => p.2) : Entered R fun _ => ps := by
  induction ps with
  | nil => exact nil
  | cons p ps ih =>
    obtain ⟨hp, hps⟩ := List.forall_mem_cons.1 h
    exact cons p.1 hp (ih hps)

theorem append (h : Entered R v) (h' : Entered R w) : Entered R fun i => v i ++ w i := by
  obtain ⟨ps, hp⟩ := h
  obtain ⟨qs, hq⟩ := h'
  simp only [← Entries.column_append]
  exact .intro (ps ++ qs) fun p hpq => (List.mem_append.1 hpq).elim (hp p) (hq p)

theorem setAll (h : Entered R v) (h' : Entered R w) : Entered R fun i => Entries.setAll (v i) (w i) := by
  obtain ⟨ps, hp⟩ := h
  obtain ⟨qs, hq⟩ := h'
  simp only [← Entries.column_setAll]
  refine .intro (Entries.setAll ps qs) fun p hpq => ?_
  rcases Entries.mem_setAll hpq with ⟨q, hqs, heq⟩ | hps
  · rw [heq]
    exact hq q hqs
  · exact hp p hps

theorem ofPairs (h : Entered R v) : Entered R fun i => Entries.ofPairs (v i) := setAll nil h

theorem set {n : ι → α} (h : Entered R v) (key : String) (hn : R n) :
    Entered R fun i => Entries.set (v i) key (n i) := setAll h (cons key hn nil)

theorem mono {S : (ι → α) → Prop} (h : Entered R v) (hRS : ∀ n, R n → S n) : Entered S v := by
  obtain ⟨ps, hp⟩ := h
  exact .intro ps fun p hps => hRS _ (hp p hps)

end Entered

/-- A relation between computations that is kept when they are put together. -/
structure Weave (ι : Type) (M : ι → Type → Type) [∀ i, Monad (M i)] [∀ i, MonadLiftT Attempt (M i)] where
  /-- The problems that the runs may meet. -/
  Meets : Problem → Prop
  Rel : {α : Type} → ((ι → α) → Prop) → ((i : ι) → M i α) → Prop
  pure : ∀ {α : Type} {R : (ι → α) → Prop} {v : ι → α}, R v → Rel R fun i => pure (v i)
  bind : ∀ {α β : Type} {R : (ι → α) → Prop} {S : (ι → β) → Prop} {x : (i : ι) → M i α}
    {f : (i : ι) → α → M i β}, Rel R x → (∀ v, R v → Rel S fun i => f i (v i)) → Rel S fun i => x i >>= f i
  mono : ∀ {α : Type} {R S : (ι → α) → Prop} {x : (i : ι) → M i α}, Rel R x → (∀ v, R v → S v) → Rel S x
  lifted : ∀ {α : Type} {x : Attempt α}, (∀ p, x = .error p → Meets p) → Rel (Same fun _ => True) fun _ => liftM x

namespace Weave

variable {M : ι → Type → Type} [∀ i, Monad (M i)] [∀ i, MonadLiftT Attempt (M i)] (𝓦 : Weave ι M)
  {R : (ι → α) → Prop} {S : (ι → β) → Prop}

theorem foldlM {γ : Type} {f : (i : ι) → α → γ → M i α} {v : ι → α} (hv : R v) (cs : List γ)
    (hf : ∀ c ∈ cs, ∀ v, R v → 𝓦.Rel R fun i => f i (v i) c) : 𝓦.Rel R fun i => cs.foldlM (f i) (v i) := by
  induction cs generalizing v with
  | nil => exact 𝓦.pure hv
  | cons c cs ih =>
    simp only [List.foldlM_cons]
    exact 𝓦.bind (hf c List.mem_cons_self v hv) fun w hw => ih hw (List.forall_mem_cons.1 hf).2

/-! ## Computations without a result -/

/-- Computations that are related, if they have results. -/
def RelO (R : (ι → α) → Prop) (x : (i : ι) → OptionT (M i) α) : Prop := 𝓦.Rel (Options R) fun i => (x i).run

theorem pureO {v : ι → α} (h : R v) : 𝓦.RelO R fun i => Pure.pure (v i) := 𝓦.pure (.some h)

theorem failureO : 𝓦.RelO R fun _ => failure := 𝓦.pure .none

theorem bindO {x : (i : ι) → OptionT (M i) α} {f : (i : ι) → α → OptionT (M i) β} (hx : 𝓦.RelO R x)
    (hf : ∀ v, R v → 𝓦.RelO S fun i => f i (v i)) : 𝓦.RelO S fun i => x i >>= f i := by
  refine 𝓦.bind hx fun v hv => ?_
  cases hv with
  | none => exact 𝓦.pure .none
  | some h => exact hf _ h

theorem orElseO {x y : (i : ι) → OptionT (M i) α} (hx : 𝓦.RelO R x) (hy : 𝓦.RelO R y) :
    𝓦.RelO R fun i => x i <|> y i := by
  refine 𝓦.bind hx fun v hv => ?_
  cases hv with
  | none => exact hy
  | some h => exact 𝓦.pure (.some h)

theorem liftO {x : (i : ι) → M i α} (hx : 𝓦.Rel R x) : 𝓦.RelO R fun i => OptionT.lift (x i) :=
  𝓦.bind hx fun _ hv => 𝓦.pure (.some hv)

theorem liftedO {x : Attempt α} (h : ∀ p, x = .error p → 𝓦.Meets p) : 𝓦.RelO (Same fun _ => True) fun _ => liftM x :=
  𝓦.bind (𝓦.lifted h) fun _ hv => 𝓦.pure (.some hv)

theorem monoO {S : (ι → α) → Prop} {x : (i : ι) → OptionT (M i) α} (hx : 𝓦.RelO R x)
    (h : ∀ v, R v → S v) : 𝓦.RelO S x := by
  refine 𝓦.mono hx fun v hv => ?_
  cases hv with
  | none => exact .none
  | some hv => exact .some (h _ hv)

end Weave
end ApiSchema
