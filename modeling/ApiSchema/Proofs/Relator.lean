import ApiSchema.Proofs.Reads
import ApiSchema.Proofs.Weave

/-!
# Relators

A relator is a weave of computations that also read a library: it holds of equal readings, and is kept when problems are
absorbed. Whatever is built from related answers is related, for every relator.
-/
namespace ApiSchema

variable {ι : Type} {α : Type}

/-- A relation between computations that every way to put computations together keeps. -/
structure Relator (ι : Type) (M : ι → Type → Type) [∀ i, Monad (M i)] [∀ i, MonadExceptOf Problem (M i)]
    [∀ i, MonadLiftT Inference (M i)] [∀ i, MonadLiftT Attempt (M i)] extends Weave ι M where
  /-- The library with the sources that the runs read. -/
  base : Library
  bears : ∀ {p}, p.isAbsorbed = true ∨ Unloaded base p → Meets p
  tried : ∀ {α : Type} {R : (ι → α) → Prop} {x : ι → Attempt α},
    (∃ v, R v ∧ ∀ i, x i = .ok (v i)) ∨ (∃ p, Meets p ∧ ∀ i, x i = .error p) → Rel R fun i => liftM (x i)
  lifted {_ x} h := match x with
    | .ok a => tried (.inl ⟨fun _ => a, .intro trivial, fun _ => rfl⟩)
    | .error p => tried (.inr ⟨p, h p rfl, fun _ => rfl⟩)
  attempt : ∀ {α : Type} {R : (ι → α) → Prop} {x : (i : ι) → M i (Option α)}, Rel (Options R) x →
    Rel (Options R) fun i => attempt (x i)
  asked : ∀ {α : Type} {x : Inference α} {P : α → Prop}, Reads (fun _ => True) x → Gives base x P →
    (∀ p, result x base = .error p → Meets p) → Rel (Same P) fun _ => liftM x

namespace Relator

variable {M : ι → Type → Type} [∀ i, Monad (M i)] [∀ i, MonadExceptOf Problem (M i)]
  [∀ i, MonadLiftT Inference (M i)] [∀ i, MonadLiftT Attempt (M i)] (𝓡 : Relator ι M) {P : α → Prop}

/-- An attempt that is the same in all runs. -/
theorem triedSame {x : Attempt α} (h : ∀ a, x = .ok a → P a) (hp : ∀ p, x = .error p → 𝓡.Meets p) :
    𝓡.Rel (Same P) fun _ => liftM x := by
  refine 𝓡.tried ?_
  cases x with
  | ok a => exact .inl ⟨fun _ => a, .intro (h a rfl), fun _ => rfl⟩
  | error p => exact .inr ⟨p, hp p rfl, fun _ => rfl⟩

/-- A reading whose own problems may be met. -/
theorem read {x : Inference α} (hx : Reads 𝓡.Meets x) (hP : Gives 𝓡.base x P) :
    𝓡.Rel (Same P) fun _ => liftM x := by
  refine 𝓡.asked (hx.mono fun _ _ => trivial) hP fun p hp => ?_
  rcases hx.met hp with h | h | h
  · exact 𝓡.bears (.inl h)
  · exact 𝓡.bears (.inr h)
  · exact h

end Relator
end ApiSchema
