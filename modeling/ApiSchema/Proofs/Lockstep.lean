import ApiSchema.Proofs.Requests

/-!
# Runs in lockstep

Several runs of one computation, each over a library of its own. `Lockstep` says what is known of these
libraries, and `Lockstep.toRelator` that it makes a relator: the runs end alike, or they escape. They escape
when a run that was expected to end meets a problem that no handler takes, or when a run that is watched has
gone where the others cannot follow.
-/
namespace ApiSchema

variable {ι : Type} {α β : Type}

/-- What is known of the libraries of several runs. -/
structure Lockstep (ι : Type) where
  /-- A library with the sources that count. -/
  base : Library
  /-- What holds of the library of a run. -/
  inv : ι → Library → Prop
  /-- The runs that are expected to end without a problem that no handler takes. -/
  sink : ι → Prop
  /-- The runs that are watched also when they are alone. -/
  solo : ι → Prop
  /-- A watched run has gone where the others cannot follow. -/
  gone : ι → Library → Prop
  inv_learned : ∀ {i l l'}, inv i l → Learned l l' → inv i l'
  gone_learned : ∀ {i l l'}, gone i l → Learned l l' → gone i l'
  alone : ∀ {α : Type} {x : Inference α} {i l a}, Reads (fun _ => True) x → solo i → inv i l → result x l = .ok a →
    result x base = .ok a
  agree : ∀ {α : Type} {x : Inference α} {s : ι → Library}, Reads (fun _ => True) x → (∀ i, inv i (s i)) →
    ((∃ i, sink i ∧ Fatal (result x (s i))) ∨ ∃ i, solo i ∧ gone i (after x (s i))) ∨
      ∀ i, result x (s i) = result x base

namespace Lockstep

variable (𝓛 : Lockstep ι)

/-- The runs need not be compared any further. -/
def Escape (s : ι → Library) (x : ι → Inference α) : Prop :=
  (∃ i, 𝓛.sink i ∧ Fatal (result (x i) (s i))) ∨ ∃ i, 𝓛.solo i ∧ 𝓛.gone i (after (x i) (s i))

/-- A watched run keeps what is known of its library, and its value satisfies `Q`. -/
structure Solo (i : ι) (Q : α → Prop) (x : Inference α) (l : Library) : Prop where
  inv : 𝓛.inv i (after x l)
  gone : 𝓛.gone i l → 𝓛.gone i (after x l)
  value : ∀ a, result x l = .ok a → Q a

/-- The runs end alike. -/
structure Joint (R : (ι → α) → Prop) (s : ι → Library) (x : ι → Inference α) : Prop where
  inv : ∀ i, 𝓛.inv i (after (x i) (s i))
  value : (∃ v, R v ∧ ∀ i, result (x i) (s i) = .ok (v i)) ∨ ∃ p, ∀ i, result (x i) (s i) = .error p

/-- The watched runs are sound alone, and all runs end alike unless they escape. -/
structure Rel (R : (ι → α) → Prop) (x : ι → Inference α) : Prop where
  solo : ∀ i l, 𝓛.solo i → 𝓛.inv i l → 𝓛.Solo i (fun a => ∃ v, R v ∧ v i = a) (x i) l
  joint : ∀ s, (∀ i, 𝓛.inv i (s i)) → 𝓛.Escape s x ∨ 𝓛.Joint R s x

namespace Rel

variable {𝓛} {R : (ι → α) → Prop} {S : (ι → β) → Prop}

theorem pure {v : ι → α} (h : R v) : 𝓛.Rel R fun i => pure (v i) where
  solo _ _ _ hl := ⟨hl, id, fun _ ha => ⟨v, h, Except.ok.inj ha⟩⟩
  joint _ hinv := .inr ⟨hinv, .inl ⟨v, h, fun _ => rfl⟩⟩

theorem mono {S : (ι → α) → Prop} {x : ι → Inference α} (hx : 𝓛.Rel R x) (h : ∀ v, R v → S v) : 𝓛.Rel S x where
  solo i l hi hl :=
    have hsolo := hx.solo i l hi hl
    ⟨hsolo.inv, hsolo.gone, fun a ha => (hsolo.value a ha).imp fun v hv => ⟨h v hv.1, hv.2⟩⟩
  joint s hinv := by
    rcases hx.joint s hinv with he | hj
    · exact .inl he
    · refine .inr ⟨hj.inv, ?_⟩
      rcases hj.value with ⟨v, hv, hr⟩ | hp
      · exact .inl ⟨v, h v hv, hr⟩
      · exact .inr hp

theorem bind {x : ι → Inference α} {f : ι → α → Inference β} (hx : 𝓛.Rel R x)
    (hf : ∀ v, R v → 𝓛.Rel S fun i => f i (v i)) : 𝓛.Rel S fun i => x i >>= f i where
  solo i l hi hl := by
    have hsolo := hx.solo i l hi hl
    cases ha : result (x i) l with
    | error p =>
      have hafter : after (x i >>= f i) l = after (x i) l := by rw [after_bind, ha]
      refine ⟨hafter ▸ hsolo.inv, fun hg => hafter ▸ hsolo.gone hg, fun b hb => ?_⟩
      rw [result_bind, ha] at hb
      cases hb
    | ok a =>
      obtain ⟨v, hv, rfl⟩ := hsolo.value a ha
      have hnext := (hf v hv).solo i (after (x i) l) hi hsolo.inv
      have hafter : after (x i >>= f i) l = after (f i (v i)) (after (x i) l) := by rw [after_bind, ha]
      refine ⟨hafter ▸ hnext.inv, fun hg => hafter ▸ hnext.gone (hsolo.gone hg), fun b hb => ?_⟩
      rw [result_bind, ha] at hb
      exact hnext.value b hb
  joint s hinv := by
    rcases hx.joint s hinv with (⟨i, hi, p, hp, hfatal⟩ | ⟨i, hi, hg⟩) | hj
    · exact .inl (.inl ⟨i, hi, p, by rw [result_bind, hp], hfatal⟩)
    · refine .inl (.inr ⟨i, hi, ?_⟩)
      have hsolo := hx.solo i (s i) hi (hinv i)
      rw [after_bind]
      cases ha : result (x i) (s i) with
      | error p => exact hg
      | ok a =>
        obtain ⟨v, hv, rfl⟩ := hsolo.value a ha
        exact ((hf v hv).solo i _ hi hsolo.inv).gone hg
    · rcases hj.value with ⟨v, hv, hr⟩ | ⟨p, hp⟩
      · have hresult : ∀ i, result (x i >>= f i) (s i) = result (f i (v i)) (after (x i) (s i)) := fun i => by
          rw [result_bind, hr i]
        have hafter : ∀ i, after (x i >>= f i) (s i) = after (f i (v i)) (after (x i) (s i)) := fun i => by
          rw [after_bind, hr i]
        rcases (hf v hv).joint _ hj.inv with he | hj'
        · refine .inl ?_
          unfold Escape at he ⊢
          simpa only [hresult, hafter] using he
        · exact .inr ⟨by simpa only [hafter] using hj'.inv, by simpa only [hresult] using hj'.value⟩
      · refine .inr ⟨fun i => ?_, .inr ⟨p, fun i => by rw [result_bind, hp i]⟩⟩
        rw [after_bind, hp i]
        exact hj.inv i

/-- A last step that gives the value as it is, and keeps what is known of a library in which the value was made. -/
theorem keep {x : ι → Inference α} {f : ι → α → Inference α} (hx : 𝓛.Rel R x)
    (hvalue : ∀ i a l, result (f i a) l = .ok a)
    (hinv : ∀ i l a, 𝓛.inv i l → result (x i) l = .ok a → 𝓛.inv i (after (x i) l) →
      𝓛.inv i (after (f i a) (after (x i) l)))
    (hgone : ∀ i a l, 𝓛.gone i l → 𝓛.gone i (after (f i a) l)) : 𝓛.Rel R fun i => x i >>= f i := by
  have hresult : ∀ i l, result (x i >>= f i) l = result (x i) l := by
    intro i l
    rw [result_bind]
    cases result (x i) l with
    | ok a => exact hvalue i a _
    | error p => rfl
  have hgone' : ∀ i l, 𝓛.gone i (after (x i) l) → 𝓛.gone i (after (x i >>= f i) l) := by
    intro i l hg
    rw [after_bind]
    cases result (x i) l with
    | ok a => exact hgone i a _ hg
    | error p => exact hg
  have hinv' : ∀ i l, 𝓛.inv i l → 𝓛.inv i (after (x i) l) → 𝓛.inv i (after (x i >>= f i) l) := by
    intro i l hl hl'
    rw [after_bind]
    cases ha : result (x i) l with
    | ok a => exact hinv i l a hl ha hl'
    | error p => exact hl'
  refine ⟨fun i l hi hl => ?_, fun s hs => ?_⟩
  · have hsolo := hx.solo i l hi hl
    exact ⟨hinv' i l hl hsolo.inv, fun hg => hgone' i l (hsolo.gone hg), fun a ha => hsolo.value a (hresult i l ▸ ha)⟩
  · rcases hx.joint s hs with (⟨i, hi, hf⟩ | ⟨i, hi, hg⟩) | hj
    · exact .inl (.inl ⟨i, hi, (hresult i (s i)).symm ▸ hf⟩)
    · exact .inl (.inr ⟨i, hi, hgone' i (s i) hg⟩)
    · exact .inr ⟨fun i => hinv' i (s i) (hs i) (hj.inv i), by simpa only [hresult] using hj.value⟩

theorem attempt {x : ι → Inference (Option α)} (hx : 𝓛.Rel (Options R) x) :
    𝓛.Rel (Options R) fun i => attempt (x i) where
  solo i l hi hl := by
    have hsolo := hx.solo i l hi hl
    refine ⟨after_attempt (x i) l ▸ hsolo.inv, fun hg => after_attempt (x i) l ▸ hsolo.gone hg, fun a ha => ?_⟩
    rw [result_attempt] at ha
    cases h : result (x i) l with
    | ok b =>
      rw [h] at ha
      cases ha
      exact hsolo.value a h
    | error p =>
      rw [h] at ha
      dsimp only at ha
      split at ha
      · cases ha
        exact ⟨fun _ => none, .none, rfl⟩
      · cases ha
  joint s hinv := by
    rcases hx.joint s hinv with (⟨i, hi, p, hp, hfatal⟩ | ⟨i, hi, hg⟩) | hj
    · refine .inl (.inl ⟨i, hi, p, ?_, hfatal⟩)
      rw [result_attempt, hp]
      simp only [hfatal, Bool.false_eq_true, if_false]
    · exact .inl (.inr ⟨i, hi, by rwa [after_attempt]⟩)
    · refine .inr ⟨fun i => after_attempt (x i) _ ▸ hj.inv i, ?_⟩
      simp only [result_attempt]
      rcases hj.value with ⟨v, hv, hr⟩ | ⟨p, hp⟩
      · exact .inl ⟨v, hv, fun i => by rw [hr i]⟩
      · cases hp' : p.isAbsorbed with
        | true => exact .inl ⟨fun _ => none, .none, fun i => by rw [hp i]; simp only [hp', if_true]⟩
        | false => exact .inr ⟨p, fun i => by rw [hp i]; simp only [hp', Bool.false_eq_true, if_false]⟩

theorem tried {x : ι → Attempt α} (h : (∃ v, R v ∧ ∀ i, x i = .ok (v i)) ∨ ∃ p, ∀ i, x i = .error p) :
    𝓛.Rel R fun i => (liftM (x i) : Inference α) where
  solo i l _ hl := by
    refine ⟨by rwa [after_lift], fun hg => by rwa [after_lift], fun a ha => ?_⟩
    rw [result_lift] at ha
    rcases h with ⟨v, hv, hr⟩ | ⟨p, hp⟩
    · exact ⟨v, hv, Except.ok.inj ((hr i).symm.trans ha)⟩
    · cases (hp i).symm.trans ha
  joint s hinv := .inr ⟨fun i => by rw [after_lift]; exact hinv i, by simpa only [result_lift] using h⟩

theorem asked {x : Inference α} {P : α → Prop} (hx : Reads (fun _ => True) x) (hP : Gives 𝓛.base x P) :
    𝓛.Rel (Same P) fun _ => x where
  solo i l hi hl :=
    ⟨𝓛.inv_learned hl (hx.learned l), fun hg => 𝓛.gone_learned hg (hx.learned l), fun a ha =>
      ⟨fun _ => a, .intro (hP _ (.refl _) a (𝓛.alone hx hi hl ha)), rfl⟩⟩
  joint s hinv := by
    rcases 𝓛.agree hx hinv with he | hr
    · exact .inl he
    · refine .inr ⟨fun i => 𝓛.inv_learned (hinv i) (hx.learned _), ?_⟩
      cases hb : result x 𝓛.base with
      | ok a => exact .inl ⟨fun _ => a, .intro (hP _ (.refl _) a hb), fun i => (hr i).trans hb⟩
      | error p => exact .inr ⟨p, fun i => (hr i).trans hb⟩

/-- Computations with values that do not depend on the library. -/
theorem given {x : ι → Inference α} {v : ι → α} (h : R v)
    (hx : ∀ i l, 𝓛.inv i l → 𝓛.Solo i (· = v i) (x i) l ∧ ∃ a, result (x i) l = .ok a) : 𝓛.Rel R x where
  solo i l _ hl :=
    have hsolo := (hx i l hl).1
    ⟨hsolo.inv, hsolo.gone, fun a ha => ⟨v, h, (hsolo.value a ha).symm⟩⟩
  joint s hinv := by
    refine .inr ⟨fun i => (hx i _ (hinv i)).1.inv, .inl ⟨v, h, fun i => ?_⟩⟩
    obtain ⟨hsolo, a, ha⟩ := hx i _ (hinv i)
    rw [ha, hsolo.value a ha]

end Rel

/-- Runs in lockstep make a relator. -/
def toRelator : Relator ι fun _ => Inference where
  base := 𝓛.base
  Meets _ := True
  bears _ := trivial
  Rel := 𝓛.Rel
  pure := Rel.pure
  bind := Rel.bind
  mono := Rel.mono
  attempt := Rel.attempt
  tried h := Rel.tried (h.imp_right fun ⟨p, _, hp⟩ => ⟨p, hp⟩)
  asked hx hP _ := Rel.asked hx hP

/-! ## A single run -/

section

open Infer

/-- A single run is with itself. -/
theorem Rel.of_solo {𝓛 : Lockstep Unit} {R : (Unit → α) → Prop} {x : Unit → Inference α}
    (h : ∀ l, 𝓛.inv () l → 𝓛.Solo () (fun a => ∃ v, R v ∧ v () = a) (x ()) l) : 𝓛.Rel R x where
  solo _ l _ hl := h l hl
  joint s hinv := by
    have hsolo := h (s ()) (hinv ())
    refine .inr ⟨fun _ => hsolo.inv, ?_⟩
    cases ha : result (x ()) (s ()) with
    | error p => exact .inr ⟨p, fun _ => ha⟩
    | ok a =>
      obtain ⟨v, hv, rfl⟩ := hsolo.value a ha
      exact .inl ⟨v, hv, fun _ => ha⟩

/-- A single run has nothing to be compared with, so the leaves do not count. -/
theorem Rel.relabel {𝓛 : Lockstep Unit} {L L' : (Unit → Node) → Prop} {x : Unit → Inference Node}
    (h : 𝓛.Rel (Shaped L) x) : 𝓛.Rel (Shaped L') x :=
  h.mono fun _ hns => .const (hns.worded ())

theorem composed_alone {𝓛 : Lockstep Unit} {t : Infer.Tables} {s : Settings} {cb : ClassSchema Inference}
    {direction : Direction} (hcb : ∀ d, Found 𝓛.base d → 𝓛.Rel (Shaped fun _ => True) fun _ => cb d direction)
    (l : Located) : 𝓛.Rel (Shaped fun _ => True) fun _ => composedSchema t s cb l direction :=
  Rel.relabel (composedSchema_equal (𝓡 := 𝓛.toRelator) (fun _ => trivial) (fun d hd => (hcb d hd).relabel) l)

theorem schema_alone {𝓛 : Lockstep Unit} {t : Infer.Tables} {s : Settings} {cb : ClassSchema Inference}
    (hcb : ∀ d direction, Found 𝓛.base d → 𝓛.Rel (Shaped fun _ => True) fun _ => cb d direction) (q : Request) :
    𝓛.Rel (Grown fun _ => True) fun _ => q.schema t s cb :=
  Rel.mono (schema_equal (𝓡 := 𝓛.toRelator) (fun _ => trivial) (fun d direction hd => (hcb d direction hd).relabel) q)
    fun ns _ => Grown.formed.const (ns ())

end

end Lockstep
end ApiSchema
