import ApiSchema.Proofs.Reads

/-!
# Problems that no handler takes

The schema of a class is read with handlers around everything that may be missing: what cannot be found or read
is left out. So a problem that ends the reading is one that no handler takes (`Firm.composedSchema`), whatever
the schemas of other classes are.
-/
namespace ApiSchema

open Source Infer

variable {α β : Type}

/-- An attempt that meets no problem a handler takes. -/
def Hard (x : Attempt α) : Prop := ∀ p, x = .error p → p.isAbsorbed = false

namespace Hard

theorem pure (a : α) : Hard (pure a) := nofun

theorem bind {x : Attempt α} {f : α → Attempt β} (hx : Hard x) (hf : ∀ a, Hard (f a)) : Hard (x >>= f) := by
  intro p hp
  cases x with
  | error q =>
    cases hp
    exact hx _ rfl
  | ok a => exact hf a p hp

theorem fault (x : Except Fault α) : Hard (liftM x) := by
  intro p hp
  cases x with
  | error e => cases hp; rfl
  | ok a => cases hp

theorem shape (x : Except DraftError α) : Hard (liftM x) := by
  intro p hp
  cases x with
  | error e => cases hp; rfl
  | ok a => cases hp

theorem withEffect (table : Rule.Table) (s : Rule.State) (t : Rule.Token) : Hard (Rule.withEffect table s t) := by
  unfold Rule.withEffect
  repeat' split
  all_goals first
    | exact pure _
    | exact bind (fault _) fun _ => pure _

theorem withPattern (patterns : Pattern.Lexicon) (s : Rule.State) (raw : String) :
    Hard (Rule.withPattern patterns s raw) := by
  refine bind (fault _) fun found => ?_
  cases found with
  | none | some sample => exact pure _

theorem applyPlain (table : Rule.Table) (patterns : Pattern.Lexicon) (s : Rule.State) (t : Rule.Token) :
    Hard (Rule.applyPlain table patterns s t) := by
  unfold Rule.applyPlain
  dsimp only
  split
  all_goals try exact pure _
  · split
    · exact withPattern _ _ _
    · exact pure _
  · split
    · exact pure _
    · exact withEffect _ _ _
  · split
    · exact pure _
    · exact withEffect _ _ _
  · split
    · exact pure _
    · exact withEffect _ _ _
  · split
    · exact pure _
    · exact withEffect _ _ _

theorem node (s : Rule.State) : Hard s.node := by
  refine bind (fault _) fun _ => ?_
  split
  · exact shape _
  · exact fault (.error .invalid)

end Hard

/-- A computation that meets no problem a handler takes. -/
def Firm (x : Inference α) : Prop := ∀ l p, result x l = .error p → p.isAbsorbed = false

namespace Firm

theorem pure (a : α) : Firm (pure a) := nofun

theorem tried {x : Attempt α} (h : Hard x) : Firm (liftM x) := fun _ p hp => h p hp

theorem bind {x : Inference α} {f : α → Inference β} (hx : Firm x) (hf : ∀ a, Firm (f a)) : Firm (x >>= f) := by
  intro l p hp
  rcases error_of_result_bind hp with ha | ⟨a, -, hp⟩
  · exact hx l p ha
  · exact hf a _ p hp

theorem attempt (x : Inference (Option α)) : Firm (attempt x) := by
  intro l p hp
  rw [result_attempt] at hp
  split at hp
  · cases hp
  · split at hp
    · cases hp
    · cases hp
      exact Bool.eq_false_iff.2 ‹_›

theorem sequential : Sequential @Firm := ⟨pure, bind⟩

/-- What only loads modules and fails for good fails as a module of the library does. -/
theorem unloaded {x : Inference α} (hfirm : Firm x) (hreads : Reads (fun _ => False) x) {l : Library} {p : Problem}
    (h : result x l = .error p) : p.isAbsorbed = false ∧ Unloaded l p := by
  have hp : p.isAbsorbed = false := hfirm l p h
  rcases hreads.met h with habsorbed | hunloaded | hfalse
  · exact absurd (hp.symm.trans habsorbed) Bool.false_ne_true
  · exact ⟨hp, hunloaded⟩
  · exact hfalse.elim

theorem findClass (name : String) : Firm (findClass name) := attempt _

theorem resolveName (m : Source.Module) (name : String) : Firm (resolveName m name) :=
  sequential.resolveName findClass m name

theorem newParents (seen : List String) (l : Located) : Firm (newParents seen l) :=
  sequential.newParents findClass seen l

theorem ancestorChain (l : Located) : Firm (ancestorChain l) := fun lib => sequential.chainFrom newParents _ _ _ lib

theorem isEnum (l : Located) : Firm (isEnum l) :=
  bind (bind (ancestorChain l) fun _ => bind (sequential.mapM (fun _ => sequential.mapM (fun _ => resolveName _ _) _) _)
    fun _ => pure _) fun _ => pure _

theorem enumNode (l : Located) : Firm (enumNode l) := sequential.enumNode (isEnum l) (tried (.fault _))

theorem ofRules (rules : Entries Rule.Raw) : Firm (ofRules rules) :=
  sequential.ofRules (sequential.enumValues findClass isEnum fun _ => tried (.fault _))
    (fun _ _ _ _ => tried (.applyPlain _ _ _ _)) (fun _ => tried (.node _)) rules

theorem declaredProperties (t : Tables) (cb : ClassSchema Inference) (direction : Direction) (s : Subject) :
    Firm (declaredProperties t cb direction s) := bind (attempt _) fun _ => pure _

/-- A class meets no problem a handler takes, whatever the classes do that it asks for. -/
theorem composedSchema (t : Tables) (s : Settings) (cb : ClassSchema Inference) (l : Located) (direction : Direction) :
    Firm (composedSchema t s cb l direction) := by
  cases direction with
  | output =>
    refine bind (enumNode l) fun o => ?_
    cases o with
    | some n => exact pure n
    | none =>
      refine bind (declaredProperties t cb .output (.cls l)) fun properties => ?_
      cases properties with
      | some properties => exact pure _
      | none =>
        refine bind (attempt _) fun shape => ?_
        cases shape with
        | some n | none => exact pure _
  | input =>
    refine bind (bind (attempt _) fun _ => pure _) fun rules => ?_
    cases rules with
    | some rules => exact bind (ofRules _) fun _ => pure _
    | none =>
      refine bind (enumNode l) fun o => ?_
      cases o with
      | some n => exact pure n
      | none => exact bind (declaredProperties t cb .input (.cls l)) fun _ => pure _

theorem expandedSchema (t : Tables) (s : Settings) (cb : ClassSchema Inference) (l : Located) (direction : Direction) :
    Firm (expandedSchema t s cb l direction) := by
  have hkept : ∀ key, Firm (keptSchema key) := fun _ _ => nofun
  have hkeep : ∀ key n, Firm (keepSchema key n) := by
    intro key n l p hp
    unfold keepSchema at hp
    split at hp <;> cases hp
  refine bind (hkept _) fun found => ?_
  cases found with
  | some n => exact pure n
  | none => exact bind (composedSchema t s cb l direction) fun _ => hkeep _ _

theorem classSchema (t : Tables) (s : Settings) (k : Nat) (guard : List String) (l : Located) (direction : Direction) :
    Firm (classSchema t s k guard l direction) := by
  unfold Infer.classSchema
  dsimp only
  split
  · exact pure _
  · cases k with
    | zero => exact pure _
    | succ k => exact expandedSchema t s _ l direction

end Firm
end ApiSchema
