import ApiSchema.Proofs.Caching
import ApiSchema.Proofs.Denotes
import ApiSchema.Proofs.Faults

/-!
# Outcomes of requests

A request for the data of a name is answered, or finds nothing under the name, or meets a problem that no handler takes
(`outcome_outputOf`). Each of the three is traced back to the sources: to what the name denotes, and to what is to blame
for the problem.

The trace is a relator (`accounted`): every step of a run meets only problems with a cause, whatever the schemas of
other classes are, if these have texts as descriptions.
-/
namespace ApiSchema

open Source Infer

variable {α β : Type} {r : Library}

/-! ## Runs with accounted problems -/

/-- A run over a clean library ends with a value of `R`, or with a problem that the sources are to blame for. -/
structure Accounted (r : Library) (R : (Unit → α) → Prop) (x : Unit → Inference α) : Prop where
  run : (cleanly r fun _ => False).Rel R x
  problem : ∀ {l p}, Clean r l → result (x ()) l = .error p → Blamed r p

namespace Accounted

variable {R : (Unit → α) → Prop} {S : (Unit → β) → Prop}

theorem pure {v : Unit → α} (h : R v) : Accounted r R fun i => pure (v i) := ⟨.pure h, fun _ hp => nomatch hp⟩

theorem mono {S : (Unit → α) → Prop} {x : Unit → Inference α} (hx : Accounted r R x) (h : ∀ v, R v → S v) :
    Accounted r S x := ⟨hx.run.mono h, hx.problem⟩

theorem bind {x : Unit → Inference α} {f : Unit → α → Inference β} (hx : Accounted r R x)
    (hf : ∀ v, R v → Accounted r S fun i => f i (v i)) : Accounted r S fun i => x i >>= f i where
  run := hx.run.bind fun v hv => (hf v hv).run
  problem {l p} hl hp := by
    rcases error_of_result_bind hp with ha | ⟨a, ha, hp⟩
    · exact hx.problem hl ha
    · have hsolo := hx.run.solo () l trivial hl
      obtain ⟨v, hv, rfl⟩ := hsolo.value a ha
      exact (hf v hv).problem hsolo.inv hp

theorem attempt {x : Unit → Inference (Option α)} (hx : Accounted r (Options R) x) :
    Accounted r (Options R) fun i => attempt (x i) where
  run := hx.run.attempt
  problem {l p} hl hp := by
    rw [result_attempt] at hp
    cases h : result (x ()) l with
    | ok b => rw [h] at hp; cases hp
    | error q =>
      rw [h] at hp
      dsimp only at hp
      split at hp
      · cases hp
      · cases hp
        exact hx.problem hl h

theorem tried {x : Unit → Attempt α}
    (h : (∃ v, R v ∧ ∀ i, x i = .ok (v i)) ∨ ∃ p, Blamed r p ∧ ∀ i, x i = .error p) :
    Accounted r R fun i => (liftM (x i) : Inference α) where
  run := .tried (h.imp_right fun ⟨p, _, hp⟩ => ⟨p, hp⟩)
  problem {l q} _ hq := by
    rw [result_lift] at hq
    rcases h with ⟨v, hv, hx⟩ | ⟨p, hp, hx⟩
    · cases (hx ()).symm.trans hq
    · cases (hx ()).symm.trans hq
      exact hp

theorem asked {x : Inference α} {P : α → Prop} (hx : Reads (fun _ => True) x) (hP : Gives r x P)
    (hp : ∀ p, result x r = .error p → Blamed r p) : Accounted r (Same P) fun _ => x :=
  ⟨.asked hx hP, fun hl h => hp _ ((hx.alike hl.alike).symm.trans h)⟩

end Accounted

/-- Runs with accounted problems make a relator. -/
def accounted (r : Library) : Relator Unit fun _ => Inference where
  base := r
  Meets := Blamed r
  bears h := h.imp_right fun ⟨_, h⟩ => .module h
  Rel := Accounted r
  pure := Accounted.pure
  bind := Accounted.bind
  mono := Accounted.mono
  attempt := Accounted.attempt
  tried := Accounted.tried
  asked := Accounted.asked

/-! ## Schemas of classes -/

variable {s : Settings}

theorem admits_accounted : Admits (accounted r) {} :=
  ⟨fun h => absurd h not_hasUnion_types, fun p h => absurd h (Shape.not_meets_tables p)⟩

theorem expanded_accounted {cb : ClassSchema Inference} {l : Located}
    (h : Accounted r (Shaped fun _ => False) fun _ => composedSchema {} s cb l .output) :
    Accounted r (Shaped fun _ => False) fun _ => expandedSchema {} s cb l .output := by
  refine expandedSchema_equal (𝓡 := accounted r) (fun key => ?_) (fun key n hn => ?_) h
  · exact ⟨cleanly_kept _ _ key, fun _ hp => nomatch (result_keptSchema key _).symm.trans hp⟩
  · exact ⟨cleanly_keep _ _ key hn, fun _ hp => nomatch (result_keepSchema key n _).symm.trans hp⟩

theorem classSchema_accounted (k : Nat) (guard : List String) {l : Located} (hl : Found r l) :
    Accounted r (Shaped fun _ => False) fun _ => classSchema {} s k guard l .output := by
  refine classSchema_induct (P := fun d x => Found r d → Accounted r (Shaped fun _ => False) fun _ => x)
    (fun _ _ hw _ => .pure (.const hw)) (fun k guard ih l hl => ?_) k guard l hl
  refine expanded_accounted (classOutput_rel (𝓡 := accounted r) steady_false admits_accounted ih
    (fun _ _ _ _ => soundBody_of_no_leaf _ _ _) ?_ fun p hp => ?_)
  · exact fun f hf => .inr (.members hl hf)
  · exact blamed_of_fields (show Known r (.cls l) from hl) hp

/-! ## Requests -/

/-- A schema that is asked for under a name meets only problems that the sources are to blame for. -/
theorem blamed_of_namedOutput {name : String} {p : Problem} (hr : Clean r r)
    (h : result (namedOutput {} s (outermost {} s) name) r = .error p) : Blamed r p := by
  have hnamed : Accounted r (Grown fun _ => False) fun _ => namedOutput {} s (outermost {} s) name :=
    namedOutput_rel (𝓡 := accounted r) steady_false admits_accounted
      (fun d hd => classSchema_accounted _ _ hd) name (fun _ _ _ _ _ _ => soundBody_of_no_leaf _ _ _)
      fun subject f p hname _ hp => by
        refine blamed_of_fields ?_ hp
        exact gives_readSubject r name r (.refl r) _ hname _ rfl
  exact hnamed.problem hr h

theorem firm_handlerOutput (t : Infer.Tables) (cb : ClassSchema Inference) (subject : Subject) (f : Function) :
    Firm (handlerOutput t cb subject f) := by
  refine .bind (.declaredProperties t cb .output subject) fun properties => ?_
  cases properties with
  | some properties => exact .pure _
  | none =>
    refine .bind ?_ fun returned => ?_
    · unfold returnedType
      split
      · exact .attempt _
      · exact .pure _
    · cases returned with
      | some n => exact .pure n
      | none =>
        refine .bind (.attempt _) fun shape => ?_
        cases shape with
        | some n => exact .pure n
        | none => exact .pure _

theorem firm_subjectOutput (t : Infer.Tables) (s : Settings) (subject : Subject) :
    Firm (subjectSchema t s (outermost t s) .output subject) := by
  cases subject with
  | cls l => exact .classSchema t s _ _ l .output
  | function name m f | method name m owner f => exact firm_handlerOutput t _ _ f

/-- The module that a name is placed in cannot be read. -/
def Unread (r : Library) (name : String) : Prop :=
  ∃ home rest message, r.splitName? name = some (home, rest) ∧ result (loadModule home) r = .error (.unreadable message)

/-- Among the names of a module, nothing that cannot be read is met. -/
theorem subjectIn_error {name home : String} {m : Source.Module} {rest : List String} {l : Library} {p : Problem}
    (h : result (subjectIn name home m rest) l = .error p) :
    p.isAbsorbed = false ∨ p = subjectIn.nothing name := by
  unfold subjectIn at h
  split at h
  · split at h
    · cases h
    · cases h
    · rcases error_of_result_bind h with h | ⟨found, -, h⟩
      · exact .inl (Firm.findClass _ _ _ h)
      · cases found with
        | some l => cases h
        | none => exact .inr (Except.error.inj h).symm
  · rcases error_of_result_bind h with h | ⟨found, -, h⟩
    · exact .inl (Firm.findClass _ _ _ h)
    · cases found with
      | none => exact .inr (Except.error.inj h).symm
      | some d =>
        rcases error_of_result_bind h with h | ⟨chain, -, h⟩
        · exact .inl (Firm.ancestorChain _ _ _ h)
        · split at h
          · cases h
          · exact .inr (Except.error.inj h).symm
  · exact .inr (Except.error.inj h).symm

theorem unread_of_findSubject {name message : String} (h : result (findSubject name) r = .error (.unreadable message)) :
    Unread r name := by
  rw [findSubject_eq] at h
  rcases error_of_result_bind h with h | ⟨⟨home, rest⟩, hs, h⟩
  · unfold splitName at h
    rw [result_get] at h
    split at h <;> cases h
  · rw [after_splitName] at h
    rcases error_of_result_bind h with h | ⟨m, -, h⟩
    · exact ⟨home, rest, message, result_splitName.1 hs, h⟩
    · rcases subjectIn_error h with h | h
      · cases h
      · cases h

theorem result_readSubject (name : String) : result (readSubject name) r =
    match result (findSubject name) r with
    | .ok subject => .ok (some subject)
    | .error (.unreadable _) => .ok none
    | .error p => .error p := by
  unfold readSubject
  rw [result_tryCatch, map_eq_pure_bind, result_bind]
  cases result (findSubject name) r with
  | ok subject => rfl
  | error p => cases p <;> rfl

/-- A request meets a problem that a handler takes only where it looks for its subject. -/
theorem findSubject_of_namedOutput {name : String} {p : Problem} (hp : p.isAbsorbed = true)
    (h : result (namedOutput {} s (outermost {} s) name) r = .error p) :
    ∃ message, p = .unresolved message ∧ result (findSubject name) r = .error (.unresolved message) := by
  rcases error_of_result_bind h with h | ⟨o, -, h⟩
  · replace h : result (readSubject name) r = .error p := h
    rw [result_readSubject] at h
    split at h
    · cases h
    · cases h
    · rename_i q hq hfind
      cases h
      cases p with
      | fault f | shape e => cases hp
      | unreadable message => exact absurd rfl (hq message)
      | unresolved message => exact ⟨message, rfl, hfind⟩
  · cases o with
    | some subject =>
      have := firm_subjectOutput {} s subject _ p h
      rw [hp] at this
      cases this
    | none => cases h

/-- A request that is answered is one for something that the name denotes, or its module cannot be read. -/
theorem denotes_of_namedOutput {name : String} {n : Node}
    (h : result (namedOutput {} s (outermost {} s) name) r = .ok n) :
    (∃ k subject, k < maxHops ∧ Denotes r name k subject) ∨ Unread r name := by
  unfold namedOutput at h
  obtain ⟨o, ho, -⟩ := exists_of_result_bind h
  change result (readSubject name) r = .ok o at ho
  rw [result_readSubject] at ho
  split at ho
  · rename_i subject hfind
    obtain ⟨k, hk, hd⟩ := denotes_of_findSubject hfind
    exact .inl ⟨k, subject, hk, hd⟩
  · rename_i message hfind
    exact .inr (unread_of_findSubject hfind)
  · cases ho

/-- An outcome in which nothing is found. -/
def Unfound (e : Except Problem α) : Prop := ∃ message, e = .error (.unresolved message)

/-- What a request for the data of a name comes to. There is an answer if the name denotes something, or if its module
cannot be read. There is none if the name denotes nothing in as many steps as are taken. Any other problem has a cause
in the sources, or in a scalar that has no example, whatever names the characters of patterns have. -/
theorem outcome_outputOf (s : Settings) (root : String) (files texts : Entries String) (name : String)
    (characters : Pattern.Characters) :
    let r := openLibrary s root files texts
    let tables : ExampleTables := { patterns := { characters } }
    (∃ n, result (outputOf {} s name tables) r = .ok n ∧
      ((∃ k subject, k < maxHops ∧ Denotes r name k subject) ∨ Unread r name)) ∨
    (Unfound (result (outputOf {} s name tables) r) ∧ ∀ k subject, Denotes r name k subject → maxHops ≤ k) ∨
    ∃ p, result (outputOf {} s name tables) r = .error p ∧ p.isAbsorbed = false ∧
      (Blame r p ∨ ∃ n, result (namedOutput {} s (outermost {} s) name) r = .ok n ∧ n.Unexampled tables none p) := by
  intro r tables
  have hclean : Clean r r := ⟨.refl r, fun hget => by rw [openLibrary_cache] at hget; cases hget⟩
  unfold outputOf
  rw [result_bind]
  cases hnamed : result (namedOutput {} s (outermost {} s) name) r with
  | ok n =>
    dsimp only
    rw [result_lift]
    cases hfinish : finish s n tables with
    | ok m => exact .inl ⟨m, rfl, denotes_of_namedOutput hnamed⟩
    | error p =>
      unfold finish at hfinish
      split at hfinish
      · have hn := unexampled_of_synthesize n hfinish
        exact .inr (.inr ⟨p, rfl, hn.isAbsorbed, .inr ⟨n, rfl, hn⟩⟩)
      · cases hfinish
  | error p =>
    cases hp : p.isAbsorbed with
    | true =>
      obtain ⟨message, rfl, hfind⟩ := findSubject_of_namedOutput hp hnamed
      refine .inr (.inl ⟨⟨message, rfl⟩, fun k subject hd => Nat.le_of_not_lt fun hk => ?_⟩)
      obtain ⟨found, hfound⟩ := exists_subject hd hk
      cases hfind.symm.trans hfound
    | false =>
      refine .inr (.inr ⟨p, rfl, hp, .inl ?_⟩)
      exact (blamed_of_namedOutput hclean hnamed).resolve_left (by rw [hp]; exact Bool.false_ne_true)

/-- The class `C`, with a decorator that declares a union. -/
def united : Source.Class :=
  { recordOf "C" [] with
    decorators := [{ name := "response_field", args := [.str "u"], kwargs := [("type", .str "union")] }] }

/-- The class `C`, with a whole number that is no less than infinity. -/
def unbounded : Source.Class :=
  { recordOf "C" [] with
    fields := [{
      name := "x", typeText := "int", line := 1, hasDefault := true
      call := some { name := "Field", kwargs := [("ge", .float (.infinite false))] } }] }

/-- A decorator, or the example of a bound, keeps a class that is there from having a schema. -/
theorem escapes_outputOf :
    Fatal (result (outputOf {} {} "m.C") (libraryOf (moduleOf [united]) true)) ∧
    Fatal (result (outputOf {} {} "m.C") (libraryOf (moduleOf [unbounded]) true)) :=
  ⟨by decide +kernel, by decide +kernel⟩

end ApiSchema
