import ApiSchema.Infer.Schema

/-!
# Reading a library

Most of the inference only reads: it loads modules, splits names and walks up chains of ancestors. Such a
computation (`Reads`) leaves the sources and the kept schemas of a library as they are (`Reads.learned`).
What it gives is a fact about the sources alone (`Gives`); a class that it gives is one that a module
defines (`Found`). What holds of sequences as soon as it holds of their parts (`Sequential`) is followed
through the functions once, for all such properties.
-/
namespace ApiSchema

open Source

variable {α β : Type} {l l' : Library} {p : Problem} {name : String} {c : Cache} {k : ReadCounts}
  {x : Inference α} {Q : Problem → Prop} {f : α → Inference β}

/-! ## Runs -/

/-- Computations over a state, as inference is one over a library. -/
abbrev Over (σ : Type) := ExceptT Problem (StateM σ)

section

variable {σ : Type} (x : Over σ α) (f : α → Over σ β) (l : σ)

/-- What a computation gives over a library, or over another state. -/
def result : Except Problem α := (x.run.run l).1
/-- The library after a computation. -/
def after : σ := (x.run.run l).2

theorem result_bind : result (x >>= f) l = match result x l with
      | .ok a => result (f a) (after x l)
      | .error p => .error p := by
  change (StateT.run (ExceptT.bindCont f (x.run.run l).1) (x.run.run l).2).1 = _
  unfold result after
  cases (x.run.run l).1 <;> rfl

theorem after_bind : after (x >>= f) l = match result x l with
      | .ok a => after (f a) (after x l)
      | .error _ => after x l := by
  change (StateT.run (ExceptT.bindCont f (x.run.run l).1) (x.run.run l).2).2 = _
  unfold result after
  cases (x.run.run l).1 <;> rfl

variable {x f l}

theorem exists_of_result_bind {b : β} (h : result (x >>= f) l = .ok b) :
    ∃ a, result x l = .ok a ∧ result (f a) (after x l) = .ok b := by
  rw [result_bind] at h
  cases hx : result x l with
  | error p => rw [hx] at h; cases h
  | ok a => exact ⟨a, rfl, by rwa [hx] at h⟩

theorem error_of_result_bind (h : result (x >>= f) l = .error p) :
    result x l = .error p ∨ ∃ a, result x l = .ok a ∧ result (f a) (after x l) = .error p := by
  rw [result_bind] at h
  cases hx : result x l with
  | error q =>
    rw [hx] at h
    cases h
    exact .inl rfl
  | ok a => exact .inr ⟨a, rfl, by rwa [hx] at h⟩

@[simp]
theorem result_pure (a : α) (l : σ) : result (pure a) l = .ok a := rfl
@[simp]
theorem after_pure (a : α) (l : σ) : after (pure a) l = l := rfl
@[simp]
theorem result_throw (p : Problem) (l : σ) : result (throw p : Over σ α) l = .error p := rfl
@[simp]
theorem after_throw (p : Problem) (l : σ) : after (throw p : Over σ α) l = l := rfl

theorem result_tryCatch (x : Over σ α) (f : Problem → Over σ α) (l : σ) :
    result (tryCatch x f) l = match result x l with
      | .ok a => .ok a
      | .error p => result (f p) (after x l) := by
  unfold result after ExceptT.run StateT.run
  change (ExceptT.tryCatch x f l).1 = _
  simp only [ExceptT.tryCatch, ExceptT.mk, bind, StateT.bind]
  rcases x l with ⟨_ | _, _⟩ <;> rfl

theorem after_tryCatch (x : Over σ α) (f : Problem → Over σ α) (l : σ) :
    after (tryCatch x f) l = match result x l with
      | .ok _ => after x l
      | .error p => after (f p) (after x l) := by
  unfold result after ExceptT.run StateT.run
  change (ExceptT.tryCatch x f l).2 = _
  simp only [ExceptT.tryCatch, ExceptT.mk, bind, StateT.bind]
  rcases x l with ⟨_ | _, _⟩ <;> rfl

theorem result_lift (x : Attempt α) (l : σ) : result (liftM x : Over σ α) l = x := rfl
theorem after_lift (x : Attempt α) (l : σ) : after (liftM x : Over σ α) l = l := rfl
theorem result_get (f : σ → Over σ α) (l : σ) : result (get >>= f) l = result (f l) l := rfl

theorem run_get (f : σ → Over σ α) (l : σ) :
    (get >>= f).run.run l = (f l).run.run l := rfl

theorem after_get (f : σ → Over σ α) (l : σ) : after (get >>= f) l = after (f l) l := rfl

theorem result_attempt (x : Over σ (Option α)) (l : σ) :
    result (attempt x) l = match result x l with
      | .ok a => .ok a
      | .error p => if p.isAbsorbed then .ok none else .error p := by
  rw [attempt, result_tryCatch]
  cases result x l with
  | ok a => rfl
  | error p => by_cases h : p.isAbsorbed <;> simp [h]

theorem after_attempt (x : Over σ (Option α)) (l : σ) : after (attempt x) l = after x l := by
  rw [attempt, after_tryCatch]
  cases result x l with
  | ok a => rfl
  | error p => by_cases h : p.isAbsorbed <;> simp [h]

end

/-! ## Sequences -/

/-- A property of computations that holds of a sequence if it holds of its parts. -/
structure Sequential (C : (α : Type) → Inference α → Prop) : Prop where
  pure : ∀ {α : Type} (a : α), C α (pure a)
  bind : ∀ {α β : Type} {x : Inference α} {f : α → Inference β}, C α x → (∀ a, C β (f a)) → C β (x >>= f)

namespace Sequential

variable {C : (α : Type) → Inference α → Prop} (h : Sequential C)
include h

theorem mapM (hf : ∀ a, C _ (f a)) (as : List α) : C _ (as.mapM f) := by
  induction as with
  | nil => rw [List.mapM_nil]; exact h.pure []
  | cons a as ih =>
    rw [List.mapM_cons]
    exact h.bind (hf a) fun b => h.bind ih fun bs => h.pure _

theorem foldlM {f : β → α → Inference β} (hf : ∀ b a, C _ (f b a)) (b : β) (as : List α) : C _ (as.foldlM f b) := by
  induction as generalizing b with
  | nil => exact h.pure b
  | cons a as ih => exact h.bind (hf b a) fun b' => ih b'

theorem firstExisting {isClass : String → Inference Bool} (hc : ∀ name, C _ (isClass name)) (names : List String) :
    C _ (Source.firstExisting isClass names) := by
  induction names with
  | nil => exact h.pure none
  | cons name names ih =>
    refine h.bind (hc name) fun b => ?_
    cases b with
    | true => exact h.pure _
    | false => exact ih

theorem resolveName (hc : ∀ name, C _ (findClass name)) (m : Source.Module) (name : String) :
    C _ (resolveName m name) := by
  have isClass : ∀ n, C _ (do return (← findClass n).isSome) := fun n => h.bind (hc n) fun _ => h.pure _
  unfold ApiSchema.resolveName Source.Imports.resolve
  split
  · exact h.pure _
  · dsimp only
    split
    · exact h.pure _
    · refine h.bind (isClass _) fun b => ?_
      cases b with
      | true => exact h.pure _
      | false => exact h.bind (h.firstExisting isClass _) fun _ => h.pure _

theorem newParents (hc : ∀ name, C _ (findClass name)) (seen : List String) (l : Located) : C _ (newParents seen l) :=
  h.bind (h.mapM (fun _ => h.bind (h.resolveName hc _ _) fun _ => hc _) _) fun _ => h.pure _

theorem chainFrom (hp : ∀ seen a, C _ (ApiSchema.newParents seen a)) (n : Nat) (seen : List String)
    (pending : List Located) : C _ (chainFrom n seen pending) := by
  induction n generalizing seen pending with
  | zero => exact h.pure _
  | succ n ih =>
    cases pending with
    | nil => exact h.pure _
    | cons l pending =>
      unfold ApiSchema.chainFrom
      dsimp only
      split
      · exact ih _ _
      · exact h.bind (hp _ _) fun _ => h.bind (ih _ _) fun _ => h.pure _

theorem enumNode {l : Located} (he : C _ (isEnum l)) (hm : C _ (liftM (liftM l.cls.members : Attempt _))) :
    C _ (Infer.enumNode l) := by
  refine h.bind he fun b => ?_
  cases b with
  | true => exact h.bind hm fun _ => h.pure _
  | false => exact h.pure none

theorem enumValues (hc : ∀ name, C _ (findClass name)) (he : ∀ l, C _ (isEnum l))
    (hm : ∀ l : Located, C _ (liftM (liftM l.cls.members : Attempt _))) (name : String) :
    C _ (Infer.enumValues name) := by
  refine h.bind (hc name) fun found => ?_
  cases found with
  | none => exact h.pure none
  | some l =>
    refine h.bind (he l) fun b => ?_
    cases b with
    | true => exact h.bind (hm l) fun _ => h.pure _
    | false => exact h.pure none

theorem ofRules (hv : ∀ name, C _ (Infer.enumValues name))
    (hp : ∀ table known s t, C _ (liftM (Rule.applyPlain table known s t))) (hn : ∀ s : Rule.State, C _ (liftM s.node))
    (rules : Entries Rule.Raw) : C _ (Infer.ofRules rules) := by
  refine h.bind (h.foldlM (fun acc r => ?_) _ _) fun _ => h.pure _
  have step : ∀ s t, C _ (Rule.apply { enums := some Infer.enumValues } s t) := by
    intro s t
    unfold Rule.apply
    split
    · cases Rule.given? t with
      | none => exact h.pure _
      | some name =>
        refine h.bind (hv name) fun values => ?_
        split <;> exact h.pure _
    · exact hp _ _ s t
  refine h.bind (h.bind (h.foldlM step _ _) fun _ => hn _) fun n => ?_
  dsimp only
  split <;> exact h.pure _

end Sequential

theorem sequential_keeps (P : Library → Prop) : Sequential fun _ x => ∀ l, P l → P (after x l) where
  pure _ _ hl := hl
  bind {_ _ x _} hx hf l hl := by
    rw [after_bind]
    cases result x l with
    | ok a => exact hf a _ (hx l hl)
    | error p => exact hx l hl

/-! ## Reading computations -/

/-- Computations that only read: they load modules and split names, in an order that may depend on what
they have read. A chain of ancestors counts as one step, made of steps that read, since how far it may go
depends on the library. What they meet besides modules that cannot be loaded is absorbed, or is one of the problems
in `Q`. -/
inductive Reads (Q : Problem → Prop) : {α : Type} → Inference α → Prop
  | pure {α : Type} (a : α) : Reads Q (pure a)
  | throw {α : Type} (p : Problem) (h : p.isAbsorbed = true ∨ Q p) : Reads Q (throw p : Inference α)
  | tried {α : Type} (x : Attempt α) (h : ∀ p, x = .error p → Q p) : Reads Q (liftM x : Inference α)
  | bind {α β : Type} {x : Inference α} {f : α → Inference β} (hx : Reads Q x) (hf : ∀ a, Reads Q (f a)) :
    Reads Q (x >>= f)
  | recover {α : Type} {x : Inference α} {f : Problem → Inference α} (hx : Reads Q x)
    (hf : ∀ p, p.isAbsorbed = true → Reads Q (f p)) (ht : ∀ p, p.isAbsorbed = false → f p = throw p) :
    Reads Q (tryCatch x f)
  | load (name : String) : Reads Q (loadModule name)
  | split (name : String) : Reads Q (splitName name)
  | chain (l : Located) (h : ∀ seen a, Reads Q (newParents seen a)) : Reads Q (ancestorChain l)

namespace Reads

variable {Q : Problem → Prop}

theorem mono {Q' : Problem → Prop} (hx : Reads Q x) (h : ∀ p, Q p → Q' p) : Reads Q' x := by
  induction hx with
  | pure a => exact .pure a
  | throw p hp => exact .throw p (hp.imp_right (h p))
  | tried x hx => exact .tried x fun p hp => h p (hx p hp)
  | bind _ _ ihx ihf => exact .bind ihx ihf
  | recover _ _ ht ihx ihf => exact .recover ihx ihf ht
  | load name => exact .load name
  | split name => exact .split name
  | chain l _ ih => exact .chain l ih

theorem fault {x : Except Fault α} (h : ∀ f, x = .error f → Q (.fault f)) : Reads Q (liftM (liftM x : Attempt α)) := by
  refine .tried _ fun p hp => ?_
  cases x with
  | ok a => cases hp
  | error f =>
    cases hp
    exact h f rfl

theorem map (f : α → β) (hx : Reads Q x) : Reads Q (f <$> x) := by
  rw [map_eq_pure_bind]
  exact .bind hx fun a => .pure _

theorem attempt {x : Inference (Option α)} (hx : Reads Q x) : Reads Q (ApiSchema.attempt x) := by
  refine .recover hx (fun p hp => ?_) fun p hp => ?_
  · rw [if_pos hp]
    exact .pure none
  · rw [hp]
    rfl

theorem sequential : Sequential (@Reads Q) := ⟨.pure, .bind⟩

theorem mapM (hf : ∀ a, Reads Q (f a)) (as : List α) : Reads Q (as.mapM f) :=
  sequential.mapM hf as

theorem foldlM {f : β → α → Inference β} (hf : ∀ b a, Reads Q (f b a)) (b : β) (as : List α) :
    Reads Q (as.foldlM f b) := sequential.foldlM hf b as

/-! ### Classes and their ancestors -/

theorem hop (name : String) : Reads Q (ApiSchema.hop name) :=
  .bind (.split name) fun _ => .bind (.load _) fun _ => .pure _

theorem locateFrom (seen : List String) (name : String) (n : Nat) : Reads Q (ApiSchema.locateFrom seen name n) := by
  induction n generalizing seen name with
  | zero => exact .pure none
  | succ n ih =>
    unfold ApiSchema.locateFrom
    split
    · exact .pure none
    · refine .bind (hop name) fun h => ?_
      cases h with
      | found l => exact .pure _
      | next target => exact ih _ _
      | stuck => exact .pure _

theorem locateClass (name : String) : Reads Q (ApiSchema.locateClass name) := by
  refine .bind (locateFrom _ _ _) fun found => ?_
  cases found with
  | none => exact .throw _ (.inl rfl)
  | some l => exact .pure _

theorem findClass (name : String) : Reads Q (ApiSchema.findClass name) := attempt (map _ (locateClass name))

theorem resolveName (m : Source.Module) (name : String) : Reads Q (ApiSchema.resolveName m name) :=
  sequential.resolveName findClass m name

theorem resolveClass (m : Source.Module) (name : String) : Reads Q (ApiSchema.resolveClass m name) :=
  .bind (resolveName m name) fun _ => findClass _

theorem newParents (seen : List String) (l : Located) : Reads Q (ApiSchema.newParents seen l) :=
  sequential.newParents findClass seen l

theorem ancestorChain (l : Located) : Reads Q (ApiSchema.ancestorChain l) := .chain l newParents

theorem baseNames (l : Located) : Reads Q (ApiSchema.baseNames l) :=
  .bind (ancestorChain l) fun _ => .bind (mapM (fun _ => mapM (fun _ => resolveName _ _) _) _) fun _ => .pure _

theorem isEnum (l : Located) : Reads Q (ApiSchema.isEnum l) := .bind (baseNames l) fun _ => .pure _

/-! ### Types, rules and subjects -/

open Infer

theorem enumNode (l : Located) (hl : ∀ f, l.cls.members = .error f → Q (.fault f)) : Reads Q (Infer.enumNode l) :=
  sequential.enumNode (isEnum l) (fault hl)

theorem enumValues (name : String) : Reads (fun _ => True) (Infer.enumValues name) :=
  sequential.enumValues findClass isEnum (fun _ => .tried _ fun _ _ => trivial) name

theorem declaredFields (direction : Direction) (s : Subject) :
    Reads (fun _ => True) (Infer.declaredFields direction s) := by
  cases s with
  | cls l => exact .bind (ancestorChain l) fun _ => .tried _ fun _ _ => trivial
  | function name m f | method name m c f => exact .tried _ fun _ _ => trivial

theorem declaringModule (home : Source.Module) (scope : Option String) :
    Reads Q (Infer.declaringModule home scope) := by
  unfold Infer.declaringModule
  split
  · exact .bind (attempt (map _ (.load _))) fun _ => .pure _
  · exact .pure _

theorem attributeType? (name : String) (l : Located) : Reads Q (Field.attributeType? name l) :=
  .bind (ancestorChain l) fun _ => .pure _

theorem attributeClass (name : String) (l : Located) : Reads Q (Infer.attributeClass name l) := by
  refine .bind (attributeType? name l) fun written => ?_
  cases written with
  | none => exact .pure none
  | some written =>
    dsimp only
    split
    · exact .pure none
    · exact .bind (resolveClass _ _) fun _ => .pure _

theorem ownerOf (s : Subject) : Reads Q (Infer.ownerOf s) := by
  unfold Infer.ownerOf
  split
  · exact findClass _
  · exact .pure none

theorem resolveRules (m : Source.Module) (ds : Option (List Rule.Declaration)) :
    Reads Q (Infer.resolveRules m ds) := by
  cases ds with
  | none => exact .pure none
  | some ds =>
    refine map _ (foldlM (fun acc d => .bind (mapM (fun r => ?_) _) fun _ => .pure _) _ _)
    cases r with
    | token t => exact .pure t
    | enumeration name => exact .bind (resolveName m name) fun _ => .pure _

theorem classRules (s : Settings) (l : Located) : Reads Q (Infer.classRules s l) :=
  .bind (ancestorChain l) fun _ => resolveRules _ _

theorem givenRules {rules : Inference (Option Rule.RuleSet)} (h : Reads Q rules) : Reads Q (Infer.givenRules rules) :=
  .bind (attempt h) fun _ => .pure _

theorem ofRules (rules : Entries Rule.Raw) : Reads (fun _ => True) (Infer.ofRules rules) :=
  sequential.ofRules enumValues (fun _ _ _ _ => .tried _ fun _ _ => trivial)
    (fun _ => .tried _ fun _ _ => trivial) rules

theorem recordClass (m : Source.Module) (name : String) : Reads Q (Infer.recordClass m name) := by
  refine .bind (resolveClass m name) fun found => ?_
  cases found with
  | none => exact .pure none
  | some l => exact .bind (isEnum l) fun _ => .pure _

theorem parameterClasses (t : Infer.Tables) (m : Source.Module) (f : Function) :
    Reads Q (Infer.parameterClasses t m f) := by
  exact .bind (mapM (recordClass m) _) fun _ => .pure _

theorem firstRules (s : Settings) (ls : List Located) : Reads Q (Infer.firstRules s ls) := by
  induction ls with
  | nil => exact .pure none
  | cons l ls ih =>
    refine .bind (classRules s l) fun rules => ?_
    split
    · exact .pure _
    · exact ih

theorem handlerRules (t : Infer.Tables) (s : Settings) (m : Source.Module) (f : Function) :
    Reads Q (Infer.handlerRules t s m f) := by
  refine .bind (parameterClasses t m f) fun ls => .bind (firstRules s ls) fun rules => ?_
  cases rules with
  | none => exact resolveRules _ _
  | some rules => exact .pure _

theorem readFields (t : Infer.Tables) (f : Function) : Reads (fun _ => True) (Infer.readFields t f) := by
  unfold Infer.readFields
  split
  · exact .bind (.tried _ fun _ _ => trivial) fun _ => .pure _
  · exact .pure _

theorem subjectIn (name home : String) (m : Source.Module) (rest : List String) :
    Reads Q (ApiSchema.subjectIn name home m rest) := by
  unfold ApiSchema.subjectIn
  split
  · split
    · exact .pure _
    · exact .pure _
    · refine .bind (findClass name) fun found => ?_
      cases found with
      | none => exact .throw _ (.inl rfl)
      | some l => exact .pure _
  · refine .bind (findClass _) fun found => ?_
    cases found with
    | none => exact .throw _ (.inl rfl)
    | some l =>
      refine .bind (ancestorChain l) fun chain => ?_
      split
      · exact .pure _
      · exact .throw _ (.inl rfl)
  · exact .throw _ (.inl rfl)

theorem findSubject (name : String) : Reads Q (ApiSchema.findSubject name) :=
  .bind (.split name) fun _ => .bind (.load _) fun _ => subjectIn ..

theorem readSubject (name : String) : Reads Q (Infer.readSubject name) := by
  refine .recover (map _ (findSubject name)) (fun p hp => ?_) fun p hp => ?_
  · split
    · exact .pure none
    · exact .throw _ (.inl hp)
  · cases p with
    | fault f | shape e => rfl
    | unreadable m | unresolved m => cases hp

end Reads

/-! ## Loading a module -/

/-- The library with another cache and other counts: the sources stay. -/
def Library.knowing (l : Library) (c : Cache) (k : ReadCounts) : Library := { l with cache := c, counts := k }

theorem after_recordOutcome (place : String) (o : Except ReadError Source.Module) (l : Library) :
    ∃ k, after (recordOutcome place o) l = l.knowing l.cache k := by
  rcases o with (_ | _ | f) | m
  · exact ⟨_, rfl⟩
  · exact ⟨_, rfl⟩
  · exact ⟨l.counts, rfl⟩
  · exact ⟨_, rfl⟩

theorem result_recordOutcome (place : String) (o : Except ReadError Source.Module) (l l' : Library) :
    result (recordOutcome place o) l' = result (recordOutcome place o) l := by
  rcases o with (_ | _ | f) | m <;> rfl

theorem result_failToRead (message : String) (l : Library) :
    result (failToRead message) l = .error (.unreadable message) := rfl

theorem after_failToRead (message : String) (l : Library) :
    after (failToRead message) l = l.knowing l.cache l.counts.countFailure := rfl

theorem after_readFile (path : String) (l : Library) : ∃ k, after (readFile path) l = l.knowing l.cache k := by
  unfold readFile
  rw [after_get]
  cases l.folder.get? path with
  | none => exact ⟨_, after_failToRead _ l⟩
  | some file =>
    dsimp only
    split
    · exact ⟨_, after_failToRead _ l⟩
    · exact after_recordOutcome _ _ l

/-- What a file gives depends on the folder alone. -/
theorem result_readFile (path : String) (hfolder : l'.folder = l.folder) (hroot : l'.root = l.root)
    (hsize : l'.maxFileSize = l.maxFileSize) : result (readFile path) l' = result (readFile path) l := by
  unfold readFile
  rw [result_get, result_get, hfolder]
  cases l.folder.get? path with
  | none =>
    have hreason : missingReason l' path = missingReason l path := by
      unfold missingReason
      rw [hfolder]
    dsimp only
    rw [result_failToRead, result_failToRead, hreason, hroot]
  | some file =>
    dsimp only
    rw [hsize]
    split
    · exact (result_failToRead _ _).trans (result_failToRead _ _).symm
    · rw [hroot]
      exact result_recordOutcome _ _ l l'

theorem run_readSource (l : Library) (name : String) (l' : Library) :
    (∃ k, after (readSource l name) l' = l'.knowing l'.cache k) ∧
      ∀ c k, result (readSource l name) (l'.knowing c k) = result (readSource l name) l' := by
  unfold readSource
  split
  · exact ⟨after_recordOutcome _ _ l', fun _ _ => result_recordOutcome _ _ _ _⟩
  · exact ⟨after_readFile _ l', fun _ _ => result_readFile _ rfl rfl rfl⟩
  · exact ⟨⟨l'.counts, rfl⟩, fun _ _ => rfl⟩

theorem loadModule_known {m : Source.Module}
    (h : l.cache.modules.get? name = some m) :
    result (loadModule name) l = .ok m ∧
      after (loadModule name) l = l.knowing (l.cache.getModule name).2 l.counts := by
  have hg : (l.cache.getModule name).1 = some m := by simp [Cache.getModule, h]
  unfold loadModule
  simp only [result_get, after_get]
  generalize l.cache.getModule name = g at hg ⊢
  obtain ⟨known, c⟩ := g
  cases hg
  exact ⟨rfl, rfl⟩

theorem loadModule_new (h : l.cache.modules.get? name = none) :
    result (loadModule name) l = result (readSource l name) l ∧
      ∃ k, after (loadModule name) l = l.knowing (match result (readSource l name) l with
        | .ok m => (l.cache.getModule name).2.putModule name m
        | .error _ => (l.cache.getModule name).2) k := by
  have hg : (l.cache.getModule name).1 = none := by simp [Cache.getModule, h]
  have hrun : (loadModule name).run.run l =
      (readSource l name >>= loadModule.keep name).run.run (l.knowing (l.cache.getModule name).2 l.counts) := by
    unfold loadModule
    rw [run_get]
    generalize l.cache.getModule name = g at hg
    obtain ⟨known, c⟩ := g
    cases hg
    rfl
  generalize (l.cache.getModule name).2 = c at hrun ⊢
  obtain ⟨⟨k, hk⟩, _⟩ := run_readSource l name (l.knowing c l.counts)
  have hr := (run_readSource l name l).2 c l.counts
  have hres : result (loadModule name) l = result (readSource l name >>= loadModule.keep name) (l.knowing c l.counts) :=
    congrArg Prod.fst hrun
  have haft : after (loadModule name) l = after (readSource l name >>= loadModule.keep name) (l.knowing c l.counts) :=
    congrArg Prod.snd hrun
  rw [hres, haft, result_bind, after_bind, hr, hk]
  cases result (readSource l name) l with
  | ok m | error p => exact ⟨rfl, k, rfl⟩

/-! ## What reading leaves as it is -/

theorem result_loadModule (name : String) (l : Library) :
    result (loadModule name) l =
      match l.cache.modules.get? name with
      | some m => .ok m
      | none => result (readSource l name) l := by
  cases h : l.cache.modules.get? name with
  | none => exact (loadModule_new h).1
  | some m => exact (loadModule_known h).1

/-- With another cache, a module is the one that the cache has, or is read as before. -/
theorem result_loadModule_knowing (l : Library) (c : Cache) (k : ReadCounts) (name : String) :
    result (loadModule name) (l.knowing c k) =
      match c.modules.get? name with
      | some m => .ok m
      | none => result (readSource l name) l := by
  have hr : result (readSource (l.knowing c k) name) (l.knowing c k) = result (readSource l name) l :=
    (run_readSource l name l).2 c k
  rw [result_loadModule, hr]
  rfl

/-- The second library has the sources of the first. What could be loaded from the first can be loaded from
the second, what was loaded stays loaded, and no schema was kept or dropped. -/
structure Learned (l l' : Library) : Prop where
  has : ∀ name, l'.hasModule name = l.hasModule name
  outcome : ∀ name, result (loadModule name) l' = result (loadModule name) l
  loaded : ∀ name, l.cache.modules.has name = true → l'.cache.modules.has name = true
  schemas : l'.cache.schemas = l.cache.schemas
  enabled : l'.cache.enabled = l.cache.enabled

namespace Learned

theorem refl (l : Library) : Learned l l := ⟨fun _ => rfl, fun _ => rfl, fun _ h => h, rfl, rfl⟩

theorem trans {l'' : Library} (h : Learned l l') (h' : Learned l' l'') : Learned l l'' where
  has name := (h'.has name).trans (h.has name)
  outcome name := (h'.outcome name).trans (h.outcome name)
  loaded name hl := h'.loaded name (h.loaded name hl)
  schemas := h'.schemas.trans h.schemas
  enabled := h'.enabled.trans h.enabled

end Learned

/-- A cache that has the same schemas, and the same modules except for one that was loaded. -/
theorem learned_knowing (hs : c.schemas = l.cache.schemas)
    (he : c.enabled = l.cache.enabled)
    (hm : ∀ name, c.modules.get? name = l.cache.modules.get? name ∨
      ∃ m, l.cache.modules.get? name = none ∧ c.modules.get? name = some m ∧ result (readSource l name) l = .ok m) :
    Learned l (l.knowing c k) where
  has _ := rfl
  outcome name := by
    rw [result_loadModule_knowing, result_loadModule]
    rcases hm name with h | ⟨m, h, hc, hr⟩
    · rw [h]
    · rw [h, hc, hr]
  loaded name hl := by
    change (c.modules.get? name).isSome = true
    rcases hm name with h | ⟨m, _, hc, _⟩
    · rw [h]
      exact hl
    · rw [hc]
      rfl
  schemas := hs
  enabled := he

theorem getModule_fields (c : Cache) (name : String) :
    (c.getModule name).2.schemas = c.schemas ∧ (c.getModule name).2.enabled = c.enabled ∧
      (c.getModule name).2.modules = c.modules := by
  unfold Cache.getModule
  split <;> exact ⟨rfl, rfl, rfl⟩

theorem learned_loadModule (name : String) (l : Library) : Learned l (after (loadModule name) l) := by
  obtain ⟨hs, he, hm⟩ := getModule_fields l.cache name
  cases h : l.cache.modules.get? name with
  | some m =>
    rw [(loadModule_known h).2]
    exact learned_knowing hs he fun n => .inl (by rw [hm])
  | none =>
    obtain ⟨k, hk⟩ := (loadModule_new h).2
    rw [hk]
    cases hr : result (readSource l name) l with
    | error p => exact learned_knowing hs he fun n => .inl (by rw [hm])
    | ok m =>
      refine learned_knowing hs he fun n => ?_
      by_cases hn : n = name
      · subst hn
        exact .inr ⟨m, h, Entries.get?_set_self _ _ _, hr⟩
      · refine .inl ?_
        rw [← hm]
        exact Entries.get?_set_ne _ _ hn

theorem loaded_of_loadModule {m : Source.Module}
    (h : result (loadModule name) l = .ok m) : (after (loadModule name) l).cache.modules.has name = true := by
  obtain ⟨_, _, hm⟩ := getModule_fields l.cache name
  unfold Entries.has
  cases hg : l.cache.modules.get? name with
  | some m' =>
    rw [(loadModule_known hg).2]
    change ((l.cache.getModule name).2.modules.get? name).isSome = true
    rw [hm, hg]
    rfl
  | none =>
    obtain ⟨hr, k, hk⟩ := loadModule_new hg
    rw [hk, ← hr, h]
    change (Entries.get? (Entries.set _ name m) name).isSome = true
    rw [Entries.get?_set_self]
    rfl

theorem after_splitName (name : String) (l : Library) : after (splitName name) l = l := by
  unfold splitName
  rw [after_get]
  cases l.splitName? name <;> rfl

/-- What loading a module keeps, reading keeps. -/
theorem Reads.keeps {P : Library → Prop} (hload : ∀ name l, P l → P (after (loadModule name) l)) (hx : Reads Q x)
    (hl : P l) : P (after x l) := by
  induction hx generalizing l with
  | pure a | throw p _ | tried x _ => exact hl
  | bind _ _ ihx ihf => exact (sequential_keeps P).bind (fun _ => ihx) (fun a _ => ihf a) l hl
  | @recover α x f _ _ ht ihx ihf =>
    rw [after_tryCatch]
    cases result x l with
    | ok a => exact ihx hl
    | error p =>
      cases hp : p.isAbsorbed with
      | true => exact ihf p hp (ihx hl)
      | false =>
        dsimp only
        rw [ht p hp]
        exact ihx hl
  | load name => exact hload name l hl
  | split name =>
    rw [after_splitName]
    exact hl
  | chain c _ ih => exact (sequential_keeps P).chainFrom (fun seen a _ => ih seen a) _ _ _ l hl

/-- Reading leaves the sources and the kept schemas as they are. -/
theorem Reads.learned (hx : Reads Q x) (l : Library) : Learned l (after x l) :=
  hx.keeps (fun name l' hl => hl.trans (learned_loadModule name l')) (.refl l)

/-! ## What reading gives -/

/-- Libraries over the same sources. -/
structure Alike (r l : Library) : Prop where
  has : ∀ name, l.hasModule name = r.hasModule name
  outcome : ∀ name, result (loadModule name) l = result (loadModule name) r

theorem Alike.refl (r : Library) : Alike r r := ⟨fun _ => rfl, fun _ => rfl⟩

theorem Alike.symm {r : Library} (h : Alike r l) : Alike l r :=
  ⟨fun name => (h.has name).symm, fun name => (h.outcome name).symm⟩

theorem Alike.trans {l'' : Library} (h : Alike l l') (h' : Alike l' l'') : Alike l l'' :=
  ⟨fun name => (h'.has name).trans (h.has name), fun name => (h'.outcome name).trans (h.outcome name)⟩

theorem Learned.alike (h : Learned l l') : Alike l l' := ⟨h.has, h.outcome⟩

theorem Alike.learned {r : Library} (h : Alike r l) (h' : Learned l l') : Alike r l' := h.trans h'.alike

theorem alike_knowing (hm : c.modules = l.cache.modules) :
    Alike l (l.knowing c k) :=
  ⟨fun _ => rfl, fun name => by rw [result_loadModule_knowing, result_loadModule, hm]⟩

/-- A problem with which a module cannot be loaded. -/
def Unloaded (l : Library) (p : Problem) : Prop := ∃ name, result (loadModule name) l = .error p

theorem Unloaded.alike (h : Unloaded l' p) (hl : Alike l l') : Unloaded l p := by
  obtain ⟨name, hname⟩ := h
  exact ⟨name, (hl.outcome name).symm.trans hname⟩

/-- The problems that reading meets: it takes no notice of them, or they are those of a module, or in `Q`. -/
def Met (Q : Problem → Prop) (l : Library) (p : Problem) : Prop := p.isAbsorbed = true ∨ Unloaded l p ∨ Q p

theorem Met.alike (h : Met Q l' p) (hl : Alike l l') : Met Q l p :=
  h.imp_right (Or.imp_left fun h => h.alike hl)

theorem met_bind (hl : Learned l (after x l)) (hx : ∀ p, result x l = .error p → Met Q l p)
    (hf : ∀ a p, result (f a) (after x l) = .error p → Met Q (after x l) p)
    (h : result (x >>= f) l = .error p) : Met Q l p := by
  rcases error_of_result_bind h with ha | ⟨a, -, h⟩
  · exact hx p ha
  · exact (hf a p h).alike hl.alike

theorem sequential_met (Q : Problem → Prop) :
    Sequential fun _ x => Reads Q x ∧ ∀ l p, result x l = .error p → Met Q l p where
  pure a := ⟨.pure a, nofun⟩
  bind hx hf := ⟨.bind hx.1 fun a => (hf a).1, fun l _ => met_bind (hx.1.learned l) (hx.2 l) fun a => (hf a).2 _⟩

theorem Reads.met (hx : Reads Q x)
    (h : result x l = .error p) : Met Q l p := by
  induction hx generalizing l p with
  | pure a => cases h
  | throw q hq =>
    cases h
    exact hq.imp_right .inr
  | tried x hx => exact .inr (.inr (hx p h))
  | bind hx _ ihx ihf => exact met_bind (hx.learned l) (fun _ => ihx) (fun a _ => ihf a) h
  | @recover α x f hx _ ht ihx ihf =>
    rw [result_tryCatch] at h
    cases hq : result x l with
    | ok a =>
      rw [hq] at h
      cases h
    | error q =>
      rw [hq] at h
      cases hf : q.isAbsorbed with
      | true => exact (ihf q hf h).alike (hx.learned l).alike
      | false =>
        dsimp only at h
        rw [ht q hf] at h
        cases h
        exact ihx hq
  | load name => exact .inr (.inl ⟨name, h⟩)
  | split name =>
    unfold splitName at h
    rw [result_get] at h
    cases hs : l.splitName? name with
    | some found => rw [hs] at h; cases h
    | none =>
      rw [hs] at h
      cases h
      exact .inl rfl
  | chain c hreads ih =>
    exact ((sequential_met Q).chainFrom (fun seen a => ⟨hreads seen a, fun _ _ => ih seen a⟩) _ _ _).2 l p h

/-- What a computation gives over any library with the sources of `r` satisfies `Post`. -/
def Gives (r : Library) (x : Inference α) (Post : α → Prop) : Prop :=
  ∀ l, Alike r l → ∀ a, result x l = .ok a → Post a

namespace Gives

variable {r : Library} {P : α → Prop} {Q : β → Prop}

theorem pure {a : α} (h : P a) : Gives r (pure a) P := by
  intro l _ b hb
  cases hb
  exact h

theorem throw : Gives r (throw p) P := nofun

theorem bind {x : Inference α} {f : α → Inference β} (hr : Reads (fun _ => True) x) (hx : Gives r x P)
    (hf : ∀ a, P a → Gives r (f a) Q) : Gives r (x >>= f) Q := by
  intro l hl b hb
  obtain ⟨a, ha, hb⟩ := exists_of_result_bind hb
  exact hf a (hx l hl a ha) _ (hl.learned (hr.learned l)) b hb

theorem recover {x : Inference α} {f : Problem → Inference α} (hr : Reads (fun _ => True) x) (hx : Gives r x P)
    (hf : ∀ p, Gives r (f p) P) : Gives r (tryCatch x f) P := by
  intro l hl a ha
  rw [result_tryCatch] at ha
  cases h : result x l with
  | ok b =>
    rw [h] at ha
    cases ha
    exact hx l hl a h
  | error p =>
    rw [h] at ha
    exact hf p _ (hl.learned (hr.learned l)) a ha

theorem trivial : Gives r x fun _ => True := fun _ _ _ _ => True.intro

theorem attempt {x : Inference (Option α)} (hx : Gives r x fun o => ∀ a ∈ o, P a) :
    Gives r (attempt x) fun o => ∀ a ∈ o, P a := by
  intro l hl o ho
  rw [result_attempt] at ho
  cases h : result x l with
  | ok o' =>
    rw [h] at ho
    cases ho
    exact hx l hl o h
  | error p =>
    rw [h] at ho
    dsimp only at ho
    split at ho
    · cases ho
      nofun
    · cases ho

theorem mapM (hr : ∀ a, Reads (fun _ => True) (f a)) (hf : ∀ a, Gives r (f a) Q) (as : List α) :
    Gives r (as.mapM f) fun bs => bs.length = as.length ∧ ∀ b ∈ bs, Q b := by
  induction as with
  | nil =>
    rw [List.mapM_nil]
    exact pure ⟨rfl, nofun⟩
  | cons a as ih =>
    rw [List.mapM_cons]
    refine bind (hr a) (hf a) fun b hb => bind (Reads.mapM hr as) ih fun bs hbs => pure ⟨?_, ?_⟩
    · rw [List.length_cons, List.length_cons, hbs.1]
    · intro c hc
      rcases List.mem_cons.1 hc with rfl | hc
      · exact hb
      · exact hbs.2 c hc

end Gives

/-- A class that a module of the library defines. -/
def Found (r : Library) (l : Located) : Prop :=
  ∃ name short, result (loadModule name) r = .ok l.module ∧ l.module.classes.get? short = some l.cls

theorem Found.alike {d : Located} (h : Found l d) (hl : Alike l l') : Found l' d := by
  obtain ⟨name, short, hm, hc⟩ := h
  exact ⟨name, short, (hl.outcome name).trans hm, hc⟩

theorem gives_hop (r : Library) (name : String) :
    Gives r (hop name) fun h => ∀ l, h = .found l → Found r l := by
  refine .bind (P := fun _ => True) (.split name) .trivial fun (moduleName, rest) _ => ?_
  have hload : Gives r (loadModule moduleName) fun m => result (loadModule moduleName) r = .ok m :=
    fun l hl m hm => (hl.outcome moduleName) ▸ hm
  refine .bind (.load moduleName) hload fun m hm => .pure fun l hl => ?_
  unfold hopIn at hl
  repeat' split at hl
  all_goals cases hl
  exact ⟨moduleName, _, hm, ‹_›⟩

theorem gives_findClass (r : Library) (name : String) :
    Gives r (findClass name) fun o => ∀ l ∈ o, Found r l := by
  have hlocate : ∀ n seen name, Gives r (locateFrom seen name n) fun o => ∀ l ∈ o, Found r l := by
    intro n
    induction n with
    | zero => exact fun _ _ => .pure nofun
    | succ n ih =>
      intro seen name
      unfold locateFrom
      split
      · exact .pure nofun
      · refine .bind (.hop name) (gives_hop r name) fun h hh => ?_
        cases h with
        | found l => exact .pure (by rintro _ ⟨⟩; exact hh l rfl)
        | next target => exact ih _ _
        | stuck => exact .pure nofun
  have hclass : Gives r (locateClass name) (Found r) := by
    refine .bind (.locateFrom _ _ _) (hlocate _ _ _) fun found hf => ?_
    cases found with
    | none => exact .throw
    | some l => exact .pure (hf l rfl)
  refine .attempt ?_
  rw [map_eq_pure_bind]
  exact .bind (.locateClass name) hclass fun l hl => .pure (by rintro _ ⟨⟩; exact hl)

theorem gives_resolveClass (r : Library) (m : Source.Module) (name : String) :
    Gives r (resolveClass m name) fun o => ∀ l ∈ o, Found r l :=
  .bind (P := fun _ => True) (.resolveName m name) .trivial fun _ _ => gives_findClass r _

theorem gives_newParents (r : Library) (seen : List String) (l : Located) :
    Gives r (newParents seen l) fun ps => ps.length ≤ l.cls.bases.length ∧ ∀ p ∈ ps, Found r p := by
  refine .bind (Reads.mapM (fun _ => .resolveClass _ _) _)
    (Gives.mapM (fun _ => .resolveClass _ _) (fun _ => gives_resolveClass r _ _) _) fun found hf => .pure ⟨?_, ?_⟩
  · calc ((found.filterMap id).filter _).length ≤ (found.filterMap id).length := List.length_filter_le _ _
      _ ≤ found.length := List.length_filterMap_le _ _
      _ = l.cls.bases.length := hf.1
  · intro p hp
    obtain ⟨o, ho, hop⟩ := List.mem_filterMap.1 (List.mem_filter.1 hp).1
    exact hf.2 o ho p hop

end ApiSchema
