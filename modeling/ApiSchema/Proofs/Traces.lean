import ApiSchema.Proofs.Invalidation

/-!
# Traces of nested classes

A class that is asked for its schema is told which classes are under expansion, and how many more may be nested
(`classSchema`). To see that it is told the truth, a run is given a trace (`tracedSchema`): each question is written
down with the classes that are in fact under expansion, which are pushed when an expansion starts and taken away when
it ends, with a schema or with a problem.

The run with the trace and the run without it end alike (`paired`), and in each question the two lists of classes are
the same (`guarded_trace`).
-/
namespace ApiSchema

open Source Infer

variable {α β : Type}

/-! ## Traced runs -/

/-- A class is asked for its schema. -/
structure Visit where
  name : String
  /-- The classes that it is told to be inside of. -/
  guard : List String
  /-- How many more classes may be nested. -/
  room : Nat
  /-- The classes that are under expansion, the innermost first. -/
  path : List String
deriving DecidableEq, Repr

/-- A library, and what has been done over it. -/
structure Trace where
  library : Library
  /-- The classes that are under expansion, the innermost first. -/
  path : List String := []
  visits : List Visit := []
  /-- The path after each start of an expansion. -/
  expansions : List (List String) := []

/-- Inference that leaves a trace. -/
abbrev Traced := Over Trace

instance : MonadLift Inference Traced where
  monadLift x := ExceptT.mk fun tr =>
    let (outcome, library) := x.run.run tr.library
    (outcome, { tr with library })

namespace Traced

def visit (name : String) (guard : List String) (room : Nat) : Traced Unit :=
  modifyThe Trace fun tr => { tr with visits := tr.visits ++ [⟨name, guard, room, tr.path⟩] }

/-- A class is under expansion for as long as `x` runs. -/
def within (name : String) (x : Traced α) : Traced α :=
  ExceptT.mk fun tr =>
    let path := name :: tr.path
    let (outcome, tr) := x.run.run { tr with path, expansions := tr.expansions ++ [path] }
    (outcome, { tr with path := tr.path.tail })

end Traced

/-- The schema of a class, as `classSchema` gives it, with a trace. -/
def tracedSchema (t : Infer.Tables) (s : Settings) : Nat → List String → ClassSchema Traced
  | room, guard, l, direction => do
    let name := l.cls.qualifiedName
    Traced.visit name guard room
    if guard.contains name then return Node.circular name
    else match room with
      | 0 => return Node.depthLimited name
      | room + 1 => Traced.within name (expandedSchema t s (tracedSchema t s room (name :: guard)) l direction)

/-! ## Both runs -/

/-- The run with a trace, and the one without. -/
abbrev Side : Bool → Type → Type
  | true => Traced
  | false => Inference

instance : (b : Bool) → Monad (Side b)
  | true => inferInstanceAs (Monad Traced)
  | false => inferInstanceAs (Monad Inference)

instance : (b : Bool) → LawfulMonad (Side b)
  | true => inferInstanceAs (LawfulMonad Traced)
  | false => inferInstanceAs (LawfulMonad Inference)

instance : (b : Bool) → MonadExceptOf Problem (Side b)
  | true => inferInstanceAs (MonadExceptOf Problem Traced)
  | false => inferInstanceAs (MonadExceptOf Problem Inference)

instance : (b : Bool) → MonadLiftT Inference (Side b)
  | true => inferInstanceAs (MonadLiftT Inference Traced)
  | false => inferInstanceAs (MonadLiftT Inference Inference)

instance : (b : Bool) → MonadLiftT Attempt (Side b)
  | true => inferInstanceAs (MonadLiftT Attempt Traced)
  | false => inferInstanceAs (MonadLiftT Attempt Inference)

/-- The class is told just the classes that are under expansion. They are different, and as many as `bound` allows
less those that may still be nested. -/
structure Visit.Guarded (bound : Nat) (v : Visit) : Prop where
  guard : v.guard = v.path
  nodup : v.path.Nodup
  length : v.guard.length + v.room = bound

/-- The classes of a path are different, and no more than `bound`. -/
structure Bounded (bound : Nat) (path : List String) : Prop where
  nodup : path.Nodup
  length : path.length ≤ bound

/-- A trace over a clean library that is now inside of the classes of a path. -/
structure Followed (base : Library) (bound : Nat) (path : List String) (tr : Trace) : Prop where
  clean : Clean base tr.library
  path : tr.path = path
  visits : ∀ v ∈ tr.visits, v.Guarded bound
  expansions : ∀ p ∈ tr.expansions, Bounded bound p

/-- The runs end alike, over the same library, and inside of the same classes as before. -/
structure Paired (base : Library) (bound : Nat) (path : List String) (R : (Bool → α) → Prop)
    (x : (b : Bool) → Side b α) (tr : Trace) : Prop where
  followed : Followed base bound path (after (x true) tr)
  library : (after (x true) tr).library = after (x false) tr.library
  value : (∃ v, R v ∧ result (x true) tr = .ok (v true) ∧ result (x false) tr.library = .ok (v false)) ∨
    ∃ p, result (x true) tr = .error p ∧ result (x false) tr.library = .error p

namespace Paired

variable {base : Library} {bound : Nat} {path : List String} {R : (Bool → α) → Prop} {S : (Bool → β) → Prop}
  {tr : Trace}

theorem pure (htr : Followed base bound path tr) {v : Bool → α} (h : R v) :
    Paired base bound path R (fun b => (pure (v b) : Side b α)) tr :=
  ⟨htr, rfl, .inl ⟨v, h, rfl, rfl⟩⟩

theorem mono {S : (Bool → α) → Prop} {x : (b : Bool) → Side b α} (hx : Paired base bound path R x tr)
    (h : ∀ v, R v → S v) : Paired base bound path S x tr :=
  ⟨hx.followed, hx.library, hx.value.imp_left fun ⟨v, hv, hr⟩ => ⟨v, h v hv, hr⟩⟩

theorem bind {x : (b : Bool) → Side b α} {f : (b : Bool) → α → Side b β} (hx : Paired base bound path R x tr)
    (hf : ∀ v, R v → ∀ tr', Followed base bound path tr' → Paired base bound path S (fun b => f b (v b)) tr') :
    Paired base bound path S (fun b => x b >>= f b) tr := by
  have hlib := hx.library
  rcases hx.value with ⟨v, hv, htrue, hfalse⟩ | ⟨p, htrue, hfalse⟩
  · have hnext := hf v hv _ hx.followed
    have hr : result (x true >>= f true) tr = result (f true (v true)) (after (x true) tr) := by rw [result_bind, htrue]
    have ha : after (x true >>= f true) tr = after (f true (v true)) (after (x true) tr) := by rw [after_bind, htrue]
    have hr' : result (x false >>= f false) tr.library = result (f false (v false)) (after (x true) tr).library := by
      rw [result_bind, hfalse, hlib]
    have ha' : after (x false >>= f false) tr.library = after (f false (v false)) (after (x true) tr).library := by
      rw [after_bind, hfalse, hlib]
    refine ⟨ha ▸ hnext.followed, ?_, ?_⟩
    · exact (congrArg Trace.library ha).trans (hnext.library.trans ha'.symm)
    · simpa only [hr, hr'] using hnext.value
  · have hr : result (x true >>= f true) tr = .error p := by rw [result_bind, htrue]
    have ha : after (x true >>= f true) tr = after (x true) tr := by rw [after_bind, htrue]
    have hr' : result (x false >>= f false) tr.library = .error p := by rw [result_bind, hfalse]
    have ha' : after (x false >>= f false) tr.library = after (x false) tr.library := by rw [after_bind, hfalse]
    exact ⟨ha ▸ hx.followed, (congrArg Trace.library ha).trans (hlib.trans ha'.symm), .inr ⟨p, hr, hr'⟩⟩

theorem attempt {x : (b : Bool) → Side b (Option α)} (hx : Paired base bound path (Options R) x tr) :
    Paired base bound path (Options R) (fun b => attempt (x b)) tr := by
  have ha : after (ApiSchema.attempt (x true)) tr = after (x true) tr := after_attempt (x true) tr
  have ha' : after (ApiSchema.attempt (x false)) tr.library = after (x false) tr.library := after_attempt (x false) _
  refine ⟨ha ▸ hx.followed, (congrArg Trace.library ha).trans (hx.library.trans ha'.symm), ?_⟩
  have hr := result_attempt (x true) tr
  have hr' := result_attempt (x false) tr.library
  rcases hx.value with ⟨v, hv, htrue, hfalse⟩ | ⟨p, htrue, hfalse⟩
  · rw [htrue] at hr
    rw [hfalse] at hr'
    exact .inl ⟨v, hv, hr, hr'⟩
  · rw [htrue] at hr
    rw [hfalse] at hr'
    dsimp only at hr hr'
    cases hp : p.isAbsorbed with
    | true =>
      rw [hp] at hr hr'
      exact .inl ⟨fun _ => none, .none, hr, hr'⟩
    | false =>
      rw [hp] at hr hr'
      exact .inr ⟨p, hr, hr'⟩

theorem tried (htr : Followed base bound path tr) {x : Bool → Attempt α}
    (h : (∃ v, R v ∧ ∀ b, x b = .ok (v b)) ∨ ∃ p, ∀ b, x b = .error p) :
    Paired base bound path R (fun b => (liftM (x b) : Side b α)) tr := by
  refine ⟨htr, rfl, ?_⟩
  rcases h with ⟨v, hv, hx⟩ | ⟨p, hx⟩
  · exact .inl ⟨v, hv, hx true, hx false⟩
  · exact .inr ⟨p, hx true, hx false⟩

theorem lifted (htr : Followed base bound path tr) {x : Inference α}
    (hclean : ∀ l, Clean base l → Clean base (after x l))
    (hR : ∀ l a, Clean base l → result x l = .ok a → R fun _ => a) :
    Paired base bound path R (fun b => (liftM x : Side b α)) tr := by
  refine ⟨⟨hclean _ htr.clean, htr.path, htr.visits, htr.expansions⟩, rfl, ?_⟩
  cases ha : result x tr.library with
  | ok a => exact .inl ⟨fun _ => a, hR _ a htr.clean ha, ha, rfl⟩
  | error p => exact .inr ⟨p, ha, rfl⟩

end Paired

/-- Runs that are paired inside of the classes of a path make a relator. -/
def paired (base : Library) (bound : Nat) (path : List String) : Relator Bool Side where
  base := base
  Meets _ := True
  bears _ := trivial
  Rel R x := ∀ tr, Followed base bound path tr → Paired base bound path R x tr
  pure h _ htr := .pure htr h
  bind hx hf tr htr := (hx tr htr).bind hf
  mono hx h tr htr := (hx tr htr).mono h
  attempt hx tr htr := (hx tr htr).attempt
  tried h _ htr := .tried htr (h.imp_right fun ⟨p, _, hp⟩ => ⟨p, hp⟩)
  asked hx hP _ _ htr := .lifted htr (fun l hl => hl.learned (hx.learned l)) fun l a hl ha =>
    .intro (hP l hl.alike a ha)

/-! ## Schemas of classes -/

/-- The schemas of classes in both runs. -/
def bothSchemas (t : Infer.Tables) (s : Settings) (k : Nat) (guard : List String) : (b : Bool) → ClassSchema (Side b)
  | true => tracedSchema t s k guard
  | false => classSchema t s k guard

variable {t : Infer.Tables} {s : Settings} {base : Library} {bound : Nat} {guard : List String}

theorem Paired.of_eq {path : List String} {R : (Bool → α) → Prop} {x y : (b : Bool) → Side b α} {tr : Trace}
    (h : Paired base bound path R x tr) (htrue : y true = x true) (hfalse : y false = x false) :
    Paired base bound path R y tr := by
  have hxy : y = x := by
    funext b
    cases b with
    | true => exact htrue
    | false => exact hfalse
  exact hxy ▸ h

/-- An expansion adds a class to the path for as long as it runs. -/
theorem Paired.within {R : (Bool → α) → Prop} {name : String} {x : (b : Bool) → Side b α} (hname : name ∉ guard)
    (hnodup : guard.Nodup) (hlen : guard.length < bound) (hx : (paired base bound (name :: guard)).Rel R x) {tr : Trace}
    (htr : Followed base bound guard tr) :
    Paired base bound guard R (fun | true => Traced.within name (x true) | false => x false) tr := by
  obtain ⟨hclean, rfl, hvisits, hexpansions⟩ := htr
  have hinside : Followed base bound (name :: tr.path)
      { tr with path := name :: tr.path, expansions := tr.expansions ++ [name :: tr.path] } := by
    refine ⟨hclean, rfl, hvisits, List.forall_mem_append.2 ⟨hexpansions, ?_⟩⟩
    exact List.forall_mem_singleton.2 ⟨List.nodup_cons.2 ⟨hname, hnodup⟩, hlen⟩
  have hpaired := hx _ hinside
  refine ⟨⟨hpaired.followed.clean, ?_, hpaired.followed.visits, hpaired.followed.expansions⟩, hpaired.library,
    hpaired.value⟩
  exact congrArg List.tail hpaired.followed.path

theorem Paired.visit {R : (Bool → α) → Prop} {name : String} {k : Nat} {x : (b : Bool) → Side b α}
    (hnodup : guard.Nodup) (hlen : guard.length + k = bound) (hx : (paired base bound guard).Rel R x) {tr : Trace}
    (htr : Followed base bound guard tr) :
    Paired base bound guard R (fun | true => Traced.visit name guard k >>= fun _ => x true | false => x false) tr := by
  obtain ⟨hclean, rfl, hvisits, hexpansions⟩ := htr
  have hvisited : Followed base bound tr.path
      { tr with visits := tr.visits ++ [⟨name, tr.path, k, tr.path⟩] } := by
    refine ⟨hclean, rfl, List.forall_mem_append.2 ⟨hvisits, ?_⟩, hexpansions⟩
    exact List.forall_mem_singleton.2 ⟨rfl, hnodup, hlen⟩
  have hpaired := hx _ hvisited
  exact ⟨hpaired.followed, hpaired.library, hpaired.value⟩

theorem expandedSchema_paired {path : List String} {cb : (b : Bool) → ClassSchema (Side b)} {l : Located}
    {direction : Direction}
    (h : (paired base bound path).Rel (Shaped fun _ => False) fun b => composedSchema t s (cb b) l direction) :
    (paired base bound path).Rel (Shaped fun _ => False) fun b => expandedSchema t s (cb b) l direction := by
  refine expandedSchema_equal (fun key tr htr => ?_) (fun key n hn tr htr => ?_) h
  · exact .lifted htr (fun l hl => hl.learned (learned_keptSchema key l)) fun l o hl ho => hl.shaped_keptSchema ho
  · exact .lifted htr (fun l hl => hl.keep key hn) fun l m _ hm => shaped_keepSchema hn hm

/-- What a class does in both runs: it is a placeholder, or it is expanded inside of the classes of the guard. -/
theorem bothSchemas_cases (t : Infer.Tables) (s : Settings) (k : Nat) (guard : List String) (l : Located)
    (direction : Direction) :
    (∃ n : Node, n.Worded ∧ classSchema t s k guard l direction = pure n ∧ tracedSchema t s k guard l direction =
      Traced.visit l.cls.qualifiedName guard k >>= fun _ => pure n) ∨
    ∃ j, k = j + 1 ∧ l.cls.qualifiedName ∉ guard ∧ classSchema t s k guard l direction =
        expandedSchema t s (classSchema t s j (l.cls.qualifiedName :: guard)) l direction ∧
      tracedSchema t s k guard l direction = Traced.visit l.cls.qualifiedName guard k >>= fun _ =>
        Traced.within l.cls.qualifiedName
          (expandedSchema t s (tracedSchema t s j (l.cls.qualifiedName :: guard)) l direction) := by
  unfold classSchema tracedSchema
  dsimp only
  by_cases hg : guard.contains l.cls.qualifiedName = true
  · simp only [hg, if_true]
    exact .inl ⟨_, worded_circular _, rfl, rfl⟩
  · simp only [hg]
    cases k with
    | zero => exact .inl ⟨_, worded_depthLimited _, rfl, rfl⟩
    | succ j => exact .inr ⟨j, rfl, fun h => hg (List.contains_iff_mem.2 h), rfl, rfl⟩

/-- The runs are paired at every class, by induction over how many more may be nested. -/
theorem bothSchemas_paired (k : Nat) (hnodup : guard.Nodup) (hlen : guard.length + k = bound) (l : Located)
    (direction : Direction) :
    (paired base bound guard).Rel (Shaped fun _ => False) fun b => bothSchemas t s k guard b l direction := by
  induction k using Nat.strongRecOn generalizing guard l with
  | ind k ih =>
    intro tr htr
    rcases bothSchemas_cases t s k guard l direction with ⟨n, hw, hfalse, htrue⟩ | ⟨j, rfl, hname, hfalse, htrue⟩
    · exact (Paired.visit (x := fun _ => pure n) hnodup hlen (fun _ htr => .pure htr (.const hw)) htr).of_eq
        htrue hfalse
    · have hnodup' : (l.cls.qualifiedName :: guard).Nodup := List.nodup_cons.2 ⟨hname, hnodup⟩
      have hlen' : (l.cls.qualifiedName :: guard).length + j = bound := by
        rw [List.length_cons]
        omega
      have hcomposed := composedSchema_equal (t := t) (s := s) (𝓡 := paired base bound (l.cls.qualifiedName :: guard))
        (fun _ => trivial) (fun d _ => ih j (Nat.lt_succ_self j) hnodup' hlen' d) l
      have hexpanded : (paired base bound guard).Rel (Shaped fun _ => False) _ := fun tr htr =>
        Paired.within hname hnodup (by omega) (expandedSchema_paired hcomposed) htr
      exact (Paired.visit hnodup hlen hexpanded htr).of_eq htrue hfalse

/-! ## Requests -/

/-- A request for a schema of a subject that is given as such, or by its name. -/
inductive Inquiry where
  | named (q : Request)
  | output (subject : Subject)
  | input (rules : Entries Rule.Raw) (subject : Subject)

/-- The schema that is asked for, before examples are added. -/
def Inquiry.schema {m : Type → Type} [Monad m] [MonadExceptOf Problem m] [MonadLiftT Inference m]
    [MonadLiftT Attempt m] (t : Infer.Tables) (s : Settings) (classSchema : ClassSchema m) : Inquiry → m Node
  | .named q => q.schema t s classSchema
  | .output subject => subjectSchema t s classSchema .output subject
  | .input rules subject => acceptedSchema t s classSchema rules subject

theorem Inquiry.schema_paired (q : Inquiry) : (paired base s.maxDepth.toNat []).Rel (Grown fun _ => False) fun b =>
    q.schema t s (bothSchemas t s s.maxDepth.toNat [] b) := by
  have hcb : ∀ d direction, (paired base s.maxDepth.toNat []).Rel (Shaped fun _ => False) fun b =>
      bothSchemas t s s.maxDepth.toNat [] b d direction := fun d direction =>
    bothSchemas_paired _ List.nodup_nil (Nat.zero_add _) d direction
  cases q with
  | named q => exact schema_equal (fun _ => trivial) (fun d direction _ => hcb d direction) q
  | output subject =>
    exact subjectSchema_equal (fun _ => trivial) (fun d direction _ => hcb d direction) fun l _ => hcb l .output
  | input rules subject =>
    dsimp only [Inquiry.schema, acceptedSchema]
    split
    · exact subjectSchema_equal (fun _ => trivial) (fun d direction _ => hcb d direction) fun l _ => hcb l .input
    · refine (paired base s.maxDepth.toNat []).mono
        ((paired base s.maxDepth.toNat []).asked (.ofRules rules) .trivial fun _ _ => trivial) ?_
      rintro _ ⟨_⟩
      exact Grown.formed.const _

/-- The answer to a request. -/
def Inquiry.answer (t : Infer.Tables) (s : Settings) : Inquiry → Inference Node
  | .named q => q.answer t s
  | .output subject => Infer.output t s subject
  | .input rules subject => Infer.input t s rules subject

theorem Inquiry.answer_eq (t : Infer.Tables) (s : Settings) (q : Inquiry) :
    q.answer t s = q.schema t s (outermost t s) >>= fun n => liftM (finish s n) := by
  cases q with
  | named q => exact Request.answer_eq t s q
  | output subject | input rules subject => rfl

/-- The libraries that requests and texts lead to. -/
inductive Lived (t : Infer.Tables) (s : Settings) : Library → Prop
  | opened {l : Library} (h : l.cache.schemas = []) : Lived t s l
  | asked {l : Library} (hl : Lived t s l) (q : Inquiry) : Lived t s (after (q.answer t s) l)
  | added {l : Library} (hl : Lived t s l) (path text : String) : Lived t s (l.addText path text)

theorem Inquiry.paired_schema {l : Library} (hl : Clean l l) (q : Inquiry) :
    Paired l s.maxDepth.toNat [] (Grown fun _ => False)
      (fun b => q.schema t s (bothSchemas t s s.maxDepth.toNat [] b)) { library := l } :=
  q.schema_paired _ ⟨hl, rfl, nofun, nofun⟩

/-- A request leaves a clean library. -/
theorem Inquiry.clean_answer {l : Library} (hl : Clean l l) (q : Inquiry) : Clean l (after (q.answer t s) l) := by
  have hpaired := q.paired_schema (t := t) (s := s) hl
  have hafter : after (q.answer t s) l = after (q.schema t s (outermost t s)) l := by
    rw [answer_eq, after_bind]
    split <;> rfl
  have hclean := hpaired.followed.clean
  rw [hpaired.library] at hclean
  rw [hafter]
  exact hclean

theorem Lived.clean {l : Library} (h : Lived t s l) : Clean l l := by
  induction h with
  | @opened l h => exact ⟨.refl l, fun hget => by rw [h] at hget; cases hget⟩
  | @asked l _ q ih => exact ⟨.refl _, (q.clean_answer ih).worded⟩
  | @added l _ path text ih =>
    obtain ⟨packages, o, hadd, -⟩ := addText_eq l path text
    exact ⟨.refl _, fun hget => ih.worded (get?_of_addOutcome (hadd ▸ hget))⟩

/-- Every class that is asked for a schema is told just the classes under expansion. These are different, and no more
than the settings allow. The trace that says so is one of the request itself. -/
theorem guarded_trace (t : Infer.Tables) (s : Settings) (hs : 1 ≤ s.maxDepth) (l : Library) (hl : Lived t s l)
    (q : Inquiry) :
    let run := q.schema t s (tracedSchema t s s.maxDepth.toNat [])
    let trace := after run { library := l }
    result run { library := l } = result (q.schema t s (outermost t s)) l ∧
    trace.library = after (q.schema t s (outermost t s)) l ∧
    (∀ v ∈ trace.visits, v.guard = v.path ∧ v.path.Nodup ∧ (v.guard.length : Int) + v.room = s.maxDepth) ∧
    ∀ path ∈ trace.expansions, path.Nodup ∧ (path.length : Int) ≤ s.maxDepth := by
  intro run trace
  have hpaired := q.paired_schema (t := t) (s := s) hl.clean
  have hbound : (s.maxDepth.toNat : Int) = s.maxDepth := Int.toNat_of_nonneg (by omega)
  refine ⟨?_, hpaired.library, fun v hv => ?_, fun path hpath => ?_⟩
  · rcases hpaired.value with ⟨v, hv, htrue, hfalse⟩ | ⟨p, htrue, hfalse⟩
    · have hsame : v true = v false := hv.collapse (L := fun ns => ns true = ns false) (Congruent.eq _ _).toFormed nofun
      exact htrue.trans ((congrArg Except.ok hsame).trans hfalse.symm)
    · exact htrue.trans hfalse.symm
  · obtain ⟨hguard, hnodup, hlen⟩ := hpaired.followed.visits v hv
    exact ⟨hguard, hnodup, by omega⟩
  · obtain ⟨hnodup, hlen⟩ := hpaired.followed.expansions path hpath
    exact ⟨hnodup, by omega⟩

/-- The class `A` has a `B`, which has an `A`. -/
def cyclic : Source.Module := moduleOf [recordOf "A" [("b", "B")], recordOf "B" [("a", "A")]]

/-- The class `A` inside of a `B` inside of an `A` is not expanded again. -/
theorem cyclic_guarded_trace :
    let s : Settings := { maxDepth := 5 }
    let q : Inquiry := .named (.output "m.A")
    let trace := after (q.schema {} s (tracedSchema {} s s.maxDepth.toNat [])) { library := libraryOf cyclic true }
    1 ≤ s.maxDepth ∧ Lived {} s (libraryOf cyclic true) ∧
      trace.visits.map (·.guard) = [[], ["m.A"], ["m.B", "m.A"]] ∧ trace.expansions = [["m.A"], ["m.B", "m.A"]] ∧
      (∀ v ∈ trace.visits, v.guard = v.path ∧ v.path.Nodup ∧ (v.guard.length : Int) + v.room = s.maxDepth) := by
  intro s q trace
  have hs : 1 ≤ s.maxDepth := by decide
  have hl : Lived {} s (libraryOf cyclic true) := .opened rfl
  have hvisits : trace.visits.map (·.guard) = [[], ["m.A"], ["m.B", "m.A"]] := by decide +kernel
  have hexpansions : trace.expansions = [["m.A"], ["m.B", "m.A"]] := by decide +kernel
  obtain ⟨-, -, hguarded, -⟩ := guarded_trace {} s hs (libraryOf cyclic true) hl q
  exact ⟨hs, hl, hvisits, hexpansions, hguarded⟩

end ApiSchema
