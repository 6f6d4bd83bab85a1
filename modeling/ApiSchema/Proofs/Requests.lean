import ApiSchema.Proofs.Bodies

/-!
# Requests in several runs

The schema of a class is grown from the schemas of the classes that it asks for, in the same way in all
runs (`composedSchema_rel`). So are the schemas of what a named subject produces and accepts (`namedOutput_rel`,
`namedInput_rel`).

A handler without rules and fields takes the first of its parameter classes that has fields. For that the
schemas of these classes must agree at the root, which `Level` says.
-/
namespace ApiSchema.Infer

open Source Shape

variable {r : Library} {l : Located} {f : Function} {direction : Direction}

/-! ## Nodes that are the same in all runs -/

/-- No fragment stands at the root. -/
def Bare : PathTree → Prop
  | .node fragment _ _ => fragment = none

theorem Bare.insert {n : Node} {t : PathTree} {segments : List String} (h : segments ≠ []) (ht : Bare t) :
    Bare (t.insert n segments) := by
  obtain ⟨fragment, named, element⟩ := t
  cases segments with
  | nil => exact absurd rfl h
  | cons s rest =>
    unfold PathTree.insert
    split
    · exact ht
    · exact ht

theorem Bare.worded {t : PathTree} (ht : Bare t) : t.toNode.Worded := by
  obtain ⟨fragment, named, element⟩ := t
  subst ht
  refine worded_of_none ?_
  unfold PathTree.toNode
  cases named with
  | cons p ps => rfl
  | nil => cases element <;> rfl

theorem worded_expandPaths (fragments : List (String × Node)) : (expandPaths fragments).Worded := by
  refine Bare.worded (List.foldlRecOn fragments _ rfl fun t ht (path, fragment) _ => ?_)
  dsimp only
  split
  · exact ht
  · rename_i segments hsegments
    exact ht.insert hsegments

theorem gives_ofRules (r : Library) (rules : Entries Rule.Raw) : Gives r (ofRules rules) Node.Worded := by
  intro l _ n hn
  unfold ofRules at hn
  rw [result_bind] at hn
  split at hn
  · cases hn
    exact worded_expandPaths _
  · cases hn

theorem gives_readFields (r : Library) (t : Tables) (f : Function) : Gives r (readFields t f) Node.Worded := by
  intro l _ n hn
  unfold readFields at hn
  split at hn
  · rw [result_bind] at hn
    split at hn
    · cases hn
      exact worded_expandPaths _
    · cases hn
  · cases hn
    exact worded_of_none rfl

theorem gives_enumNode (r : Library) (l : Located) : Gives r (enumNode l) fun o => ∀ n ∈ o, n.Worded := by
  unfold enumNode
  refine .bind (.isEnum l) .trivial fun isEnum _ => ?_
  cases isEnum with
  | false => exact .pure nofun
  | true =>
    refine .bind (.tried _ fun _ _ => trivial) .trivial fun members _ => .pure ?_
    rintro n ⟨⟩
    refine worded_of_none ?_
    rw [Node.mapFacets, Node.facets_withFacets]
    split <;> rfl

theorem gives_recordClass (r : Library) (m : Source.Module) (name : String) :
    Gives r (recordClass m name) fun o => ∀ l ∈ o, Found r l := by
  refine .bind (.resolveClass m name) (gives_resolveClass r m name) fun o ho => ?_
  cases o with
  | none => exact .pure nofun
  | some l =>
    refine .bind (.isEnum l) .trivial fun isEnum _ => .pure ?_
    cases isEnum with
    | true => nofun
    | false => exact ho

theorem gives_parameterClasses (r : Library) (t : Tables) (m : Source.Module) (f : Function) :
    Gives r (parameterClasses t m f) fun ls => ∀ l ∈ ls, Found r l := by
  refine .bind (.mapM (Reads.recordClass m) _) (.mapM (Reads.recordClass m) (gives_recordClass r m) _)
    fun os hos => .pure fun l hl => ?_
  obtain ⟨o, ho, hl⟩ := List.mem_filterMap.1 hl
  exact hos.2 o ho l hl

theorem gives_chainFrom (n : Nat) (seen : List String) {pending : List Located}
    (hp : ∀ p ∈ pending, Found r p) : Gives r (chainFrom n seen pending) fun chain => ∀ a ∈ chain, Found r a := by
  induction n generalizing seen pending with
  | zero => exact .pure nofun
  | succ n ih =>
    cases pending with
    | nil => exact .pure nofun
    | cons c pending =>
      obtain ⟨hc, hp⟩ := List.forall_mem_cons.1 hp
      unfold chainFrom
      dsimp only
      split
      · exact ih _ hp
      · refine .bind (.newParents _ _) (gives_newParents r _ _) fun ps hps => ?_
        have hall : ∀ p ∈ ps ++ pending, Found r p := List.forall_mem_append.2 ⟨hps.2, hp⟩
        exact .bind (Reads.sequential.chainFrom .newParents _ _ _) (ih _ hall) fun chain hchain =>
          .pure (List.forall_mem_cons.2 ⟨hc, hchain⟩)

theorem gives_ancestorChain (hl : Found r l) :
    Gives r (ancestorChain l) fun chain => ∀ a ∈ chain, Found r a :=
  fun lib hlib chain h => gives_chainFrom _ _ (by simpa using hl) lib hlib chain h

/-- The functions and methods of a module. -/
def functionsIn (m : Source.Module) : List Function :=
  m.functions.values ++ m.classes.values.flatMap (·.methods.values)

theorem mem_functionsIn {a : Located} (ha : Found r a) {name : String}
    (hf : a.cls.methods.get? name = some f) : ∃ m ∈ r.modules, f ∈ functionsIn m := by
  obtain ⟨moduleName, short, hm, hc⟩ := ha
  refine ⟨a.module, mem_modules hm, List.mem_append_right _ (List.mem_flatMap.2 ⟨a.cls, ?_, ?_⟩)⟩
  · exact Entries.mem_values hc
  · exact Entries.mem_values hf

/-- A subject is a class that can be found, or a function of a module. -/
def Known (r : Library) : Subject → Prop
  | .cls l => Found r l
  | .function _ _ f | .method _ _ _ f => ∃ m ∈ r.modules, f ∈ functionsIn m

theorem gives_findSubject (r : Library) (name : String) : Gives r (findSubject name) (Known r) := by
  refine .bind (.split name) .trivial fun (moduleName, rest) _ =>
    .bind (.load moduleName) (gives_self (.load moduleName) r) fun m hm => ?_
  unfold subjectIn
  split
  · split
    · rename_i c _ hc
      exact .pure ⟨moduleName, _, hm, hc⟩
    · rename_i f _ hf
      exact .pure ⟨m, mem_modules hm, List.mem_append_left _ (Entries.mem_values hf)⟩
    · refine .bind (.findClass name) (gives_findClass r name) fun o ho => ?_
      cases o with
      | none => exact .throw
      | some l => exact .pure (ho l rfl)
  · refine .bind (.findClass _) (gives_findClass r _) fun o ho => ?_
    cases o with
    | none => exact .throw
    | some l =>
      refine .bind (.ancestorChain l) (gives_ancestorChain (ho l rfl)) fun chain hchain => ?_
      split
      · rename_i a f hmethod
        refine .pure ?_
        obtain ⟨b, hb, hbf⟩ := List.exists_of_findSome?_eq_some hmethod
        obtain ⟨g, hg, hbg⟩ := Option.map_eq_some_iff.1 hbf
        cases hbg
        exact mem_functionsIn (hchain _ hb) hg
      · exact .throw
  · exact .throw

theorem gives_readSubject (r : Library) (name : String) :
    Gives r (readSubject name) fun o => ∀ subject ∈ o, Known r subject := by
  have hfind : Gives r (some <$> findSubject name) fun o => ∀ subject ∈ o, Known r subject := by
    rw [map_eq_pure_bind]
    exact .bind (.findSubject name) (gives_findSubject r name) fun s hs => .pure fun _ h => Option.some.inj h ▸ hs
  refine .recover (.map _ (.findSubject name)) hfind fun p => ?_
  split
  · exact .pure fun _ h => absurd h (Option.not_mem_none _)
  · exact .throw

/-- A request for a schema. -/
inductive Request where
  | output (name : String)
  | input (rules : Entries Rule.Raw) (name : String)

namespace Request

/-- The schema that is asked for, before examples are added. -/
def schema {m : Type → Type} [Monad m] [MonadExceptOf Problem m] [MonadLiftT Inference m] [MonadLiftT Attempt m]
    (t : Tables) (s : Settings) (classSchema : ClassSchema m) : Request → m Node
  | .output name => namedOutput t s classSchema name
  | .input rules name => namedInput t s classSchema rules name

/-- The answer to a request. -/
def answer (t : Tables) (s : Settings) : Request → Inference Node
  | .output name => outputOf t s name
  | .input rules name => inputOf t s rules name

theorem answer_eq (t : Tables) (s : Settings) (q : Request) :
    q.answer t s = q.schema t s (outermost t s) >>= fun n => liftM (finish s n) := by
  cases q <;> rfl

theorem after_answer (t : Tables) (s : Settings) (q : Request) (l : Library) :
    after (q.answer t s) l = after (q.schema t s (outermost t s)) l := by
  rw [answer_eq, after_bind]
  split <;> rfl

end Request

/-! ## Bodies of functions -/

section

variable {ι : Type} {M : ι → Type → Type} [∀ i, Monad (M i)] [∀ i, LawfulMonad (M i)]
  [∀ i, MonadExceptOf Problem (M i)] [∀ i, MonadLiftT Inference (M i)] [∀ i, MonadLiftT Attempt (M i)]
  (𝓡 : Relator ι M) {Leaf : (ι → Node) → Prop} (t : Tables) (s : Settings) (cb : (i : ι) → ClassSchema (M i))

/-- The operands in the body of a function are no classes. -/
def SoundBody (Leaf : (ι → Node) → Prop) (home : Source.Module) (owner : Option Located) (f : Function) : Prop :=
  ∀ body, f.body = some body → ∀ o ∈ bodyOperands body, ∀ n expanding,
    Sound 𝓡 Leaf (fun i => scopeAt { names := t.names } (resolversIn t (cb i) home owner) body n expanding) o

/-- The bodies that are read for a class: of its methods that turn objects into data. -/
def SoundClass (Leaf : (ι → Node) → Prop) (l : Located) : Prop :=
  ∀ chain, result (ancestorChain l) 𝓡.base = .ok chain → ∀ p ∈ methodsNamed s.serializerMethods chain,
    SoundBody 𝓡 t cb Leaf p.1.module (some l) p.2

/-- The body that is read for a handler. -/
def SoundHandler (Leaf : (ι → Node) → Prop) (subject : Subject) (f : Function) : Prop :=
  ∀ owner, result (ownerOf subject) 𝓡.base = .ok owner → SoundBody 𝓡 t cb Leaf subject.module owner f

/-- The runs may meet what the tables lead to. -/
structure Admits (𝓡 : Relator ι M) (t : Tables) : Prop where
  types : t.types.HasUnion → 𝓡.Meets (.shape .unionWithoutVariants)
  bodies : ∀ p, Shape.Tables.Meets { names := t.names } p → 𝓡.Meets p

omit [∀ i, LawfulMonad (M i)] in
theorem Admits.of_all {𝓡 : Relator ι M} (h : ∀ p, 𝓡.Meets p) (t : Tables) : Admits 𝓡 t := ⟨fun _ => h _, fun p _ => h p⟩

variable {𝓡 t s cb} (hs : Steady Leaf) (ha : Admits 𝓡 t)
  (hout : ∀ l, Found 𝓡.base l → 𝓡.Rel (Shaped Leaf) fun i => cb i l .output)

include hs ha hout

omit [∀ i, LawfulMonad (M i)] hs ha in
theorem classNode_rel (home : Source.Module) (owner : Option Located) (text : String) :
    𝓡.RelO (Shaped Leaf) fun i =>
      Scope.classNode ⟨{ names := t.names }, resolversIn t (cb i) home owner, fun _ => none⟩ text := by
  simp only [Scope.classNode, resolversIn]
  split
  · exact namedClass_rel 𝓡 hout home text
  · exact 𝓡.failureO

omit [∀ i, LawfulMonad (M i)] in
theorem memberNode_rel (home : Source.Module) (owner : Option Located) (text : String) :
    𝓡.Rel (Options (Shaped Leaf)) fun i =>
      Scope.attributeNode ⟨{ names := t.names }, resolversIn t (cb i) home owner, fun _ => none⟩ text := by
  simp only [Scope.attributeNode, resolversIn]
  cases owner with
  | none => exact 𝓡.pure .none
  | some l =>
    cases ownPath? text with
    | none => exact 𝓡.pure .none
    | some path => exact attributeNode_rel 𝓡 ha.types hs hout false l path

theorem bodyShape_rel {home : Source.Module} {owner : Option Located}
    (hf : SoundBody 𝓡 t cb Leaf home owner f) :
    𝓡.Rel (Options (Shaped Leaf)) fun i => bodyShape t (cb i) home owner f := by
  unfold bodyShape
  split
  · rename_i body hbody
    exact shapeIn_rel (N := shapedStock 𝓡 hs) ha.bodies (classNode_rel hout home owner)
      (memberNode_rel hs ha hout home owner)
      fun o h n names => (hf body hbody o h n names).looked hs
  · exact 𝓡.pure .none

theorem serializedShape_rel (hl : SoundClass 𝓡 t s cb Leaf l) :
    𝓡.Rel (Options (Shaped Leaf)) fun i => serializedShape t s (cb i) l := by
  have hfirst : ∀ ps : List (Located × Function), (∀ p ∈ ps, SoundBody 𝓡 t cb Leaf p.1.module (some l) p.2) →
      𝓡.Rel (Options (Shaped Leaf)) fun i =>
        firstMethodShape (fun a f => bodyShape t (cb i) a.module (some l) f) ps := by
    intro ps hps
    induction ps with
    | nil => exact 𝓡.pure .none
    | cons p ps ih =>
      refine 𝓡.bind (bodyShape_rel hs ha hout (hps p List.mem_cons_self)) fun v hv => ?_
      cases hv with
      | none => exact ih (List.forall_mem_cons.1 hps).2
      | some hv => exact 𝓡.pure (.some hv)
  refine 𝓡.bind (𝓡.read (.ancestorChain l) (gives_self (.ancestorChain l) _)) ?_
  rintro _ ⟨hchain⟩
  exact hfirst _ (hl _ hchain)

theorem classOutput_rel (hl : SoundClass 𝓡 t s cb Leaf l)
    (hmembers : ∀ f, l.cls.members = .error f → 𝓡.Meets (.fault f))
    (hfields : ∀ p, FieldProblem 𝓡.base .output (.cls l) p → 𝓡.Meets p) :
    𝓡.Rel (Shaped Leaf) fun i => classOutput t s (cb i) l := by
  refine 𝓡.bind (𝓡.read (.enumNode l hmembers) (gives_enumNode _ l)) ?_
  rintro _ ⟨henum⟩
  rename_i o
  cases o with
  | some n => exact 𝓡.pure (.const (henum n rfl))
  | none =>
    refine 𝓡.bind (declaredProperties_rel 𝓡 ha.types hs hout hfields) fun v hv => ?_
    cases hv with
    | some hv =>
      obtain ⟨ps, hp⟩ := hv
      exact 𝓡.pure (.object rfl hp)
    | none =>
      refine 𝓡.bind (𝓡.attempt (serializedShape_rel hs ha hout hl)) fun v hv => ?_
      cases hv with
      | none => exact 𝓡.pure (.const (worded_of_none rfl))
      | some hv =>
        refine 𝓡.pure (hv.mapFacets hs (fun f => ?_) fun f => ?_)
        · split <;> rfl
        · split <;> rfl

theorem handlerOutput_rel {subject : Subject} (hf : SoundHandler 𝓡 t cb Leaf subject f)
    (hfields : ∀ p, FieldProblem 𝓡.base .output subject p → 𝓡.Meets p) :
    𝓡.Rel (Grown Leaf) fun i => handlerOutput t (cb i) subject f := by
  have hreturned : 𝓡.Rel (Options (Shaped Leaf)) fun i => returnedType t (cb i) subject.module f := by
    unfold returnedType
    split
    · exact 𝓡.attempt (𝓡.bind (typeNode_rel 𝓡 ha.types hs hout _ _) fun v hv => 𝓡.pure (.some hv))
    · exact 𝓡.pure .none
  refine 𝓡.bind (declaredProperties_rel 𝓡 ha.types hs hout hfields) fun v hv => ?_
  cases hv with
  | some hv =>
    obtain ⟨ps, hp⟩ := hv
    exact 𝓡.pure (.object _ ps hp)
  | none =>
    refine 𝓡.bind hreturned fun v hv => ?_
    cases hv with
    | some hv => exact 𝓡.pure hv.grown
    | none =>
      refine 𝓡.bind (𝓡.attempt (R := Shaped Leaf)
        (𝓡.bind (𝓡.read (.ownerOf subject) (gives_self (.ownerOf subject) _)) ?_)) fun v hv => ?_
      · rintro _ ⟨howner⟩
        exact bodyShape_rel hs ha hout (hf _ howner)
      · cases hv with
        | some hv => exact 𝓡.pure hv.grown
        | none => exact 𝓡.pure (Grown.formed.const _)

omit ha hout

variable (hall : ∀ p, 𝓡.Meets p)

include hall

omit [∀ i, LawfulMonad (M i)] in
theorem classInput_rel (hin : ∀ l, Found 𝓡.base l → 𝓡.Rel (Shaped Leaf) fun i => cb i l .input) (l : Located) :
    𝓡.Rel (fun ns => Shaped Leaf ns ∧ Rooted Leaf ns) fun i => classInput t s (cb i) l := by
  refine 𝓡.bind (𝓡.read (.givenRules (.classRules s l)) .trivial) ?_
  rintro _ ⟨_⟩
  rename_i rules _
  cases rules with
  | some rules =>
    refine 𝓡.bind (𝓡.asked (.ofRules (rawRules rules)) (gives_ofRules _ _) fun p _ => hall p) ?_
    rintro _ ⟨hn⟩
    exact 𝓡.pure ⟨(Shaped.const hn).mapFacets hs (fun _ => rfl) fun _ => rfl, .const _⟩
  | none =>
    refine 𝓡.bind (𝓡.read (.enumNode l fun _ _ => hall _) (gives_enumNode _ l)) ?_
    rintro _ ⟨henum⟩
    rename_i o
    cases o with
    | some n => exact 𝓡.pure ⟨.const (henum n rfl), .const n⟩
    | none =>
      refine 𝓡.bind (declaredProperties_rel 𝓡 (fun _ => hall _) hs hin fun p _ => hall p) fun v hv => 𝓡.pure ?_
      cases hv with
      | none => exact ⟨.const (worded_of_none rfl), .const _⟩
      | some hv =>
        obtain ⟨ps, hp⟩ := hv
        exact ⟨.object rfl hp, .object _ ps hp⟩

/-- The schema of a class is grown from those that it asks for. -/
theorem composedSchema_rel
    (hcb : ∀ l, Found 𝓡.base l → 𝓡.Rel (Shaped Leaf) fun i => cb i l direction)
    (hl : direction = .output → SoundClass 𝓡 t s cb Leaf l) :
    𝓡.Rel (fun ns => Shaped Leaf ns ∧ (direction = .input → Rooted Leaf ns)) fun i =>
      composedSchema t s (cb i) l direction := by
  cases direction with
  | output =>
    refine 𝓡.mono (classOutput_rel hs (.of_all hall t) hcb (hl rfl) (fun _ _ => hall _) fun p _ => hall p)
      fun v hv => ?_
    exact ⟨hv, nofun⟩
  | input => exact 𝓡.mono (classInput_rel hs hall hcb l) fun v hv => ⟨hv.1, fun _ => hv.2⟩

/-! ## Requests -/

variable (hin : ∀ l, Found 𝓡.base l → 𝓡.Rel (fun ns => Shaped Leaf ns ∧ Level ns) fun i => cb i l .input)

include hin

omit [∀ i, LawfulMonad (M i)] hs hall in
theorem firstWithFields_rel (ls : List Located) (hls : ∀ l ∈ ls, Found 𝓡.base l) :
    𝓡.Rel (Options (Shaped Leaf)) fun i => firstWithFields (cb i) ls := by
  induction ls with
  | nil => exact 𝓡.pure .none
  | cons l ls ih =>
    refine 𝓡.bind (hin l (hls l List.mem_cons_self)) fun v ⟨hv, b, hb⟩ => ?_
    simp only [hb]
    cases b with
    | true => exact 𝓡.pure (.some hv)
    | false => exact ih (List.forall_mem_cons.1 hls).2

omit [∀ i, LawfulMonad (M i)] in
theorem handlerInput_rel (subject : Subject) (f : Function) :
    𝓡.Rel (Grown Leaf) fun i => handlerInput t s (cb i) subject f := by
  have hgiven : ∀ {x : Inference Node}, Reads (fun _ => True) x → Gives 𝓡.base x Node.Worded →
      𝓡.Rel (Grown Leaf) fun i => (liftM x : M i Node) := by
    intro x hx hw
    refine 𝓡.mono (𝓡.asked hx hw fun p _ => hall p) ?_
    rintro _ ⟨_⟩
    exact Grown.formed.const _
  refine 𝓡.bind (𝓡.read (.givenRules (.handlerRules t s subject.module f)) .trivial) ?_
  rintro _ ⟨_⟩
  rename_i rules _
  cases rules with
  | some rules => exact hgiven (.ofRules _) (gives_ofRules _ _)
  | none =>
    have hclass : ∀ l, Found 𝓡.base l → 𝓡.Rel (Shaped Leaf) fun i => cb i l .input := fun l hl =>
      𝓡.mono (hin l hl) fun v hv => hv.1
    refine 𝓡.bind (declaredProperties_rel 𝓡 (fun _ => hall _) hs hclass fun p _ => hall p) fun v hv => ?_
    cases hv with
    | some hv =>
      obtain ⟨ps, hp⟩ := hv
      exact 𝓡.pure (.object _ ps hp)
    | none =>
      refine 𝓡.bind (𝓡.read (.parameterClasses t subject.module f) (gives_parameterClasses _ _ _ _)) ?_
      rintro _ ⟨hls⟩
      refine 𝓡.bind (firstWithFields_rel hin _ hls) fun v hv => ?_
      cases hv with
      | some hv => exact 𝓡.pure hv.grown
      | none => exact hgiven (.readFields t f) (gives_readFields _ _ _)

omit [∀ i, LawfulMonad (M i)] hs hall hin in
theorem readSubject_rel (name : String) :
    𝓡.Rel (Same fun o => (∀ subject ∈ o, Known 𝓡.base subject) ∧ result (readSubject name) 𝓡.base = .ok o)
      fun i => (liftM (readSubject name) : M i (Option Subject)) :=
  𝓡.read (.readSubject name) fun l hl o ho =>
    ⟨gives_readSubject _ name l hl o ho, gives_self (.readSubject name) _ l hl o ho⟩

omit [∀ i, LawfulMonad (M i)] in
/-- What a named subject accepts is grown from the schemas of classes. -/
theorem namedInput_rel (rules : Entries Rule.Raw) (name : String) :
    𝓡.Rel (Grown Leaf) fun i => namedInput t s (cb i) rules name := by
  have hrules : 𝓡.Rel (Grown Leaf) fun i => (liftM (ofRules rules) : M i Node) := by
    refine 𝓡.mono (𝓡.asked (.ofRules rules) .trivial fun p _ => hall p) ?_
    rintro _ ⟨_⟩
    exact Grown.formed.const _
  refine 𝓡.bind (readSubject_rel name) ?_
  rintro _ ⟨hfound, -⟩
  rename_i o
  cases o with
  | none =>
    dsimp only
    split
    · exact 𝓡.pure (Grown.formed.const _)
    · exact hrules
  | some subject =>
    dsimp only [acceptedSchema]
    split
    · cases subject with
      | cls l => exact 𝓡.mono (hin l (hfound _ rfl)) fun v hv => hv.1.grown
      | function name m f | method name m owner f => exact handlerInput_rel hs hall hin _ f
    · exact hrules

omit hall hin
include ha hout

/-- What a named subject produces is grown from the schemas of classes. -/
theorem namedOutput_rel (name : String)
    (hf : ∀ subject f, result (readSubject name) 𝓡.base = .ok (some subject) → subject.function? = some f →
      SoundHandler 𝓡 t cb Leaf subject f)
    (hfields : ∀ subject f p, result (readSubject name) 𝓡.base = .ok (some subject) → subject.function? = some f →
      FieldProblem 𝓡.base .output subject p → 𝓡.Meets p) :
    𝓡.Rel (Grown Leaf) fun i => namedOutput t s (cb i) name := by
  refine 𝓡.bind (readSubject_rel name) ?_
  rintro _ ⟨hfound, hname⟩
  rename_i o
  cases o with
  | none => exact 𝓡.pure (Grown.formed.const _)
  | some subject =>
    cases subject with
    | cls l => exact 𝓡.mono (hout l (hfound _ rfl)) fun v hv => hv.grown
    | function name m f | method name m owner f =>
      exact handlerOutput_rel hs ha hout (hf _ f hname rfl) fun p => hfields _ f p hname rfl

end

/-! ## Runs that agree -/

section

variable {ι : Type} {M : ι → Type → Type} [∀ i, Monad (M i)] [∀ i, LawfulMonad (M i)]
  [∀ i, MonadExceptOf Problem (M i)] [∀ i, MonadLiftT Inference (M i)] [∀ i, MonadLiftT Attempt (M i)]
  {𝓡 : Relator ι M} {t : Tables} {s : Settings} {cb : (i : ι) → ClassSchema (M i)}

theorem steady_false : Steady fun _ : ι → Node => False := fun _ _ _ h => h

omit [∀ i, LawfulMonad (M i)] in
theorem soundBody_of_no_leaf (home : Source.Module) (owner : Option Located) (f : Function) :
    SoundBody 𝓡 t cb (fun _ => False) home owner f :=
  fun _ _ o _ _ _ => .of_no_leaf o

variable (hall : ∀ p, 𝓡.Meets p)

include hall

theorem composedSchema_equal
    (hcb : ∀ d, Found 𝓡.base d → 𝓡.Rel (Shaped fun _ => False) fun i => cb i d direction) (l : Located) :
    𝓡.Rel (Shaped fun _ => False) fun i => composedSchema t s (cb i) l direction :=
  𝓡.mono (composedSchema_rel steady_false hall hcb fun _ _ _ _ _ => soundBody_of_no_leaf _ _ _) fun _ h => h.1

omit hall [∀ i, LawfulMonad (M i)] in
/-- A class that is expanded, if schemas are kept and found alike. -/
theorem expandedSchema_equal [Inhabited ι]
    (hkept : ∀ key, 𝓡.Rel (Options (Shaped fun _ => False)) fun i => (liftM (keptSchema key) : M i (Option Node)))
    (hkeep : ∀ key n, n.Worded → 𝓡.Rel (Shaped fun _ => False) fun i => (liftM (keepSchema key n) : M i Node))
    (h : 𝓡.Rel (Shaped fun _ => False) fun i => composedSchema t s (cb i) l direction) :
    𝓡.Rel (Shaped fun _ => False) fun i => expandedSchema t s (cb i) l direction := by
  refine 𝓡.bind (hkept _) fun v hv => ?_
  cases hv with
  | some hv => exact 𝓡.pure hv
  | none =>
    refine 𝓡.bind h fun v hv => ?_
    rw [hv.grown.eq_const]
    exact hkeep _ _ (hv.worded default)

variable (hcb : ∀ d direction, Found 𝓡.base d → 𝓡.Rel (Shaped fun _ => False) fun i => cb i d direction)

include hcb

omit hall [∀ i, LawfulMonad (M i)] in
theorem level_equal (d : Located) (hd : Found 𝓡.base d) :
    𝓡.Rel (fun ns => Shaped (fun _ => False) ns ∧ Level ns) fun i => cb i d .input :=
  𝓡.mono (hcb d .input hd) fun _ hns => ⟨hns, (hns.grown.leaf_or_rooted.resolve_left id).level⟩

/-- The schema of a function or method is the same in all runs, if those of classes are. -/
theorem subjectSchema_equal {subject : Subject}
    (hcls : ∀ l, subject = .cls l → 𝓡.Rel (Shaped fun _ => False) fun i => cb i l direction) :
    𝓡.Rel (Grown fun _ => False) fun i => subjectSchema t s (cb i) direction subject := by
  have hout : ∀ f, 𝓡.Rel (Grown fun _ => False) fun i => handlerOutput t (cb i) subject f := fun f =>
    handlerOutput_rel steady_false (.of_all hall t) (fun d hd => hcb d .output hd)
      (fun _ _ => soundBody_of_no_leaf _ _ _) fun p _ => hall p
  have hin : ∀ f, 𝓡.Rel (Grown fun _ => False) fun i => handlerInput t s (cb i) subject f :=
    handlerInput_rel steady_false hall (level_equal hcb) subject
  cases subject with
  | cls l => exact 𝓡.mono (hcls l rfl) fun _ hns => hns.grown
  | function name m f =>
    cases direction with
    | output => exact hout f
    | input => exact hin f
  | method name m owner f =>
    cases direction with
    | output => exact hout f
    | input => exact hin f

theorem schema_equal (q : Request) : 𝓡.Rel (Grown fun _ => False) fun i => q.schema t s (cb i) := by
  cases q with
  | output name =>
    exact namedOutput_rel steady_false (.of_all hall t) (fun d hd => hcb d .output hd) name
      (fun _ _ _ _ _ _ => soundBody_of_no_leaf _ _ _) fun _ _ p _ _ _ => hall p
  | input rules name => exact namedInput_rel steady_false hall (level_equal hcb) rules name

end

end ApiSchema.Infer
