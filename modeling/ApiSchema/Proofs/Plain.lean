import ApiSchema.Proofs.Firm
import ApiSchema.Proofs.Lockstep

/-!
# Plain bodies

A body is plain when no operand in it is a class (`PlainBody`). That is seen without expanding any class: every
class is read as a placeholder, and no operand may turn out to be one.

Over plain bodies, what runs in lockstep make of related answers is related (`Lockstep.composed_rel`,
`Lockstep.schema_rel`). The proof runs the reading with placeholders along with the others, as a probe: where an
operand of the other runs could be a class, the operand of the probe is a placeholder.
-/
namespace ApiSchema

open Source Shape Infer

variable {ι : Type} {α : Type}
variable {t : Infer.Tables} {r : Library} {home : Source.Module} {f : Function} {l : Located} {n : Node}
  {direction : Direction} {owner : Option Located} {L : (ι → Node) → Prop}

/-! ## A run more -/

namespace Lockstep

variable (𝓛 : Lockstep ι)

/-- The runs with one more, over a library with the same sources. -/
def joined : Lockstep (Option ι) where
  base := 𝓛.base
  inv
    | none => Alike 𝓛.base
    | some i => 𝓛.inv i
  sink
    | none => False
    | some i => 𝓛.sink i
  solo
    | none => False
    | some i => 𝓛.solo i
  gone
    | none => fun _ => False
    | some i => 𝓛.gone i
  inv_learned {i} := by
    cases i with
    | none => exact Alike.learned
    | some i => exact 𝓛.inv_learned
  gone_learned {i} := by
    cases i with
    | none => exact fun h _ => h
    | some i => exact 𝓛.gone_learned
  alone {_ _ i} := by
    cases i with
    | none => exact fun _ h => h.elim
    | some i => exact 𝓛.alone
  agree {_ _ s} hx hinv := by
    rcases 𝓛.agree hx fun i => hinv (some i) with (⟨i, hi, h⟩ | ⟨i, hi, h⟩) | h
    · exact .inl (.inl ⟨some i, hi, h⟩)
    · exact .inl (.inr ⟨some i, hi, h⟩)
    · refine .inr fun i => ?_
      cases i with
      | none => exact hx.alike (hinv none)
      | some i => exact h i

/-- A family with one member more. -/
def cons (a : α) (v : ι → α) : Option ι → α
  | none => a
  | some i => v i

variable {𝓛}

theorem Rel.join {R : (ι → α) → Prop} {x : ι → Inference α} (hx : 𝓛.Rel R x) (hfirm : ∀ i, Firm (x i))
    (hsink : ∃ i, 𝓛.sink i) (a : α) :
    𝓛.joined.Rel (fun v => ∃ w, R w ∧ v = cons a w) (cons (Pure.pure a) x) where
  solo i l hi hl := by
    cases i with
    | none => exact hi.elim
    | some i =>
      have hsolo := hx.solo i l hi hl
      refine ⟨hsolo.inv, hsolo.gone, fun b hb => ?_⟩
      obtain ⟨w, hw, rfl⟩ := hsolo.value b hb
      exact ⟨cons a w, ⟨w, hw, rfl⟩, rfl⟩
  joint s hinv := by
    rcases hx.joint (fun i => s (some i)) fun i => hinv (some i) with (⟨i, hi, h⟩ | ⟨i, hi, h⟩) | hj
    · exact .inl (.inl ⟨some i, hi, h⟩)
    · exact .inl (.inr ⟨some i, hi, h⟩)
    · rcases hj.value with ⟨v, hv, hr⟩ | ⟨p, hp⟩
      · refine .inr ⟨fun i => ?_, .inl ⟨cons a v, ⟨v, hv, rfl⟩, fun i => ?_⟩⟩
        · cases i with
          | none => exact hinv none
          | some i => exact hj.inv i
        · cases i with
          | none => rfl
          | some i => exact hr i
      · -- a problem of all other runs is one that no handler takes
        obtain ⟨i, hi⟩ := hsink
        exact .inl (.inl ⟨some i, hi, p, hp i, hfirm i _ p (hp i)⟩)

theorem Rel.leave {R : (Option ι → α) → Prop} {x : Option ι → Inference α} (hx : 𝓛.joined.Rel R x) :
    𝓛.Rel (fun v => ∃ w, R w ∧ v = fun i => w (some i)) fun i => x (some i) where
  solo i l hi hl := by
    have hsolo := hx.solo (some i) l hi hl
    refine ⟨hsolo.inv, hsolo.gone, fun a ha => ?_⟩
    obtain ⟨w, hw, rfl⟩ := hsolo.value a ha
    exact ⟨_, ⟨w, hw, rfl⟩, rfl⟩
  joint s hinv := by
    have hall : ∀ i, 𝓛.joined.inv i (cons 𝓛.base s i) := by
      rintro (_ | i)
      · exact .refl _
      · exact hinv i
    rcases hx.joint _ hall with (⟨_ | i, hi, h⟩ | ⟨_ | i, hi, h⟩) | hj
    · exact hi.elim
    · exact .inl (.inl ⟨i, hi, h⟩)
    · exact hi.elim
    · exact .inl (.inr ⟨i, hi, h⟩)
    · refine .inr ⟨fun i => hj.inv (some i), ?_⟩
      rcases hj.value with ⟨v, hv, hr⟩ | ⟨p, hp⟩
      · exact .inl ⟨_, ⟨v, hv, rfl⟩, fun i => hr (some i)⟩
      · exact .inr ⟨p, fun i => hp (some i)⟩

end Lockstep

/-! ## Readings of one library -/

/-- Two runs over libraries that differ in modules that the first cannot load. -/
def twins {away : String → Prop} {fails : Prop} {r r' : Library} (hk : Kin away fails r r')
    (hbare : ∀ name m, away name → result (loadModule name) r ≠ .ok m) : Lockstep Bool where
  base := r
  inv b := Alike (cond b r' r)
  sink b := fails ∧ b = false
  solo _ := False
  gone _ _ := False
  inv_learned := Alike.learned
  gone_learned h _ := h
  alone _ h := h.elim
  agree hx hinv := by
    rcases hx.barely hk hbare with ⟨hfails, hf⟩ | hsame
    · exact .inl (.inl ⟨false, ⟨hfails, rfl⟩, (hx.alike (hinv false)).symm ▸ hf⟩)
    · refine .inr fun b => ?_
      cases b with
      | false => exact hx.alike (hinv false)
      | true => exact (hx.alike (hinv true)).trans hsame.symm

/-- A class that is not expanded. -/
def unexpanded : ClassSchema Inference := fun l _ => return Node.depthLimited l.cls.qualifiedName

/-- The reading of an operand in the body of a function, with no class expanded. -/
def operandIn (t : Infer.Tables) (home : Source.Module) (owner : Option Located) (body : Source.Tree) (n : Nat)
    (expanding : List String) (key : Option String) (o : Shape.Operand) : Inference (Option Node) :=
  (o.read (scopeAt { names := t.names } (resolversIn t unexpanded home owner) body n expanding) key).run

theorem worded_depthLimited (name : String) : (Node.depthLimited name).Worded := by
  intro d hd
  cases hd
  exact ⟨_, rfl⟩

theorem worded_circular (name : String) : (Node.circular name).Worded := by
  intro d hd
  cases hd
  exact ⟨_, rfl⟩

section

variable (t : Infer.Tables) (home : Source.Module) (owner : Option Located) (body : Source.Tree) (n : Nat)
  (expanding : List String) (key : Option String) (o : Shape.Operand) {r l : Library}

theorem operandIn_barely {away : String → Prop} {fails : Prop} (hk : Kin away fails r l)
    (hbare : ∀ name m, away name → result (loadModule name) r ≠ .ok m) :
    fails ∧ Fatal (result (operandIn t home owner body n expanding key o) r) ∨
      result (operandIn t home owner body n expanding key o) l =
        result (operandIn t home owner body n expanding key o) r := by
  have hs : Steady fun _ : Bool → Node => False := fun _ _ _ h => h
  have ha : Admits (twins hk hbare).toRelator t := .of_all (fun _ => trivial) t
  have hout : ∀ d, Found r d → (twins hk hbare).Rel (Shaped fun _ => False) fun _ => unexpanded d .output :=
    fun d _ => .pure (.const (worded_depthLimited _))
  have hscopes : Scopes (shapedStock (twins hk hbare).toRelator hs) { names := t.names } (fun _ => true) fun _ =>
      scopeAt { names := t.names } (resolversIn t unexpanded home owner) body n expanding :=
    scopes_rel ha.bodies (classNode_rel hout home owner) (memberNode_rel hs ha hout home owner)
      (fun o _ _ _ => (Sound.of_no_leaf o).looked hs) n expanding
  have hread : (twins hk hbare).Rel (Options (Shaped fun _ => False)) fun _ =>
      operandIn t home owner body n expanding key o := by
    cases o with
    | shape e => exact shapeOf_rel hscopes e fun o _ => (Sound.of_no_leaf o).looked hs
    | value e => exact valueOf_rel hscopes key e fun o _ => (Sound.of_no_leaf o).looked hs
  rcases hread.joint (fun b => cond b l r) fun b => .refl _ with (⟨b, ⟨hfails, rfl⟩, hf⟩ | ⟨_, h, _⟩) | hj
  · exact .inl ⟨hfails, hf⟩
  · exact h.elim
  · right
    rcases hj.value with ⟨v, hv, hr⟩ | ⟨p, hp⟩
    · have hsame : v true = v false := by
        cases hv with
        | none => rfl
        | some h => exact congrArg some (h.grown.collapse (Congruent.eq true false).toFormed fun _ h => h.elim)
      exact (hr true).trans ((congrArg Except.ok hsame).trans (hr false).symm)
    · exact (hp true).trans (hp false).symm

/-- What an operand is does not depend on what was read before. -/
theorem operandIn_alike (hl : Alike r l) : result (operandIn t home owner body n expanding key o) l =
    result (operandIn t home owner body n expanding key o) r :=
  (operandIn_barely t home owner body n expanding key o (.of_alike hl : Kin _ False r l) nofun).resolve_left
    fun h => h.1

end

/-! ## The probe -/

/-- No operand in the body of a function is a class. -/
def PlainBody (t : Infer.Tables) (r : Library) (home : Source.Module) (owner : Option Located) (f : Function) : Prop :=
  ∀ body, f.body = some body → ∀ o ∈ bodyOperands body, ∀ n expanding key node,
    result (operandIn t home owner body n expanding key o) r = .ok (some node) → node.isPlaceholder = false

/-- No operand in the bodies that are read for a class is a class. -/
def PlainClass (t : Infer.Tables) (s : Settings) (r : Library) (l : Located) : Prop :=
  ∀ chain, result (ancestorChain l) r = .ok chain → ∀ p ∈ methodsNamed s.serializerMethods chain,
    PlainBody t r p.1.module (some l) p.2

/-- No operand in the body that is read for a handler is a class. -/
def PlainHandler (t : Infer.Tables) (r : Library) (subject : Subject) (f : Function) : Prop :=
  ∀ owner, result (ownerOf subject) r = .ok owner → PlainBody t r subject.module owner f

/-- A function whose body has an operand. -/
def hasOperands (f : Function) : Bool := f.body.any fun body => !(bodyOperands body).isEmpty

/-- No body of a library has an operand. -/
def Operandless (r : Library) : Prop := ∀ m ∈ r.modules, ∀ f ∈ functionsIn m, hasOperands f = false

instance (r : Library) : Decidable (Operandless r) := by unfold Operandless; infer_instance

theorem plainBody_of_operandless (hr : Operandless r) (hf : ∃ m ∈ r.modules, f ∈ functionsIn m) :
    PlainBody t r home owner f := by
  obtain ⟨m, hm, hf⟩ := hf
  intro body hbody o ho
  have hnone := hr m hm f hf
  unfold hasOperands at hnone
  rw [hbody] at hnone
  simp only [Option.any_some, Bool.not_eq_false', List.isEmpty_iff] at hnone
  rw [hnone] at ho
  cases ho

/-- A library without operands is plain. -/
theorem plainClass_of_operandless {s : Settings} (hr : Operandless r)
    (hl : Found r l) : PlainClass t s r l := by
  intro chain hchain p hp
  obtain ⟨name, _, hp⟩ := List.mem_flatMap.1 hp
  obtain ⟨a, ha, hp⟩ := List.mem_filterMap.1 hp
  obtain ⟨f, hf, rfl⟩ := Option.map_eq_some_iff.1 hp
  exact plainBody_of_operandless hr (mem_functionsIn (gives_ancestorChain hl r (.refl r) chain hchain a ha) hf)

theorem plainHandler_of_operandless (hr : Operandless r) {name : String}
    {subject : Subject} (hname : result (readSubject name) r = .ok (some subject))
    (hf : subject.function? = some f) : PlainHandler t r subject f := by
  intro owner _
  have hknown := gives_readSubject r name r (.refl r) _ hname subject rfl
  refine plainBody_of_operandless hr ?_
  cases subject with
  | cls l => cases hf
  | function _ _ g | method _ _ _ g => cases hf; exact hknown

/-- An object with a mark. -/
def Marked (n : Node) : Prop := ∃ f ps, n = .object f ps ∧ f.circularRef.isSome = true

theorem Marked.retouch {h : Node → Node} (hh : Retouch h) (hn : Marked n) : Marked (h n) := by
  obtain ⟨f, ps, rfl, hf⟩ := hn
  obtain ⟨f', hf', he⟩ := hh.object f
  exact ⟨f', ps, he ps, hf' ▸ hf⟩

theorem Marked.cut (h : Marked n) : n.Cut := by
  obtain ⟨f, ps, rfl, hf⟩ := h
  exact .mark hf

theorem marked_circular (name : String) : Marked (Node.circular name) := ⟨_, _, rfl, rfl⟩

theorem marked_depthLimited (name : String) : Marked (Node.depthLimited name) := ⟨_, _, rfl, rfl⟩

/-- Leaves of the other runs, where the probe has a mark. -/
def Probed (L : (ι → Node) → Prop) (ns : Option ι → Node) : Prop :=
  Grown L (fun i => ns (some i)) ∧ Marked (ns none)

theorem steady_probed (hL : Steady L) : Steady (Probed L) :=
  fun _ _ hh hn => ⟨(Grown.congruent hL).retouch hh hn.1, hn.2.retouch hh⟩

theorem Grown.of_probed (hL : Steady L) {ns : Option ι → Node} (h : Grown (Probed L) ns) :
    Grown L fun i => ns (some i) := by
  have hformed : Formed fun ns : Option ι → Node => Grown L fun i => ns (some i) :=
    ((Grown.congruent hL).comp some).toFormed
  exact h.collapse (L := fun ns : Option ι → Node => Grown L fun i => ns (some i)) hformed fun _ hn => hn.1

namespace Lockstep

variable {𝓛 : Lockstep ι}

/-- Where one run never has a mark, no value is a leaf. -/
theorem Rel.sure {Leaf : (ι → Node) → Prop} {x : ι → Inference (Option Node)} (hx : 𝓛.Rel (Options (Shaped Leaf)) x)
    (j : ι) (hleaf : ∀ ns, Leaf ns → (ns j).isPlaceholder = true)
    (hj : ∀ l, 𝓛.inv j l → ∀ n, result (x j) l = .ok (some n) → n.isPlaceholder = false) :
    𝓛.Rel (Options fun ns => Shaped Leaf ns ∧ Rooted Leaf ns) x where
  solo i l hi hl := by
    have hsolo := hx.solo i l hi hl
    refine ⟨hsolo.inv, hsolo.gone, fun a ha => ?_⟩
    obtain ⟨v, hv, rfl⟩ := hsolo.value a ha
    cases hv with
    | none => exact ⟨fun _ => none, .none, rfl⟩
    | @some w hw => exact ⟨fun _ => some (w i), .some ⟨.const (hw.worded i), .const _⟩, rfl⟩
  joint s hinv := by
    rcases hx.joint s hinv with he | hjoint
    · exact .inl he
    · refine .inr ⟨hjoint.inv, ?_⟩
      rcases hjoint.value with ⟨v, hv, hr⟩ | hp
      · refine .inl ⟨v, ?_, hr⟩
        cases hv with
        | none => exact .none
        | @some w hw =>
          rcases hw.grown.leaf_or_rooted with h | h
          · have := hj (s j) (hinv j) _ (hr j)
            rw [hleaf w h] at this
            cases this
          · exact .some ⟨hw, h⟩
      · exact .inr hp

variable {t : Infer.Tables} {s : Settings} {cb : ι → ClassSchema Inference} {L : (ι → Node) → Prop}

theorem sound_of_plain
    (hf : PlainBody t 𝓛.base home owner f) :
    SoundBody 𝓛.joined.toRelator t (cons unexpanded cb) (Probed L) home owner f := by
  intro body hbody o ho n expanding key hx
  refine Rel.sure hx none ?_ fun l hl node hnode => ?_
  · rintro ns ⟨_, f, ps, hn, hf⟩
    rw [hn]
    exact hf
  · have hprobe := operandIn_alike t home owner body n expanding key o hl
    exact hf body hbody o ho n expanding key node (hprobe.symm.trans hnode)

variable (hL : Steady L) (hfirm : ∀ i d direction, Firm (cb i d direction)) (hsink : ∃ i, 𝓛.sink i)

include hfirm hsink

theorem Rel.probe {d : Located} (h : 𝓛.Rel (Shaped L) fun i => cb i d direction) :
    𝓛.joined.Rel (Shaped (Probed L)) fun i => cons unexpanded cb i d direction := by
  have hjoin := h.join (fun i => hfirm i d direction) hsink (Node.depthLimited d.cls.qualifiedName)
  have hcons : (fun i => cons unexpanded cb i d direction) =
      cons (Pure.pure (Node.depthLimited d.cls.qualifiedName)) fun i => cb i d direction := by
    funext i
    cases i <;> rfl
  rw [hcons]
  refine hjoin.mono ?_
  rintro _ ⟨w, hw, rfl⟩
  refine ⟨.leaf ⟨hw.grown, ⟨_, _, rfl, rfl⟩⟩, ?_⟩
  rintro (_ | i)
  · exact worded_depthLimited _
  · exact hw.worded i

include hL

theorem composed_rel (hl : direction = .output → PlainClass t s 𝓛.base l)
    (hcb : ∀ d, Found 𝓛.base d → 𝓛.Rel (Shaped L) fun i => cb i d direction) :
    𝓛.Rel (fun ns => Shaped L ns ∧ (direction = .input → Rooted L ns)) fun i =>
      composedSchema t s (cb i) l direction := by
  have hsound : direction = .output → SoundClass 𝓛.joined.toRelator t s (cons unexpanded cb) (Probed L) l :=
    fun hd chain hchain p hp => sound_of_plain (hl hd chain hchain p hp)
  have hcomposed : 𝓛.joined.Rel (fun ns => Shaped (Probed L) ns ∧ (direction = .input → Rooted (Probed L) ns))
      fun i => composedSchema t s (cons unexpanded cb i) l direction :=
    composedSchema_rel (𝓡 := 𝓛.joined.toRelator) (steady_probed hL) (fun _ => trivial)
      (fun d hd => (hcb d hd).probe hfirm hsink) hsound
  refine hcomposed.leave.mono ?_
  rintro _ ⟨w, ⟨hw, hroot⟩, rfl⟩
  exact ⟨⟨hw.grown.of_probed hL, fun i => hw.worded _⟩, fun hd => (hroot hd).comp fun _ => Grown.of_probed hL⟩

/-- The schema that answers a request over runs in lockstep. A handler that accepts something looks at the
roots of schemas itself, so the probe stays out there. -/
theorem schema_rel (hf : ∀ name subject f, result (readSubject name) 𝓛.base = .ok (some subject) →
      subject.function? = some f → PlainHandler t 𝓛.base subject f)
    (hout : ∀ d, Found 𝓛.base d → 𝓛.Rel (Shaped L) fun i => cb i d .output)
    (hin : ∀ d, Found 𝓛.base d → 𝓛.Rel (fun ns => Shaped L ns ∧ Level ns) fun i => cb i d .input) (q : Request) :
    𝓛.Rel (Grown L) fun i => q.schema t s (cb i) := by
  cases q with
  | output name =>
    have hnamed : 𝓛.joined.Rel (Grown (Probed L)) fun i => namedOutput t s (cons unexpanded cb i) name :=
      namedOutput_rel (𝓡 := 𝓛.joined.toRelator) (steady_probed hL) (.of_all (fun _ => trivial) t)
        (fun d hd => (hout d hd).probe hfirm hsink) name
        (fun subject f hname hfun owner howner => sound_of_plain (hf name subject f hname hfun owner howner))
        fun _ _ _ _ _ _ => trivial
    refine hnamed.leave.mono ?_
    rintro _ ⟨w, hw, rfl⟩
    exact hw.of_probed hL
  | input rules name => exact namedInput_rel (𝓡 := 𝓛.toRelator) hL (fun _ => trivial) hin rules name

end Lockstep
end ApiSchema
