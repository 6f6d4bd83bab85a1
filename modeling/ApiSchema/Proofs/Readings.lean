import ApiSchema.Proofs.Weave
import ApiSchema.Shape.Read

/-!
# Bodies in several runs

Every node that is read off an expression is made by a few operations from nodes of a kind and from the schemas of
classes. So what these operations keep in several runs (`JointStock`) is kept by the reading of all expressions
(`shapeOf_rel`, `valueOf_rel`) and of a whole body (`shapeIn_rel`). Only the tables and the classes that are asked for
lead to problems.

Three operations look into a value instead of passing it on: a call of `dict` takes the entries of its argument,
arithmetic takes the kind of its left side, and a call that keeps elements asks whether its argument is an array. Their
operands have to be alike in all runs (`Looked`).

A stock tells apart the values that may be included under a condition. They are written with a wrapper around them;
`wraps` says which ones are.
-/
namespace ApiSchema.Shape

open Source

variable {text callee : String} {T : Tables} {w : Bool} {names : Name.Rules} {positional : List Expr}
  {x : Attempt Node} {keywords : List (String × Expr)}

/-! ## Operands -/

/-- A part of an expression that is looked into: as what is produced, or as a value. -/
inductive Operand where
  | shape (e : Expr)
  | value (e : Expr)

/-- The argument of a call that looks into it. -/
def callOperands (callee : String) : List Expr → List Operand
  | [] => []
  | e :: _ =>
    if callee == "dict" then [.shape e]
    else if sequenceCalls.contains callee then [.value e]
    else []

mutual

/-- The operands in an expression. -/
def operands : Expr → List Operand
  | .sign _ e => operands e
  | .binary _ _ left _ => .value left :: operands left
  | .enclosed _ e | .awaited _ e => operands e
  | .list _ es | .tuple _ es | .set _ es | .several _ es => operandsOfAll es
  | .comprehension _ e => operands e
  | .dictionary _ es => operandsOfEntries es
  | .conditional _ e _ _ | .attribute _ e _ => operands e
  | .call _ f positional keywords =>
    callOperands f.text positional ++ (operands f ++ (operandsOfAll positional ++ operandsOfKeywords keywords))
  | .lambda _ e => operands e
  | _ => []

def operandsOfAll : List Expr → List Operand
  | [] => []
  | e :: es => operands e ++ operandsOfAll es

def operandsOfEntries : List (EntryKey × Expr) → List Operand
  | [] => []
  | (_, e) :: es => operands e ++ operandsOfEntries es

def operandsOfKeywords : List (String × Expr) → List Operand
  | [] => []
  | (_, e) :: es => operands e ++ operandsOfKeywords es

end

theorem forall_operands_call {P : Operand → Prop} {f : Expr} :
    (∀ o ∈ operands (.call text f positional keywords), P o) ↔
      (∀ o ∈ callOperands f.text positional, P o) ∧ (∀ o ∈ operands f, P o) ∧
        (∀ o ∈ operandsOfAll positional, P o) ∧ ∀ o ∈ operandsOfKeywords keywords, P o := by
  simp only [operands, List.forall_mem_append]

theorem mem_operandsOfAll {es : List Expr} {e : Expr} {o : Operand} (he : e ∈ es) (ho : o ∈ operands e) :
    o ∈ operandsOfAll es := by
  induction es with
  | nil => cases he
  | cons d es ih =>
    rcases List.mem_cons.1 he with rfl | he
    · exact List.mem_append_left _ ho
    · exact List.mem_append_right _ (ih he)

theorem mem_operandsOfEntries {es : List (EntryKey × Expr)} {o : Operand} :
    o ∈ operandsOfEntries es ↔ ∃ e ∈ es, o ∈ operands e.2 := by
  induction es with
  | nil => simp [operandsOfEntries]
  | cons e es ih => simp [operandsOfEntries, ih]

/-- The operands in a body: in what it produces, binds to names and sets. -/
def bodyOperands (body : Source.Tree) : List Operand :=
  operandsOfAll ((producedIn body).map Expr.ofTree) ++
    (operandsOfAll (bindingsOf body).values ++ operandsOfEntries ((updatesIn body).flatMap (·.entries)))

/-- The reading of an operand. -/
def Operand.read {m : Type → Type} [Monad m] [MonadLiftT Attempt m] (s : Scope m) (key : Option String) :
    Operand → OptionT m Node
  | .shape e => shapeOf s e
  | .value e => valueOf s key e

/-! ## Nodes by name -/

/-- A node that only its kind and format tell. -/
def Made (n : Node) : Prop := ∃ kind format, (Draft.ofKind kind format).build = .ok n

theorem made_scalar (k : Scalar) (format : Option Value) : Made (.scalar k { format }) :=
  ⟨.scalar k, format, by cases k <;> rfl⟩

theorem made_object : Made (Node.objectOf []) := ⟨.object, none, rfl⟩

theorem kind_of_build_error {kind : Kind} {format : Option Value} {e : DraftError}
    (h : (Draft.ofKind kind format).build = .error e) : kind = .union ∧ e = .unionWithoutVariants := by
  rcases kind with k | _ | _ | _ <;> cases h
  exact ⟨rfl, rfl⟩

/-- The problem that a union without children leads to. -/
theorem union_of_error {kind : Kind} {format : Option Value} {p : Problem}
    (h : (liftM (Draft.ofKind kind format).build : Attempt Node) = .error p) :
    kind = .union ∧ p = .shape .unionWithoutVariants := by
  cases hb : (Draft.ofKind kind format).build with
  | ok n => rw [hb] at h; cases h
  | error e =>
    rw [hb] at h
    cases h
    obtain ⟨hkind, rfl⟩ := kind_of_build_error hb
    exact ⟨hkind, rfl⟩

/-- A rule for fields or for calls that gives a union. -/
def HasUnion (names : Name.Rules) : Prop :=
  (∃ r ∈ names.fields, r.kind = .union) ∨ ∃ r ∈ names.helpers, r.kind = .union

/-- A node of a kind, unless a rule gives a union. -/
structure ByRules (names : Name.Rules) (x : Attempt Node) : Prop where
  made : ∀ n, x = .ok n → Made n
  union : ∀ p, x = .error p → HasUnion names ∧ p = .shape .unionWithoutVariants

theorem byRules_field (names : Name.Rules) (name : String) : ByRules names (liftM (names.field name)) := by
  unfold Name.Rules.field Name.Rules.fieldDraft
  cases hr : names.fieldRule? name with
  | none => exact ⟨fun n h => ⟨.string, none, ok_of_mapError h⟩, nofun⟩
  | some rule =>
    refine ⟨fun n h => ⟨_, _, ok_of_mapError h⟩, fun p h => ?_⟩
    obtain ⟨hkind, hp⟩ := @union_of_error rule.kind (rule.format.map .str) p h
    exact ⟨.inl ⟨rule, List.mem_of_find?_eq_some hr, hkind⟩, hp⟩

theorem byRules_namedNode (names : Name.Rules) (candidates : List (Option String)) :
    ByRules names (namedNode names candidates) := by
  unfold namedNode
  split
  · exact byRules_field names _
  · exact ⟨fun n h => Except.ok.inj h ▸ made_scalar _ _, nofun⟩

theorem byRules_calledNode (names : Name.Rules) (callee : String) (key : Option String) :
    ByRules names (calledNode names callee key) := by
  have hnamed := byRules_namedNode names [some (Text.lastSegment callee), key]
  unfold calledNode Name.Rules.helper?
  -- unfolding the binds is cheap only while the schema of the names is not unfolded with them
  generalize namedNode names [some (Text.lastSegment callee), key] = named at hnamed ⊢
  cases hr : names.helperRule? callee with
  | none => exact hnamed
  | some rule =>
    dsimp only
    cases hb : (Draft.ofKind rule.kind (rule.format.map Value.str)).build with
    | ok n => exact ⟨fun m h => Except.ok.inj h ▸ ⟨_, _, hb⟩, nofun⟩
    | error e =>
      obtain ⟨hkind, rfl⟩ := kind_of_build_error hb
      exact ⟨nofun, fun p h => ⟨.inr ⟨rule, List.mem_of_find?_eq_some hr, hkind⟩, (Except.error.inj h).symm⟩⟩

/-! ## Problems of the tables -/

/-- The problems that a wrapper leads to. -/
inductive Wrapper.Meets (w : Wrapper) : Problem → Prop
  | place {position : Option Int} {count : Nat} {f : Fault} (hw : position = w.subjectIndex ∨ position = w.valueIndex)
    (h : argumentPlace? position count = .error f) : Meets w (.fault f)
  | sentence {about : String} {f : Fault} (h : Text.fill w.description "subject" about = .error f) : Meets w (.fault f)
  | merge (h : w.merge = true) (hw : w.valueIndex = none) : Meets w (.fault .mismatch)
  | union (h : w.fallbackKind = some .union) : Meets w (.shape .unionWithoutVariants)

/-- The problems that the tables of bodies lead to. -/
inductive Tables.Meets (T : Tables) : Problem → Prop
  | names (h : HasUnion T.names) : Meets T (.shape .unionWithoutVariants)
  | wrapper {w : Wrapper} {p : Problem} (hw : w ∈ T.wrappers.values) (h : w.Meets p) : Meets T p

theorem fault_of_error {α : Type} {x : Except Fault α} {p : Problem} (h : liftFault x = .error p) :
    ∃ f, x = .error f ∧ p = .fault f := by
  cases x with
  | ok a => cases h
  | error f =>
    cases h
    exact ⟨f, rfl, rfl⟩

theorem mem_wrappers {w : Wrapper} (h : T.ownWrapper? callee = some w) :
    w ∈ T.wrappers.values := by
  unfold Tables.ownWrapper? at h
  split at h
  · exact Entries.mem_values h
  · cases h

/-! ## Stocks -/

mutual

/-- Whether the value of an expression may be included under a condition, while some names can be looked through. -/
def wraps (T : Tables) (bound : String → Bool) : Expr → Bool
  | .enclosed _ e | .awaited _ e | .sign _ e | .conditional _ e _ _ => wraps T bound e
  | .name n => bound n
  | .call _ function positional _ =>
    (T.ownWrapper? function.text).isSome || (sequenceCalls.contains function.text && wrapsFirst T bound positional)
  | _ => false

def wrapsFirst (T : Tables) (bound : String → Bool) : List Expr → Bool
  | [] => false
  | e :: _ => wraps T bound e

end

/-- The properties of an object. -/
def properties? : Node → Option (Entries Node)
  | .object _ properties => some properties
  | _ => none

theorem propertiesOf_eq {m : Type → Type} [Monad m] (n : Node) :
    (propertiesOf n : OptionT m (Entries Node)) = (properties? n).elim failure pure := by
  cases n <;> rfl

section

variable {ι : Type} {M : ι → Type → Type} [∀ i, Monad (M i)] [∀ i, MonadLiftT Attempt (M i)] (𝓦 : Weave ι M)

/-- Nodes in several runs that what a body does with nodes leads to. -/
structure JointStock where
  /-- The values, which are included under a condition only if so marked. -/
  Value : Bool → (ι → Node) → Prop
  /-- The fields of an object that is written down. -/
  Field : (ι → Node) → Prop
  /-- The properties of an object. -/
  Property : (ι → Node) → Prop
  /-- What can be looked into. -/
  Root : (ι → Node) → Prop
  loose : ∀ {w v}, Value false v → Value w v
  made : ∀ {n}, Made n → Value false fun _ => n
  constant : ∀ {x : Attempt Node}, (∀ n, x = .ok n → Value false fun _ => n) → (∀ p, x = .error p → 𝓦.Meets p) →
    𝓦.Rel (Same fun n => Value false fun _ => n) fun _ => liftM x
  refused : ∀ {p : Problem}, 𝓦.Meets p → 𝓦.Rel (Entered Field) fun _ => liftM (.error p : Attempt (Entries Node))
  array : ∀ {w v}, Value w v → Value false fun i => Node.arrayOf (v i)
  object : ∀ {v}, Entered Property v → Value false fun i => Node.objectOf (v i)
  nullable : ∀ {w v}, Value w v → Value w fun i => (v i).asNullable
  declared : ∀ {v n}, Value false v → Value false (fun _ => n) → Value false fun i => declaredOrNamed (v i) n
  field : ∀ {w v}, Value w v → Field fun i => fieldNode (some (v i))
  property : ∀ {v}, Field v → Property v
  included : ∀ {w v} (text : String), Value w v → 𝓦.Rel (Value true) fun i => liftM (liftFault (included text (v i)))
  includedField : ∀ {v} (text : String), Field v → 𝓦.Rel Field fun i => liftM (liftFault (Shape.included text (v i)))
  properties : ∀ {w v}, Value w v → Root v → Options (Entered Property) fun i => properties? (v i)
  arithmetic : ∀ {w v}, Value w v → Root v → Value false fun i => arithmeticNode (some (v i))
  arrays : ∀ {w v}, Value w v → Root v → Options (Value w) fun i => if (v i).kind == .array then some (v i) else none

variable {𝓦} (N : JointStock 𝓦)

/-- An operand can be looked into. -/
def Looked (s : (i : ι) → Scope (M i)) (o : Operand) : Prop :=
  ∀ w key, 𝓦.RelO (N.Value w) (fun i => o.read (s i) key) →
    𝓦.RelO (fun v => N.Value w v ∧ N.Root v) fun i => o.read (s i) key

theorem Looked.of_root {N : JointStock 𝓦} (h : ∀ v, N.Root v) {s : (i : ι) → Scope (M i)} (o : Operand) :
    Looked N s o :=
  fun _ _ hread => 𝓦.monoO hread fun v hv => ⟨hv, h v⟩

/-- An argument is given in all runs or in none. -/
def Given (x : (i : ι) → Option (OptionT (M i) Node)) : Prop :=
  (∀ i, x i = none) ∨ ∃ y : (i : ι) → OptionT (M i) Node, (∀ i, x i = some (y i)) ∧ 𝓦.RelO (N.Value false) y

namespace JointStock

variable {N}

theorem wide {v : ι → Node} (h : N.Value w v) : N.Value true v := by
  cases w with
  | true => exact h
  | false => exact N.loose h

theorem scalar (N : JointStock 𝓦) (k : Scalar) (format : Option ApiSchema.Value) :
    N.Value w fun _ => .scalar k { format } :=
  N.loose (N.made (made_scalar k format))

theorem fieldOfOption {v : ι → Option Node} (hv : Options (N.Value w) v) : N.Field fun i => fieldNode (v i) := by
  cases hv with
  | none => exact N.field (N.scalar (w := false) .string none)
  | some h => exact N.field h

theorem objectOfFields {v : ι → Entries Node} (hv : Entered N.Field v) :
    N.Value w fun i => Node.objectOf (Entries.ofPairs (v i)) :=
  N.loose (N.object (hv.mono fun _ => N.property).ofPairs)

theorem orString {v : ι → Option Node} (hv : Options (N.Value w) v) : N.Value true fun i => (v i).getD Node.string := by
  cases hv with
  | none => exact N.scalar _ _
  | some h => exact N.wide h

theorem arithmeticOfOption {v : ι → Option Node} (hv : Options (fun v => N.Value w v ∧ N.Root v) v) :
    N.Value false fun i => arithmeticNode (v i) := by
  cases hv with
  | none => exact N.scalar _ _
  | some h => exact N.arithmetic h.1 h.2

theorem same (hx : ∀ n, x = .ok n → N.Value false fun _ => n)
    (hp : ∀ p, x = .error p → 𝓦.Meets p) : 𝓦.RelO (N.Value w) fun i => (do return ← x : OptionT (M i) Node) := by
  refine 𝓦.monoO (𝓦.liftO (N.constant hx hp)) ?_
  rintro _ ⟨h⟩
  exact N.loose h

theorem named (hx : ByRules names x)
    (hn : HasUnion names → 𝓦.Meets (.shape .unionWithoutVariants)) :
    𝓦.Rel (Same fun n => N.Value false fun _ => n) fun _ => liftM x := by
  refine N.constant (fun n h => N.made (hx.made n h)) fun p hp => ?_
  obtain ⟨h, rfl⟩ := hx.union p hp
  exact hn h

theorem byRules (hx : ByRules names x)
    (hn : HasUnion names → 𝓦.Meets (.shape .unionWithoutVariants)) :
    𝓦.RelO (N.Value w) fun i => (do return ← x : OptionT (M i) Node) := by
  refine 𝓦.monoO (𝓦.liftO (N.named hx hn)) ?_
  rintro _ ⟨h⟩
  exact N.loose h

theorem relation (hn : HasUnion names → 𝓦.Meets (.shape .unionWithoutVariants))
    (relation : String) (key : Option String) :
    𝓦.RelO (N.Value false) fun i => (do return ← relationNode names relation key : OptionT (M i) Node) := by
  unfold relationNode
  split
  · exact byRules (byRules_field names _) hn
  · split
    · exact same (fun n h => Except.ok.inj h ▸ N.array (N.made made_object)) nofun
    · split
      · exact byRules (byRules_field names _) hn
      · exact same (fun n h => Except.ok.inj h ▸ N.made made_object) nofun

end JointStock

variable {N}

/-! ## Conditional fields -/

theorem includedFields_rel [∀ i, LawfulMonad (M i)] (text : String)
    {x : (i : ι) → M i (List (String × Node))} (hx : 𝓦.Rel (Entered N.Field) x) :
    𝓦.Rel (Entered N.Field) fun i => includedFields text (x i) := by
  have hall : ∀ w, Entered N.Field w → 𝓦.Rel (Entered N.Field) fun i =>
      (w i).mapM (m := M i) fun e => do
        let n ← liftM (liftFault (included text e.2))
        return (e.1, n) := by
    rintro _ ⟨ps, hp⟩
    induction ps with
    | nil =>
      simp only [Entries.column, List.map_nil, List.mapM_nil]
      exact 𝓦.pure .nil
    | cons p ps ih =>
      obtain ⟨key, v⟩ := p
      obtain ⟨hv, hps⟩ := List.forall_mem_cons.1 hp
      simp only [Entries.column, List.map_cons, List.mapM_cons]
      refine 𝓦.bind (R := fun e => ∃ n, N.Field n ∧ e = fun i => (key, n i)) ?_ ?_
      · exact 𝓦.bind (N.includedField text hv) fun n hn => 𝓦.pure ⟨n, hn, rfl⟩
      · rintro _ ⟨n, hn, rfl⟩
        exact 𝓦.bind (ih hps) fun w hw => 𝓦.pure (.cons key hn hw)
  exact 𝓦.bind hx fun v hv => hall _ hv.ofPairs

theorem mergedFields_rel [∀ i, LawfulMonad (M i)] {w : Wrapper} (hw : ∀ p, w.Meets p → 𝓦.Meets p)
    (count : Nat) {fields : (i : ι) → Nat → M i (List (String × Node))}
    (hf : ∀ place, 𝓦.Rel (Entered N.Field) fun i => fields i place) :
    𝓦.Rel (Entered N.Field) fun i => mergedFields w count (fields i) := by
  unfold mergedFields
  split
  · rename_i hmerge
    split
    · rename_i hvalue
      exact N.refused (hw _ (.merge hmerge hvalue))
    · rename_i position hvalue
      refine 𝓦.bind (𝓦.lifted fun p hp => ?_) ?_
      · obtain ⟨f, hf, rfl⟩ := fault_of_error hp
        have hplace : argumentPlace? (some position) count = .error f := hf
        exact hw _ (.place (.inr hvalue.symm) hplace)
      rintro _ ⟨_⟩
      rename_i place _
      cases place with
      | none => exact 𝓦.pure .nil
      | some place => exact includedFields_rel _ (hf place)
  · exact 𝓦.pure .nil

theorem includedValue_rel (hn : HasUnion names → 𝓦.Meets (.shape .unionWithoutVariants)) {w : Wrapper}
    (hw : ∀ p, w.Meets p → 𝓦.Meets p) (key : Option String) (positional : List Expr)
    {value : (i : ι) → Nat → OptionT (M i) Node} (hv : ∀ place, 𝓦.RelO (N.Value true) fun i => value i place) :
    𝓦.RelO (N.Value true) fun i => includedValue names w key positional (value i) := by
  have hplace : ∀ {position}, position = w.subjectIndex ∨ position = w.valueIndex →
      𝓦.RelO (Same fun _ => True) fun _ => liftM (liftFault (argumentPlace? position positional.length)) := by
    intro position hposition
    refine 𝓦.liftedO fun p hp => ?_
    obtain ⟨f, hf, rfl⟩ := fault_of_error hp
    exact hw _ (.place hposition hf)
  unfold includedValue
  refine 𝓦.bindO (hplace (.inl rfl)) ?_
  rintro _ ⟨_⟩
  refine 𝓦.bindO (𝓦.liftedO fun p hp => ?_) ?_
  · obtain ⟨f, hf, rfl⟩ := fault_of_error hp
    exact hw _ (.sentence hf)
  rintro _ ⟨_⟩
  refine 𝓦.bindO (hplace (.inr rfl)) ?_
  rintro _ ⟨_⟩
  rename_i place _
  have hdone : ∀ (wrapped : Bool) {x : (i : ι) → OptionT (M i) Node} (text : String), 𝓦.RelO (N.Value wrapped) x →
      𝓦.RelO (N.Value true) fun i => x i >>= fun n => liftM (liftFault (included text n)) :=
    fun _ _ text hx => 𝓦.bindO hx fun v hv => 𝓦.liftO (N.included text hv)
  cases place with
  | some i => exact hdone true _ (hv i)
  | none =>
    dsimp only
    split
    · rename_i kind _ hkind
      refine hdone false _ (JointStock.same (fun n hn => N.made ⟨_, _, ok_of_mapError hn⟩) fun p hp => ?_)
      obtain ⟨rfl, rfl⟩ := union_of_error hp
      exact hw _ (.union hkind)
    · exact hdone false _ (JointStock.relation hn _ _)
    · exact hdone false _ (JointStock.byRules (byRules_namedNode names _) hn)

/-! ## Calls -/

theorem response_rel {content data : (i : ι) → Option (OptionT (M i) Node)} {first z : (i : ι) → OptionT (M i) Node}
    (hc : Given N content) (hd : Given N data) (hf : 𝓦.RelO (N.Value false) first)
    (hz : ∀ i, z i = (content i).getD ((data i).getD (first i))) : 𝓦.RelO (N.Value false) z := by
  obtain rfl : z = _ := funext hz
  rcases hc with hc | ⟨x, hc, hx⟩
  · rcases hd with hd | ⟨x, hd, hx⟩
    · simpa only [hc, hd, Option.getD_none] using hf
    · simpa only [hc, hd, Option.getD_none, Option.getD_some] using hx
  · simpa only [hc, Option.getD_some] using hx

theorem dictionaryCall_rel {start : (i : ι) → OptionT (M i) Node}
    {entries : (i : ι) → M i (List (String × Node))}
    (hstart : positional ≠ [] → 𝓦.RelO (fun v => N.Value false v ∧ N.Root v) start)
    (hentries : 𝓦.Rel (Entered N.Field) entries) :
    𝓦.RelO (N.Value false) fun i => dictionaryCall positional (start i) (entries i) := by
  have hrest : ∀ {v : ι → Entries Node}, Entered N.Property v → 𝓦.RelO (N.Value false) fun i => do
      let es ← (liftM (entries i) : OptionT (M i) _)
      return Node.objectOf (Entries.setAll (v i) es) :=
    fun hv => 𝓦.bindO (𝓦.liftO hentries) fun w hw => 𝓦.pureO (N.object (hv.setAll (hw.mono fun _ => N.property)))
  unfold dictionaryCall
  cases positional with
  | nil => exact 𝓦.bindO (𝓦.pureO .nil) fun v hv => hrest hv
  | cons e es =>
    refine 𝓦.bindO (𝓦.bindO (S := Entered N.Property) (hstart (List.cons_ne_nil e es)) fun v hv => ?_)
      fun v hv => hrest hv
    simp only [propertiesOf_eq]
    generalize hp : (fun i => properties? (v i)) = given
    have hgiven := hp ▸ N.properties hv.1 hv.2
    simp only [funext_iff] at hp
    simp only [hp]
    cases hgiven with
    | none => exact 𝓦.failureO
    | some h => exact 𝓦.pureO h

theorem sequence_operand {e : Expr} {es : List Expr} (h : sequenceCalls.contains callee = true) :
    Operand.value e ∈ callOperands callee (e :: es) := by
  have hdict : (callee == "dict") = false := by
    refine beq_false_of_ne ?_
    rintro rfl
    revert h
    decide
  simp only [callOperands, hdict, Bool.false_eq_true, if_false, h, if_true, List.mem_singleton]

variable {s : (i : ι) → Scope (M i)} {function : Expr}
  (hfirst : 𝓦.RelO (N.Value false) fun i => shapeOfFirst (s i) positional)

include hfirst in
theorem dictArgument_rel (hd : (callee == "dict") = true) (ho : ∀ o ∈ callOperands callee positional, Looked N s o)
    (hne : positional ≠ []) :
    𝓦.RelO (fun v => N.Value false v ∧ N.Root v) fun i => shapeOfFirst (s i) positional := by
  cases positional with
  | nil => exact absurd rfl hne
  | cons e es =>
    simp only [shapeOfFirst] at hfirst ⊢
    refine ho (.shape e) ?_ false none hfirst
    simp only [callOperands, hd, if_true, List.mem_singleton]

variable (hentries : 𝓦.Rel (Entered N.Field) fun i => keywordEntries (s i) keywords)
  (hresource : 𝓦.RelO (N.Value false) fun i => resourceOf (s i) function) (hT : ∀ i, (s i).tables = T)
  (ho : ∀ o ∈ callOperands function.text positional, Looked N s o)

include hfirst hentries hresource hT ho

theorem callShape_rel (hunder : ∀ key, Given N fun i => shapeUnder (s i) key keywords)
    (hmapped : 𝓦.RelO (N.Value false) fun i => mappedShape (s i) positional) :
    𝓦.RelO (N.Value false) fun i => shapeOf (s i) (.call text function positional keywords) := by
  simp only [shapeOf, hT]
  split
  · refine response_rel (hunder "content") (hunder "data") hfirst fun i => ?_
    cases shapeUnder (s i) "content" keywords with
    | some _ => rfl
    | none => cases shapeUnder (s i) "data" keywords <;> rfl
  · split
    · rename_i hd
      exact dictionaryCall_rel (dictArgument_rel hfirst hd ho) hentries
    · split
      · exact 𝓦.bindO hmapped fun v hv => 𝓦.pureO (N.array hv)
      · split
        · exact hfirst
        · exact hresource

theorem callValue_rel {binds : String → Bool} {key : Option String} (htables : ∀ p, T.Meets p → 𝓦.Meets p)
    (hplace : ∀ place, 𝓦.Rel (N.Value true) fun i => valueAt (s i) key place positional)
    (hmapped : 𝓦.RelO (N.Value true) fun i => mappedValue (s i) positional)
    (hsequence : 𝓦.RelO (Options (N.Value (sequenceCalls.contains function.text && wrapsFirst T binds positional)))
      fun i => sequenceValue (s i) key function.text positional) :
    𝓦.RelO (N.Value (wraps T binds (.call text function positional keywords))) fun i =>
      valueOf (s i) key (.call text function positional keywords) := by
  simp only [valueOf, wraps, hT]
  cases hown : T.ownWrapper? function.text with
  | some w =>
    have hw := mem_wrappers hown
    exact includedValue_rel (fun h => htables _ (.names h)) (fun p hp => htables p (.wrapper hw hp)) key positional
      fun place => 𝓦.liftO (hplace place)
  | none =>
    simp only [Option.isSome_none, Bool.false_or]
    split
    · exact 𝓦.bindO hmapped fun v hv => 𝓦.pureO (N.loose (N.array hv))
    · split
      · rename_i hd
        exact 𝓦.orElseO (𝓦.monoO (dictionaryCall_rel (dictArgument_rel hfirst hd ho) hentries) fun _ => N.loose)
          (𝓦.pureO (N.loose (N.made made_object)))
      · refine 𝓦.bindO hsequence fun v hv => ?_
        cases hv with
        | none =>
          exact 𝓦.orElseO (𝓦.monoO hresource fun _ => N.loose)
            (JointStock.byRules (byRules_calledNode _ _ _) fun h => htables _ (.names h))
        | some hv => exact 𝓦.pureO hv

end

/-! ## Scopes -/

namespace Scope

variable {m : Type → Type} [Monad m] (s : Scope m) (name : String)

/-- The shape of what a name is bound to. -/
def boundShape : OptionT m Node := (s.bound name).elim failure (·.shape ())

/-- The type of what a name is bound to. -/
def boundValue (key : Option String) : OptionT m Node := (s.bound name).elim failure (·.value key)

/-- The entries of what a name is bound to. -/
def boundEntries : m (List (String × Node)) := (s.bound name).elim (return []) (·.entries ())

end Scope

section

variable {m : Type → Type} [Monad m] [MonadLiftT Attempt m] (s : Scope m) (n : String)

theorem shapeOf_name : shapeOf s (.name n) = s.boundShape n := by
  rw [shapeOf, Scope.boundShape]
  cases s.bound n <;> rfl

theorem splatOf_name : splatOf s (.name n) = s.boundEntries n := by
  rw [splatOf, Scope.boundEntries]
  cases s.bound n <;> rfl

theorem valueOf_name [LawfulMonad m] (key : Option String) :
    valueOf s key (.name n) = (s.boundValue n key <|> do return (← namedNode s.tables.names [some n, key])) := by
  rw [valueOf, Scope.boundValue]
  cases s.bound n with
  | some b => rfl
  | none =>
    refine OptionT.ext ?_
    rw [OptionT.run_orElse, Option.elim_none, OptionT.run_failure, Option.elimM, pure_bind]
    rfl

end

section

variable {ι : Type} {M : ι → Type → Type} [∀ i, Monad (M i)] [∀ i, MonadLiftT Attempt (M i)]
  {𝓦 : Weave ι M} (N : JointStock 𝓦)

/-- What expressions are read with stays in a stock. -/
structure Scopes (T : Tables) (binds : String → Bool) (s : (i : ι) → Scope (M i)) : Prop where
  lawful : ∀ i, LawfulMonad (M i)
  tables : ∀ i, (s i).tables = T
  meets : ∀ p, T.Meets p → 𝓦.Meets p
  classNode : ∀ text, 𝓦.RelO (N.Value false) fun i => (s i).classNode text
  attributeNode : ∀ text, 𝓦.Rel (Options (N.Value false)) fun i => (s i).attributeNode text
  shape : ∀ name, 𝓦.RelO (N.Value false) fun i => (s i).boundShape name
  value : ∀ name key, 𝓦.RelO (N.Value (binds name)) fun i => (s i).boundValue name key
  entries : ∀ name, 𝓦.Rel (Entered N.Field) fun i => (s i).boundEntries name

variable {N} {T : Tables} {binds : String → Bool} {s : (i : ι) → Scope (M i)}

mutual

theorem shapeOf_rel (hs : Scopes N T binds s) : (e : Expr) → (∀ o ∈ operands e, Looked N s o) →
    𝓦.RelO (N.Value false) fun i => shapeOf (s i) e
  | .enclosed _ inner, ho | .awaited _ inner, ho => by
    simp only [shapeOf]
    exact shapeOf_rel hs inner ho
  | .tuple _ (e :: es), ho | .several _ (e :: es), ho => by
    simp only [shapeOf]
    exact shapeOf_rel hs e (List.forall_mem_append.1 ho).1
  | .dictionary _ entries, ho => by
    simp only [shapeOf]
    exact 𝓦.bindO (𝓦.liftO (entriesOf_rel hs entries ho)) fun v hv => 𝓦.pureO (N.objectOfFields hv)
  | .name n, _ => by
    simp only [shapeOf_name]
    exact hs.shape n
  | .comprehension _ body, ho => by
    simp only [shapeOf]
    exact 𝓦.bindO (shapeOf_rel hs body ho) fun v hv => 𝓦.pureO (N.array hv)
  | .list _ (e :: es), ho => by
    simp only [shapeOf]
    exact 𝓦.bindO (shapeOf_rel hs e (List.forall_mem_append.1 ho).1) fun v hv => 𝓦.pureO (N.array hv)
  | .call _ function positional keywords, ho =>
    have h := forall_operands_call.1 ho
    callShape_rel (shapeOfFirst_rel hs positional h.2.2.1) (keywordEntries_rel hs keywords h.2.2.2)
      (resourceOf_rel hs function h.2.1) hs.tables h.1 (fun key => shapeUnder_rel hs key keywords h.2.2.2)
      (mappedShape_rel hs positional h.2.2.1)
  | .string _ _, _ | .integer _, _ | .float _, _ | .truth _, _ | .nothing _, _ | .sign _ _, _ | .binary _ _ _ _, _
  | .list _ [], _ | .tuple _ [], _ | .set _ _, _ | .several _ [], _ | .dictionaryComprehension _, _
  | .conditional _ _ _ _, _ | .attribute _ _ _, _ | .subscript _ _, _ | .lambda _ _, _ | .other _, _ => by
    simp only [shapeOf]
    exact 𝓦.failureO

theorem shapeUnder_rel (hs : Scopes N T binds s) (key : String) : (ks : List (String × Expr)) →
    (∀ o ∈ operandsOfKeywords ks, Looked N s o) → Given N fun i => shapeUnder (s i) key ks
  | [], _ => .inl fun i => by simp only [shapeUnder]
  | (k, e) :: ks, ho => by
    obtain ⟨he, hks⟩ := List.forall_mem_append.1 ho
    simp only [shapeUnder]
    split
    · exact .inr ⟨_, fun i => rfl, shapeOf_rel hs e he⟩
    · exact shapeUnder_rel hs key ks hks

theorem shapeOfFirst_rel (hs : Scopes N T binds s) : (es : List Expr) → (∀ o ∈ operandsOfAll es, Looked N s o) →
    𝓦.RelO (N.Value false) fun i => shapeOfFirst (s i) es
  | [], _ => by
    simp only [shapeOfFirst]
    exact 𝓦.failureO
  | e :: es, ho => by
    simp only [shapeOfFirst]
    exact shapeOf_rel hs e (List.forall_mem_append.1 ho).1

theorem mappedShape_rel (hs : Scopes N T binds s) : (es : List Expr) → (∀ o ∈ operandsOfAll es, Looked N s o) →
    𝓦.RelO (N.Value false) fun i => mappedShape (s i) es
  | [], _ => by
    simp only [mappedShape]
    exact 𝓦.failureO
  | e :: es, ho => by
    cases e with
    | lambda t body =>
      simp only [mappedShape]
      exact shapeOf_rel hs body (List.forall_mem_append.1 ho).1
    | _ =>
      simp only [mappedShape]
      exact hs.classNode _

theorem resourceOf_rel (hs : Scopes N T binds s) : (e : Expr) → (∀ o ∈ operands e, Looked N s o) →
    𝓦.RelO (N.Value false) fun i => resourceOf (s i) e
  | .attribute text object _, ho => by
    simp only [resourceOf]
    split
    · exact 𝓦.bindO (hs.classNode _) fun v hv => 𝓦.pureO (N.array hv)
    · split
      · exact hs.classNode _
      · split
        · exact shapeOf_rel hs object ho
        · exact 𝓦.failureO
  | .name _, _ | .string _ _, _ | .integer _, _ | .float _, _ | .truth _, _ | .nothing _, _ | .sign _ _, _
  | .binary _ _ _ _, _ | .enclosed _ _, _ | .awaited _ _, _ | .list _ _, _ | .tuple _ _, _ | .set _ _, _
  | .several _ _, _ | .comprehension _ _, _ | .dictionary _ _, _ | .dictionaryComprehension _, _
  | .conditional _ _ _ _, _ | .subscript _ _, _ | .call _ _ _ _, _ | .lambda _ _, _ | .other _, _ => by
    simp only [resourceOf]
    exact hs.classNode _

theorem keywordEntries_rel (hs : Scopes N T binds s) : (ks : List (String × Expr)) →
    (∀ o ∈ operandsOfKeywords ks, Looked N s o) → 𝓦.Rel (Entered N.Field) fun i => keywordEntries (s i) ks
  | [], _ => by
    simp only [keywordEntries]
    exact 𝓦.pure .nil
  | (key, e) :: ks, ho => by
    obtain ⟨he, hks⟩ := List.forall_mem_append.1 ho
    simp only [keywordEntries]
    exact 𝓦.bind (valueOf_rel hs (some key) e he) fun v hv => 𝓦.bind (keywordEntries_rel hs ks hks) fun w hw =>
      𝓦.pure (.cons key (N.fieldOfOption hv) hw)

theorem entriesOf_rel (hs : Scopes N T binds s) : (es : List (EntryKey × Expr)) →
    (∀ o ∈ operandsOfEntries es, Looked N s o) → 𝓦.Rel (Entered N.Field) fun i => entriesOf (s i) es
  | [], _ => by
    simp only [entriesOf]
    exact 𝓦.pure .nil
  | (.named key, e) :: es, ho => by
    obtain ⟨he, hes⟩ := List.forall_mem_append.1 ho
    simp only [entriesOf]
    exact 𝓦.bind (valueOf_rel hs (some key) e he) fun v hv => 𝓦.bind (entriesOf_rel hs es hes) fun w hw =>
      𝓦.pure (.cons key (N.fieldOfOption hv) hw)
  | (.computed, e) :: es, ho => by
    simp only [entriesOf]
    exact entriesOf_rel hs es (List.forall_mem_append.1 ho).2
  | (.splat, e) :: es, ho => by
    obtain ⟨he, hes⟩ := List.forall_mem_append.1 ho
    simp only [entriesOf]
    exact 𝓦.bind (splatOf_rel hs e he) fun v hv => 𝓦.bind (entriesOf_rel hs es hes) fun w hw => 𝓦.pure (hv.append hw)

theorem splatOf_rel (hs : Scopes N T binds s) : (e : Expr) → (∀ o ∈ operands e, Looked N s o) →
    𝓦.Rel (Entered N.Field) fun i => splatOf (s i) e := by
  intro e ho
  have := hs.lawful
  cases e with
  | enclosed t inner =>
    simp only [splatOf]
    exact splatOf_rel hs inner ho
  | conditional t value condition fallback =>
    cases value with
    | dictionary t entries =>
      simp only [splatOf]
      exact includedFields_rel _ (entriesOf_rel hs entries ho)
    | _ =>
      simp only [splatOf]
      exact 𝓦.pure .nil
  | dictionary t entries =>
    simp only [splatOf]
    exact entriesOf_rel hs entries ho
  | name n =>
    simp only [splatOf_name]
    exact hs.entries n
  | call t function positional keywords =>
    have ⟨_, _, hp, _⟩ := forall_operands_call.1 ho
    simp only [splatOf, hs.tables]
    split
    · rename_i hget
      have hw := Entries.mem_values hget
      exact mergedFields_rel (fun p h => hs.meets p (.wrapper hw h)) _ fun place => fieldsAt_rel hs place positional hp
    · exact 𝓦.pure .nil
  | _ =>
    simp only [splatOf]
    exact 𝓦.pure .nil

theorem fieldsAt_rel (hs : Scopes N T binds s) : (n : Nat) → (es : List Expr) →
    (∀ o ∈ operandsOfAll es, Looked N s o) → 𝓦.Rel (Entered N.Field) fun i => fieldsAt (s i) n es
  | _, [], _ => by
    simp only [fieldsAt]
    exact 𝓦.pure .nil
  | n + 1, e :: es, ho => by
    simp only [fieldsAt]
    exact fieldsAt_rel hs n es (List.forall_mem_append.1 ho).2
  | 0, e :: es, ho => by
    obtain ⟨he, _⟩ := List.forall_mem_append.1 ho
    cases e with
    | dictionary t entries =>
      simp only [fieldsAt]
      exact entriesOf_rel hs entries he
    | lambda t body =>
      cases body with
      | dictionary t entries =>
        simp only [fieldsAt]
        exact entriesOf_rel hs entries he
      | _ =>
        simp only [fieldsAt]
        exact 𝓦.pure .nil
    | _ =>
      simp only [fieldsAt]
      exact 𝓦.pure .nil

/-- A value is included under a condition only if a wrapper says so. -/
theorem valueOf_rel (hs : Scopes N T binds s) (key : Option String) : (e : Expr) → (∀ o ∈ operands e, Looked N s o) →
    𝓦.RelO (N.Value (wraps T binds e)) fun i => valueOf (s i) key e
  | .enclosed _ inner, ho | .awaited _ inner, ho | .sign _ inner, ho => by
    simp only [valueOf, wraps]
    exact valueOf_rel hs key inner ho
  | .string _ _, _ | .integer _, _ | .float _, _ | .truth _, _ => by
    simp only [valueOf]
    exact 𝓦.pureO (N.scalar _ _)
  | .nothing _, _ => by
    simp only [valueOf]
    exact 𝓦.pureO (N.nullable (N.scalar .string none))
  | .dictionaryComprehension _, _ => by
    simp only [valueOf]
    exact 𝓦.pureO (N.loose (N.made made_object))
  | .binary _ operator left right, ho => by
    have hleft := valueOf_rel hs key left (List.forall_mem_cons.1 ho).2
    simp only [valueOf]
    split
    · exact 𝓦.pureO (N.scalar _ _)
    · split
      · exact 𝓦.pureO (N.scalar _ _)
      · exact 𝓦.bindO (𝓦.liftO (ho (.value left) List.mem_cons_self _ key hleft)) fun v hv =>
          𝓦.pureO (N.loose (N.arithmeticOfOption hv))
  | .dictionary _ entries, ho => by
    simp only [valueOf]
    exact 𝓦.bindO (𝓦.liftO (entriesOf_rel hs entries ho)) fun v hv => 𝓦.pureO (N.objectOfFields hv)
  | .list _ es, ho | .tuple _ es, ho | .set _ es, ho => by
    simp only [valueOf]
    exact 𝓦.bindO (valueOfFirst_rel hs es ho) fun v hv => 𝓦.pureO (N.loose (N.array hv))
  | .comprehension _ body, ho => by
    simp only [valueOf]
    exact 𝓦.bindO (valueOf_rel hs none body ho) fun v hv => 𝓦.pureO (N.loose (N.array hv))
  | .conditional _ value _ fallback, ho => by
    simp only [valueOf, wraps]
    refine 𝓦.bindO (valueOf_rel hs key value ho) fun v hv => ?_
    split
    · exact 𝓦.pureO (N.nullable hv)
    · exact 𝓦.pureO hv
  | .attribute text _ member, _ => by
    simp only [valueOf, hs.tables]
    refine 𝓦.bindO (𝓦.liftO (N.named (byRules_namedNode _ _) fun h => hs.meets _ (.names h))) ?_
    rintro _ ⟨hnamed⟩
    refine 𝓦.bindO (𝓦.liftO (hs.attributeNode text)) fun v hv => ?_
    cases hv with
    | none => exact 𝓦.pureO (N.loose hnamed)
    | some hv => exact 𝓦.pureO (N.loose (N.declared hv hnamed))
  | .subscript _ _, _ => by
    simp only [valueOf, hs.tables]
    exact N.byRules (byRules_namedNode _ _) fun h => hs.meets _ (.names h)
  | .name n, _ => by
    have := hs.lawful
    simp only [valueOf_name, wraps, hs.tables]
    exact 𝓦.orElseO (hs.value n key) (N.byRules (byRules_namedNode _ _) fun h => hs.meets _ (.names h))
  | .call _ function positional keywords, ho =>
    have h := forall_operands_call.1 ho
    callValue_rel (shapeOfFirst_rel hs positional h.2.2.1) (keywordEntries_rel hs keywords h.2.2.2)
      (resourceOf_rel hs function h.2.1) hs.tables h.1 hs.meets
      (fun place => valueAt_rel hs key place positional h.2.2.1) (mappedValue_rel hs positional h.2.2.1)
      (sequenceValue_rel hs key function.text positional h.1 h.2.2.1)
  | .several _ _, _ | .lambda _ _, _ | .other _, _ => by
    simp only [valueOf]
    exact 𝓦.failureO

theorem valueOfFirst_rel (hs : Scopes N T binds s) : (es : List Expr) → (∀ o ∈ operandsOfAll es, Looked N s o) →
    𝓦.RelO (N.Value true) fun i => valueOfFirst (s i) es
  | [], _ => by
    simp only [valueOfFirst]
    exact 𝓦.pureO (N.scalar _ _)
  | e :: es, ho => by
    simp only [valueOfFirst]
    exact 𝓦.monoO (valueOf_rel hs none e (List.forall_mem_append.1 ho).1) fun _ => N.wide

theorem mappedValue_rel (hs : Scopes N T binds s) : (es : List Expr) → (∀ o ∈ operandsOfAll es, Looked N s o) →
    𝓦.RelO (N.Value true) fun i => mappedValue (s i) es
  | [], _ => by
    simp only [mappedValue]
    exact 𝓦.pureO (N.scalar _ _)
  | e :: es, ho => by
    cases e with
    | lambda t body =>
      simp only [mappedValue]
      exact 𝓦.monoO (valueOf_rel hs none body (List.forall_mem_append.1 ho).1) fun _ => N.wide
    | _ =>
      simp only [mappedValue]
      exact 𝓦.orElseO (𝓦.monoO (hs.classNode _) fun _ => N.loose) (𝓦.pureO (N.scalar _ _))

theorem sequenceValue_rel (hs : Scopes N T binds s) (key : Option String) (callee : String) : (es : List Expr) →
    (∀ o ∈ callOperands callee es, Looked N s o) → (∀ o ∈ operandsOfAll es, Looked N s o) →
    𝓦.RelO (Options (N.Value (sequenceCalls.contains callee && wrapsFirst T binds es))) fun i =>
      sequenceValue (s i) key callee es
  | [], _, _ => by
    simp only [sequenceValue]
    exact 𝓦.pureO .none
  | e :: es, hc, ho => by
    have he := valueOf_rel hs key e (List.forall_mem_append.1 ho).1
    simp only [sequenceValue]
    split
    · rename_i hcall
      have hsequence := ((Bool.and_eq_true _ _).mp hcall).1
      rw [hsequence, Bool.true_and, wrapsFirst]
      exact 𝓦.bindO (hc (.value e) (sequence_operand hsequence) _ key he) fun v hv => 𝓦.pureO (N.arrays hv.1 hv.2)
    · exact 𝓦.pureO .none

theorem valueAt_rel (hs : Scopes N T binds s) (key : Option String) : (n : Nat) → (es : List Expr) →
    (∀ o ∈ operandsOfAll es, Looked N s o) → 𝓦.Rel (N.Value true) fun i => valueAt (s i) key n es
  | _, [], _ => by
    simp only [valueAt]
    exact 𝓦.pure (N.scalar _ _)
  | n + 1, e :: es, ho => by
    simp only [valueAt]
    exact valueAt_rel hs key n es (List.forall_mem_append.1 ho).2
  | 0, e :: es, ho => by
    obtain ⟨he, _⟩ := List.forall_mem_append.1 ho
    have hvalue := valueOf_rel hs key e he
    cases e with
    | lambda t body =>
      simp only [valueAt]
      exact 𝓦.bind (valueOf_rel hs key body he) fun v hv => 𝓦.pure (N.orString hv)
    | _ =>
      simp only [valueAt]
      exact 𝓦.bind hvalue fun v hv => 𝓦.pure (N.orString hv)

end

theorem firstShape_rel (hs : Scopes N T binds s) : (es : List Expr) → (∀ o ∈ operandsOfAll es, Looked N s o) →
    𝓦.Rel (Options (N.Value false)) fun i => firstShape (s i) es
  | [], _ => 𝓦.pure .none
  | e :: es, ho => by
    refine 𝓦.bind (shapeOf_rel hs e (List.forall_mem_append.1 ho).1) fun v hv => ?_
    cases hv with
    | none => exact firstShape_rel hs es (List.forall_mem_append.1 ho).2
    | some hv => exact 𝓦.pure (.some hv)

end

/-! ## Local names -/

/-- A body with what its names are read with. -/
def bodyOf {m : Type → Type} (T : Tables) (r : Resolvers m) (body : Source.Tree) : Body m :=
  ⟨T, r, bindingsOf body, updatesIn body⟩

/-- The scope while some names are looked through. -/
def scopeAt {m : Type → Type} [Monad m] [MonadLiftT Attempt m] (T : Tables) (r : Resolvers m) (body : Source.Tree)
    (n : Nat) (expanding : List String) : Scope m :=
  ⟨T, r, (bodyOf T r body).binding? n expanding⟩

section

variable {ι : Type} {M : ι → Type → Type} [∀ i, Monad (M i)] [∀ i, LawfulMonad (M i)] [∀ i, MonadLiftT Attempt (M i)]
  {𝓦 : Weave ι M} (N : JointStock 𝓦)

/-- A name is bound to related things in all runs, or to nothing. -/
def Bound (b : (i : ι) → Option (Binding (M i))) : Prop :=
  (∀ i, b i = none) ∨ ∃ β : (i : ι) → Binding (M i), (∀ i, b i = some (β i)) ∧
    𝓦.RelO (N.Value false) (fun i => (β i).shape ()) ∧ (∀ key, 𝓦.RelO (N.Value true) fun i => (β i).value key) ∧
      𝓦.Rel (Entered N.Field) fun i => (β i).entries ()

variable {N} {T : Tables} {r : (i : ι) → Resolvers (M i)}

theorem Scopes.of_bound {s : (i : ι) → Scope (M i)} (hT : ∀ i, (s i).tables = T)
    (htables : ∀ p, T.Meets p → 𝓦.Meets p)
    (hclass : ∀ text, 𝓦.RelO (N.Value false) fun i => (s i).classNode text)
    (hattribute : ∀ text, 𝓦.Rel (Options (N.Value false)) fun i => (s i).attributeNode text)
    (hbound : ∀ name, Bound N fun i => (s i).bound name) : Scopes N T (fun _ => true) s := by
  refine ⟨inferInstance, hT, htables, hclass, hattribute, fun name => ?_, fun name key => ?_, fun name => ?_⟩
  · unfold Scope.boundShape
    rcases hbound name with h | ⟨β, h, hshape, _, _⟩
    · simp only [h]
      exact 𝓦.failureO
    · simp only [h]
      exact hshape
  · unfold Scope.boundValue
    rcases hbound name with h | ⟨β, h, _, hvalue, _⟩
    · simp only [h]
      exact 𝓦.failureO
    · simp only [h]
      exact hvalue key
  · unfold Scope.boundEntries
    rcases hbound name with h | ⟨β, h, _, _, hentries⟩
    · simp only [h]
      exact 𝓦.pure .nil
    · simp only [h]
      exact hentries

variable (htables : ∀ p, T.Meets p → 𝓦.Meets p)
  (hclass : ∀ text, 𝓦.RelO (N.Value false) fun i => Scope.classNode ⟨T, r i, fun _ => none⟩ text)
  (hattribute : ∀ text, 𝓦.Rel (Options (N.Value false)) fun i => Scope.attributeNode ⟨T, r i, fun _ => none⟩ text)
  {body : Source.Tree} (ho : ∀ o ∈ bodyOperands body, ∀ n names, Looked N (fun i => scopeAt T (r i) body n names) o)

include htables hclass hattribute ho

theorem scopes_rel (n : Nat) (names : List String) :
    Scopes N T (fun _ => true) fun i => scopeAt T (r i) body n names := by
  refine .of_bound (fun _ => rfl) htables hclass hattribute fun name => ?_
  induction n generalizing names name with
  | zero => exact .inl fun i => rfl
  | succ n ih =>
    have inner : Scopes N T (fun _ => true) fun i => scopeAt T (r i) body n (name :: names) :=
      .of_bound (fun _ => rfl) htables hclass hattribute (ih (name :: names))
    have hbound := List.forall_mem_append.1 (List.forall_mem_append.1 ho).2
    change Bound N fun i => (bodyOf T (r i) body).binding? (n + 1) names name
    by_cases hex : names.contains name = true
    · refine .inl fun i => ?_
      change (bodyOf T (r i) body).binding? (n + 1) names name = none
      rw [Body.binding?, if_pos hex]
    · simp only [Body.binding?, if_neg hex]
      change Bound N fun i => Option.map _ ((bindingsOf body).get? name)
      cases he : (bindingsOf body).get? name with
      | none => exact .inl fun i => rfl
      | some e =>
        have hsound : ∀ o ∈ operands e, Looked N (fun i => scopeAt T (r i) body n (name :: names)) o :=
          fun o h => hbound.1 o (mem_operandsOfAll (Entries.mem_values he) h) n (name :: names)
        have hshape := shapeOf_rel inner e hsound
        have hvalue := fun key => 𝓦.monoO (valueOf_rel inner key e hsound) fun _ => N.wide
        cases e with
        | dictionary t entries =>
          refine .inr ⟨fun i => _, fun i => rfl, ?_⟩
          have hobject :=
            entriesOf_rel inner (entries ++ ((updatesIn body).filter (·.holder == name)).flatMap (·.entries))
            fun o h => by
              obtain ⟨d, hd, hod⟩ := mem_operandsOfEntries.1 h
              rcases List.mem_append.1 hd with hd | hd
              · exact hsound o (mem_operandsOfEntries.2 ⟨d, hd, hod⟩)
              · obtain ⟨u, hu, hdu⟩ := List.mem_flatMap.1 hd
                refine hbound.2 o (mem_operandsOfEntries.2 ⟨d, ?_, hod⟩) _ _
                exact List.mem_flatMap.2 ⟨u, (List.mem_filter.1 hu).1, hdu⟩
          have hmade : ∀ w, 𝓦.Rel (N.Value w) fun i => do
              return Node.objectOf (Entries.ofPairs (← entriesOf (scopeAt T (r i) body n (name :: names)) _)) :=
            fun w => 𝓦.bind hobject fun v hv => 𝓦.pure (N.objectOfFields hv)
          exact ⟨𝓦.liftO (hmade false), fun _ => 𝓦.liftO (hmade true), entriesOf_rel inner entries hsound⟩
        | _ =>
          have hnamed := fun key : Option String => hvalue (key.filter (!·.isEmpty) <|> some name)
          exact .inr ⟨fun i => _, fun i => rfl, hshape, hnamed, 𝓦.pure .nil⟩

/-- The shape of a body stays in a stock. -/
theorem shapeIn_rel : 𝓦.Rel (Options (N.Value false)) fun i => shapeIn T (r i) body :=
  firstShape_rel (s := fun i => scopeAt T (r i) body (bindingsOf body).length [])
    (scopes_rel htables hclass hattribute ho _ []) _ fun o h => (List.forall_mem_append.1 ho).1 o h _ _

end

end ApiSchema.Shape
