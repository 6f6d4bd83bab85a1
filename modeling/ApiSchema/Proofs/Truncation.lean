import ApiSchema.Proofs.Plain

/-!
# Truncation is visible

A class that is expanded already, or that is nested too deep, leaves a placeholder in the schema. So a schema
without a placeholder should be the one of the class itself, and that is why such schemas are kept.

It is, as far as no operand in the bodies of the library is a class: over plain bodies, the schema of a class inside
other classes has a placeholder, or it is the schema of the class that stands for itself
(`unmarked_eq_outermost`). A body with a class as an operand can lose the mark (`unmarked_ne_outermost`).
-/
namespace ApiSchema

open Source Infer

variable {ι : Type} {l : Located} {k : Nat} {guard : List String}

/-! ## Runs that keep nothing -/

/-- Runs over one library that keep no schema. -/
def uncached (r : Library) (sink solo : ι → Prop) : Lockstep ι where
  base := r
  inv _ l := Alike r l ∧ l.cache.enabled = false
  sink := sink
  solo := solo
  gone _ _ := False
  inv_learned h hl := ⟨h.1.learned hl, hl.enabled.trans h.2⟩
  gone_learned h _ := h
  alone hx _ h ha := (hx.alike h.1).symm.trans ha
  agree hx hinv := .inr fun i => hx.alike (hinv i).1

namespace Lockstep

variable {𝓛 : Lockstep ι} {t : Infer.Tables} {s : Settings}

theorem keptSchema_off (key : String) {l : Library} (h : l.cache.enabled = false) :
    result (keptSchema key) l = .ok none ∧ after (keptSchema key) l = l := by
  have hget : l.cache.getSchema key = (none, l.cache) := by
    unfold Cache.getSchema
    rw [h]
    rfl
  constructor
  · change Except.ok (l.cache.getSchema key).1 = _
    rw [hget]
  · change { l with cache := (l.cache.getSchema key).2 } = l
    rw [hget]

theorem keepSchema_off (key : String) (n : Node) {l : Library} (h : l.cache.enabled = false) :
    result (keepSchema key n) l = .ok n ∧ after (keepSchema key n) l = l := by
  have hput : l.cache.putSchema key n = l.cache := by
    unfold Cache.putSchema
    rw [h]
    rfl
  unfold keepSchema
  split
  · refine ⟨rfl, ?_⟩
    change { l with cache := l.cache.putSchema key n } = l
    rw [hput]
  · exact ⟨rfl, rfl⟩

theorem Rel.expanded_off (hoff : ∀ i l, 𝓛.inv i l → l.cache.enabled = false) {R : (ι → Node) → Prop}
    {cb : ι → ClassSchema Inference} {direction : Direction}
    (h : 𝓛.Rel R fun i => composedSchema t s (cb i) l direction) :
    𝓛.Rel R fun i => expandedSchema t s (cb i) l direction := by
  have hsolo : ∀ {α : Type} {x : Inference α} {a : α} {i l}, 𝓛.inv i l → result x l = .ok a ∧ after x l = l →
      𝓛.Solo i (· = a) x l ∧ ∃ a, result x l = .ok a := by
    rintro α x a i l hl ⟨hr, ha⟩
    exact ⟨⟨ha.symm ▸ hl, fun hg => ha.symm ▸ hg, fun b hb => Except.ok.inj (hb.symm.trans hr)⟩, a, hr⟩
  refine Rel.bind (R := Same (· = none)) (.given (v := fun _ => none) (.intro rfl) fun i l hl => ?_) ?_
  · exact hsolo hl (keptSchema_off _ (hoff i l hl))
  · rintro _ ⟨rfl⟩
    exact h.bind fun w hw => .given hw fun i l hl => hsolo hl (keepSchema_off _ (w i) (hoff i l hl))

end Lockstep

/-! ## Schemas inside other classes -/

section

variable {t : Infer.Tables} {s : Settings} {r : Library} {direction : Direction}
  (hplain : direction = .output → ∀ l, Found r l → PlainClass t s r l)

include hplain

/-- An expansion that keeps nothing, from related schemas of other classes. -/
theorem uncached_expanded {sink solo : ι → Prop} (hsink : ∃ i, sink i) {L : (ι → Node) → Prop} (hL : Steady L)
    {cb : ι → ClassSchema Inference} (hfirm : ∀ i d direction, Firm (cb i d direction)) (hl : Found r l)
    (hcb : ∀ d, Found r d → (uncached r sink solo).Rel (Shaped L) fun i => cb i d direction) :
    (uncached r sink solo).Rel (Shaped L) fun i => expandedSchema t s (cb i) l direction := by
  have hcomposed := Lockstep.composed_rel (𝓛 := uncached r sink solo) hL hfirm hsink (fun hd => hplain hd l hl) hcb
  have hoff : ∀ i l, (uncached r sink solo).inv i l → l.cache.enabled = false := fun _ _ h => h.2
  exact (hcomposed.mono fun v hv => hv.1).expanded_off hoff

omit hplain in
theorem classSchema_guarded (k : Nat) (h : l.cls.qualifiedName ∈ guard) :
    classSchema t s k guard l direction = return Node.circular l.cls.qualifiedName := by
  unfold classSchema
  exact if_pos (List.contains_iff_mem.2 h)

omit hplain in
theorem classSchema_zero (h : l.cls.qualifiedName ∉ guard) :
    classSchema t s 0 guard l direction = return Node.depthLimited l.cls.qualifiedName := by
  unfold classSchema
  exact if_neg fun hc => h (List.contains_iff_mem.1 hc)

omit hplain in
theorem classSchema_pos (hk : 0 < k) (h : l.cls.qualifiedName ∉ guard) :
    classSchema t s k guard l direction =
      expandedSchema t s (classSchema t s (k - 1) (l.cls.qualifiedName :: guard)) l direction := by
  obtain ⟨k, rfl⟩ : ∃ j, k = j + 1 := ⟨k - 1, by omega⟩
  rw [classSchema]
  exact if_neg fun hc => h (List.contains_iff_mem.1 hc)

omit hplain in
/-- A class is not expanded, or it is. -/
theorem classSchema_cases (t : Infer.Tables) (s : Settings) (k : Nat) (guard : List String) (d : Located)
    (direction : Direction) :
    (∃ n, classSchema t s k guard d direction = pure n ∧ Marked n ∧ n.Worded) ∨
      ∃ j, k = j + 1 ∧ classSchema t s k guard d direction =
        expandedSchema t s (classSchema t s j (d.cls.qualifiedName :: guard)) d direction := by
  by_cases hg : d.cls.qualifiedName ∈ guard
  · exact .inl ⟨_, classSchema_guarded k hg, marked_circular _, worded_circular _⟩
  · cases k with
    | zero => exact .inl ⟨_, classSchema_zero hg, marked_depthLimited _, worded_depthLimited _⟩
    | succ j => exact .inr ⟨j, rfl, classSchema_pos j.succ_pos hg⟩

omit hplain in
/-- What holds of placeholders, and of an expansion if it holds of the classes in it, holds of every class. -/
theorem classSchema_induct {P : Located → Inference Node → Prop} (hpure : ∀ d n, n.Worded → P d (pure n))
    (hexpanded : ∀ k guard, (∀ d, P d (classSchema t s k guard d direction)) →
      ∀ d, P d (expandedSchema t s (classSchema t s k guard) d direction)) (k : Nat) (guard : List String)
    (d : Located) : P d (classSchema t s k guard d direction) := by
  induction k generalizing guard d with
  | zero =>
    rcases classSchema_cases t s 0 guard d direction with ⟨n, hn, -, hw⟩ | ⟨j, hj, -⟩
    · exact hn ▸ hpure d n hw
    · cases hj
  | succ k ih =>
    rcases classSchema_cases t s (k + 1) guard d direction with ⟨n, hn, -, hw⟩ | ⟨j, hj, hn⟩
    · exact hn ▸ hpure d n hw
    · cases hj
      exact hn ▸ hexpanded k _ (fun d => ih _ d) d

omit hplain in
variable (t s direction) in
theorem classSchema_alone (k : Nat) (guard : List String) (l : Located) :
    (uncached (ι := Unit) r (fun _ => True) fun _ => True).Rel (Shaped fun _ => True) fun _ =>
      classSchema t s k guard l direction := by
  have hoff : ∀ i l, (uncached (ι := Unit) r (fun _ => True) fun _ => True).inv i l → l.cache.enabled = false :=
    fun _ _ h => h.2
  refine classSchema_induct (P := fun _ x => Lockstep.Rel (uncached r (fun _ => True) fun _ => True)
    (Shaped fun _ => True) fun _ : Unit => x) (fun _ _ hw => .pure (.const hw)) (fun k guard ih d => ?_) k guard l
  exact (Lockstep.composed_alone (fun d _ => ih d) d).expanded_off hoff

omit hplain in
/-- A placeholder in run `false` stands for any schema of run `true`. -/
theorem truncated_of_cut {x : Bool → Inference Node} {n : Node} (hx : x false = return n) (hn : n.Cut) (hw : n.Worded)
    (hx' : x true = classSchema t s k guard l direction) :
    (uncached r (· = true) fun _ => False).Rel (Shaped fun ns => (ns false).Cut ∨ ns false = ns true) x where
  solo _ _ h := h.elim
  joint states hinv := by
    have halone := (classSchema_alone t s direction k guard l).solo () (states true) trivial (hinv true)
    cases h : result (classSchema t s k guard l direction) (states true) with
    | error p =>
      refine .inl (.inl ⟨true, rfl, p, ?_, Firm.classSchema t s k guard l direction _ p h⟩)
      rw [hx', h]
    | ok a =>
      obtain ⟨v, hv, hva⟩ := halone.value a h
      refine .inr ⟨?_, .inl ⟨fun b => cond b a n, ⟨.leaf (.inl hn), ?_⟩, ?_⟩⟩
      · rintro (_ | _)
        · rw [hx]
          exact hinv false
        · rw [hx']
          exact halone.inv
      · rintro (_ | _)
        · exact hw
        · exact hva ▸ hv.worded ()
      · rintro (_ | _)
        · rw [hx]
          rfl
        · rw [hx']
          exact h

/-- Run `false` may nest fewer classes than run `true`, and has more classes under expansion: it has a
placeholder where the schemas differ. -/
theorem classSchema_truncated (k : Bool → Nat) (guard : Bool → List String) (hk : k false ≤ k true)
    (hg : guard true ⊆ guard false) (hl : Found r l) :
    (uncached r (· = true) fun _ => False).Rel (Shaped fun ns => (ns false).Cut ∨ ns false = ns true) fun b =>
      classSchema t s (k b) (guard b) l direction := by
  induction hn : k false generalizing k guard l with
  | zero =>
    by_cases hname : l.cls.qualifiedName ∈ guard false
    · exact truncated_of_cut (classSchema_guarded _ hname) (Node.cut_circular _) (worded_circular _) rfl
    · have hzero : classSchema t s (k false) (guard false) l direction =
          return Node.depthLimited l.cls.qualifiedName := by
        rw [hn]
        exact classSchema_zero hname
      exact truncated_of_cut hzero (Node.cut_depthLimited _) (worded_depthLimited _) rfl
  | succ n ih =>
    by_cases hname : l.cls.qualifiedName ∈ guard false
    · exact truncated_of_cut (classSchema_guarded _ hname) (Node.cut_circular _) (worded_circular _) rfl
    · have hsucc : (fun b => classSchema t s (k b) (guard b) l direction) = fun b =>
          expandedSchema t s (classSchema t s (k b - 1) (l.cls.qualifiedName :: guard b)) l direction := by
        funext b
        cases b
        · exact classSchema_pos (by omega) hname
        · exact classSchema_pos (by omega) fun h => hname (hg h)
      rw [hsucc]
      have hL : Congruent fun ns : Bool → Node => (ns false).Cut ∨ ns false = ns true :=
        (Congruent.eq false true).orCut false
      have hsink : ∃ b, b = true := ⟨true, rfl⟩
      have hfirm : ∀ b d dir, Firm (classSchema t s (k b - 1) (l.cls.qualifiedName :: guard b) d dir) :=
        fun b d dir => .classSchema t s _ _ d dir
      exact uncached_expanded hplain hsink hL.steady hfirm hl fun d hd =>
        ih (fun b => k b - 1) (fun b => l.cls.qualifiedName :: guard b) (by omega) (List.cons_subset_cons _ hg) hd
          (by omega)

end

/-- Over plain bodies, a schema without a placeholder does not depend on where it was asked for: the class by itself has
the same schema, unless its expansion ends in a problem that no handler takes. What is accepted needs no plain
bodies, since no body is read for it. -/
theorem unmarked_eq_outermost (t : Infer.Tables) (s : Settings) (r : Library) (direction : Direction)
    (hoff : r.cache.enabled = false) (hplain : direction = .output → ∀ l, Found r l → PlainClass t s r l)
    (l : Located) (hl : Found r l) (depth : Nat) (guard : List String) (n : Node)
    (hn : result (classSchema t s (s.maxDepth.toNat - depth) guard l direction) r = .ok n)
    (hmark : n.hasPlaceholder = false) :
    result (outermost t s l direction) r = .ok n ∨ Fatal (result (outermost t s l direction) r) := by
  have hruns := classSchema_truncated (t := t) (s := s) hplain (fun b => s.maxDepth.toNat - cond b 0 depth)
    (fun b => cond b [] guard) (by simp) (List.nil_subset _) hl
  have hL : Congruent fun ns : Bool → Node => (ns false).Cut ∨ ns false = ns true :=
    (Congruent.eq false true).orCut false
  rcases hruns.joint (fun _ => r) fun _ => ⟨.refl r, hoff⟩ with (⟨b, rfl, hfatal⟩ | ⟨_, h, _⟩) | hj
  · exact .inr hfatal
  · exact h.elim
  · rcases hj.value with ⟨v, hv, hr⟩ | ⟨p, hp⟩
    · have hfalse : n = v false := Except.ok.inj (hn.symm.trans (hr false))
      rcases hv.grown.collapse (L := fun ns : Bool → Node => (ns false).Cut ∨ ns false = ns true) hL.toFormed
        fun _ h => h with hcut | heq
      · rw [← hfalse] at hcut
        exact absurd hcut.hasPlaceholder (by rw [hmark]; exact Bool.false_ne_true)
      · left
        rw [hfalse, heq]
        exact hr true
    · exact absurd (hn.symm.trans (hp false)) nofun

/-! ## Three modules -/

/-- A class of the module `m` with annotated fields. -/
def recordOf (name : String) (fields : List (String × String)) (methods : Entries Function := []) : Source.Class where
  name := name
  qualifiedName := "m." ++ name
  bases := []
  lineStart := 1
  lineEnd := 1
  fields := fields.map fun f => { name := f.1, typeText := f.2, line := 1 }
  methods := methods

/-- The module `m` with some classes. -/
def moduleOf (classes : List Source.Class) : Source.Module where
  name := "m"
  classes := classes.map fun c => (c.name, c)

/-- The library of one module. -/
def libraryOf (m : Source.Module) (enabled : Bool) : Library where
  texts := [(m.name, .ok m)]
  cache := { enabled }

/-- The class `A` has a `B`, which has a `C`. -/
def nested : Source.Module :=
  moduleOf [recordOf "A" [("b", "B")], recordOf "B" [("c", "C")], recordOf "C" [("x", "int")]]

def piece (form : Form) (role : Option Role) (text : String) (children : List Source.Tree) : Source.Tree :=
  .node form role ⟨0, 0, 1, 1⟩ text children

/-- A call with one argument. -/
def callOf (role : Option Role) (name text : String) (argument : Source.Tree) : Source.Tree :=
  piece .call role text
    [piece .identifier (some .function) name [], piece .argumentList (some .arguments) "" [argument]]

/-- A class that is made of the own object. -/
def madeOfSelf (role : Option Role) (name : String) : Source.Tree :=
  callOf role name (name ++ "(self)") (piece .identifier none "self" [])

/-- An entry of a dictionary. -/
def pairOf (key : String) (value : Source.Tree) : Source.Tree :=
  piece .pair none "" [piece .string (some .key) key [], value]

/-- The class `B`, with a method that returns a value. -/
def returning (value : Source.Tree) : Source.Class :=
  recordOf "B" [] [("to_dict", {
    name := "to_dict"
    qualifiedName := "m.B.to_dict"
    parameters := [{ name := "self" }]
    body := some (piece .block (some .body) "" [piece .returnStatement none "" [value]])
    lineStart := 1
    lineEnd := 1 })]

/-- An object is turned into `dict(C(self))`. -/
def unpacking : Source.Class := returning (callOf none "dict" "dict(C(self))" (madeOfSelf none "C"))

/-- An object is turned into `{'a': C(self), 'a': 1}`. -/
def replacing : Source.Class :=
  returning (piece .dictionary none ""
    [pairOf "'a'" (madeOfSelf (some .value) "C"), pairOf "'a'" (piece .integer (some .value) "1" [])])

/-- The class `A` has a `B`, whose objects are turned into the fields of a `C`. -/
def unpacked : Source.Module := moduleOf [recordOf "A" [("b", "B")], unpacking, recordOf "C" [("x", "int")]]

/-- The class `A` has a `B`, which is made of a `C` and replaces it. -/
def replaced : Source.Module := moduleOf [recordOf "A" [("b", "B")], replacing, recordOf "C" [("x", "n.D")]]

/-- A `D` is in a module that cannot be loaded. -/
def faulty : Library where
  texts := [("m", .ok replaced), ("n", .error (.fault .mismatch))]
  cache := { enabled := false }

/-- The number of properties of a schema without a placeholder. -/
def unmarkedWidth (x : Attempt Node) : Option Nat :=
  x.toOption.bind fun n => if n.hasPlaceholder then none else some n.properties.length

theorem unmarkedWidth_eq_some {x : Attempt Node} (h : unmarkedWidth x = some k) :
    ∃ n, x = .ok n ∧ n.hasPlaceholder = false ∧ n.properties.length = k := by
  cases x with
  | error p => cases h
  | ok n =>
    refine ⟨n, rfl, ?_⟩
    change (if n.hasPlaceholder then none else some n.properties.length) = some k at h
    split at h
    · cases h
    · exact ⟨Bool.eq_false_iff.2 ‹_›, Option.some.inj h⟩

/-- The class `B` in an `A`, nested deep enough to leave no placeholder. -/
theorem nested_unmarked_eq_outermost :
    let r := libraryOf nested false
    let s : Settings := { maxDepth := 3 }
    let l : Located := ⟨nested, recordOf "B" [("c", "C")]⟩
    ∃ n, result (classSchema {} s (s.maxDepth.toNat - 1) ["m.A"] l .output) r = .ok n ∧ n.hasPlaceholder = false ∧
      (result (outermost {} s l .output) r = .ok n ∨ Fatal (result (outermost {} s l .output) r)) := by
  intro r s l
  have hwidth : unmarkedWidth (result (classSchema {} s (s.maxDepth.toNat - 1) ["m.A"] l .output) r) = some 1 := by
    decide +kernel
  have hr : Operandless r := by decide +kernel
  have hl : Found r l := ⟨"m", "B", rfl, rfl⟩
  obtain ⟨n, hn, hmark, -⟩ := unmarkedWidth_eq_some hwidth
  exact ⟨n, hn, hmark, unmarked_eq_outermost {} s r .output rfl (fun _ _ h => plainClass_of_operandless hr h) l hl 1
    ["m.A"] n hn hmark⟩

/-- The call `dict(C(self))` takes the schema of `C` apart. Inside `A` that is a placeholder, and no mark is left of
it. A schema of `C` that is replaced leaves no mark either; by itself, `B` has no schema when `C` has none. -/
theorem unmarked_ne_outermost :
    let s : Settings := { maxDepth := 2 }
    (∃ n n', result (classSchema {} s (s.maxDepth.toNat - 1) ["m.A"] ⟨unpacked, unpacking⟩ .output)
        (libraryOf unpacked false) = .ok n ∧ n.hasPlaceholder = false ∧
      result (outermost {} s ⟨unpacked, unpacking⟩ .output) (libraryOf unpacked false) = .ok n' ∧ n' ≠ n) ∧
    ∃ n, result (classSchema {} s (s.maxDepth.toNat - 1) ["m.A"] ⟨replaced, replacing⟩ .output) faulty = .ok n ∧
      n.hasPlaceholder = false ∧ Fatal (result (outermost {} s ⟨replaced, replacing⟩ .output) faulty) := by
  intro s
  have hinside : unmarkedWidth (result (classSchema {} s (s.maxDepth.toNat - 1) ["m.A"] ⟨unpacked, unpacking⟩ .output)
      (libraryOf unpacked false)) = some 0 := by decide +kernel
  have houtside : unmarkedWidth (result (outermost {} s ⟨unpacked, unpacking⟩ .output) (libraryOf unpacked false)) =
      some 1 := by decide +kernel
  have hreplaced : unmarkedWidth (result (classSchema {} s (s.maxDepth.toNat - 1) ["m.A"] ⟨replaced, replacing⟩ .output)
      faulty) = some 1 := by decide +kernel
  obtain ⟨n, hn, hmark, hwidth⟩ := unmarkedWidth_eq_some hinside
  obtain ⟨n', hn', -, hwidth'⟩ := unmarkedWidth_eq_some houtside
  obtain ⟨k, hk, hmark', -⟩ := unmarkedWidth_eq_some hreplaced
  refine ⟨⟨n, n', hn, hmark, hn', ?_⟩, k, hk, hmark', by decide +kernel⟩
  rintro rfl
  omega

end ApiSchema
