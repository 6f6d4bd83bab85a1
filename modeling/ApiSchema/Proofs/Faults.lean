import ApiSchema.Proofs.Requests
import ApiSchema.Proofs.Firm
import ApiSchema.Proofs.Sentences

/-!
# Where problems come from

A problem that no handler takes has a cause in the sources (`Blame`): a module that cannot be loaded, a
class whose members or whose name style cannot be told, or a decorator that declares a union or a type
that cannot be written out. With the usual tables nothing else leads to one while a schema is made
(`Shape.not_meets_tables`, `blamed_of_fields`). A problem with the examples of a schema has its cause in
a scalar of it (`unexampled_of_synthesize`).
-/
namespace ApiSchema

open Source Infer

variable {d e : Field.Declared} {direction : Direction} {scope : String} {kind : Kind} {f : Function}
  {l : Located} {p : Problem} {subject : Subject} {chain : List Field.Link} {field : Option String}

/-! ## The usual tables -/

theorem not_hasUnion_types : ¬ TypeTables.HasUnion {} := by
  rintro ⟨name, format, hget⟩
  have hall : ∀ v ∈ primitiveTypes.values, v.1 ≠ .union := by decide
  exact hall _ (Entries.mem_values hget) rfl

namespace Shape

theorem not_hasUnion_names : ¬ HasUnion {} := by
  rintro (⟨rule, hr, hk⟩ | ⟨rule, hr, hk⟩)
  · revert rule
    decide
  · revert rule
    decide

theorem argumentPlace?_ok {position : Option Int} (h : ∀ i ∈ position, 0 ≤ i) (count : Nat) :
    ∃ place, argumentPlace? position count = .ok place := by
  cases position with
  | none => exact ⟨none, rfl⟩
  | some i =>
    unfold argumentPlace? argumentPlace
    dsimp only
    split
    · exact ⟨none, rfl⟩
    · rw [if_pos (h i rfl)]
      exact ⟨_, rfl⟩

theorem fill_conditionalWrappers {w : Wrapper} (hw : w ∈ conditionalWrappers.values) (about : String) :
    ∃ out, Text.fill w.description "subject" about = .ok out := by
  simp only [conditionalWrappers, Entries.values, List.map_cons, List.map_nil, List.mem_cons,
    List.not_mem_nil,
    or_false] at hw
  have hstart : "Included only when the ".toList.all Text.isOrdinary = true := by decide
  rcases hw with rfl | rfl | rfl | rfl | rfl | rfl | rfl
  · exact Text.fill_plain (by decide) _ about
  · exact Text.fill_plain (by decide) _ about
  · exact Text.fill_about Text.isPlain_subject _ " relation is loaded.".toList (by simp) hstart
      (by decide) about
  · exact Text.fill_about Text.isPlain_subject _ " attribute is appended.".toList (by simp) hstart
      (by decide) about
  · exact Text.fill_about Text.isPlain_subject _ " attribute is present.".toList (by simp) hstart
      (by decide) about
  · exact Text.fill_plain (by decide) _ about
  · exact Text.fill_about Text.isPlain_subject _ " count is loaded.".toList (by simp) hstart
      (by decide) about

/-- The usual tables lead to no problem in a body. -/
theorem not_meets_tables (p : Problem) : ¬ Tables.Meets {} p := by
  have hplaces : ∀ w ∈ conditionalWrappers.values,
      (∀ i ∈ w.subjectIndex, 0 ≤ i) ∧ ∀ i ∈ w.valueIndex, 0 ≤ i := by decide
  have hmerge : ∀ w ∈ conditionalWrappers.values, ¬ (w.merge = true ∧ w.valueIndex = none) := by decide
  have hkind : ∀ w ∈ conditionalWrappers.values, w.fallbackKind ≠ some .union := by decide
  rintro (h | ⟨hw, h⟩)
  · exact not_hasUnion_names h
  · cases h with
    | @place position count f hposition h =>
      obtain ⟨place, hplace⟩ : ∃ place, argumentPlace? position count = .ok place := by
        rcases hposition with rfl | rfl
        · exact argumentPlace?_ok (hplaces _ hw).1 count
        · exact argumentPlace?_ok (hplaces _ hw).2 count
      cases hplace.symm.trans h
    | @sentence about f h =>
      obtain ⟨out, hout⟩ := fill_conditionalWrappers hw about
      cases hout.symm.trans h
    | merge h hnone => exact hmerge _ hw ⟨h, hnone⟩
    | union h => exact hkind _ hw h

end Shape

/-! ## Declared fields -/

namespace Field

theorem kind_withDeclared {replaces : Bool} {merged : Entries Declared}
    (h : e ∈ (withDeclared replaces merged d).values) :
    e.kind = d.kind ∨ ∃ e' ∈ merged.values, e'.kind = e.kind := by
  have hset : ∀ {f : Declared}, e ∈ (merged.set d.outputName f).values → e = f ∨ e ∈ merged.values := by
    intro f hf
    obtain ⟨p, hp, rfl⟩ := List.mem_map.1 hf
    rcases Entries.mem_set hp with rfl | hp
    · exact .inl rfl
    · exact .inr (List.mem_map.2 ⟨p, hp, rfl⟩)
  unfold withDeclared at h
  split at h
  · rcases hset h with rfl | h
    · exact .inl rfl
    · exact .inr ⟨e, h, rfl⟩
  · rename_i current hcurrent
    split at h
    · split at h
      · rcases hset h with rfl | h
        · exact .inl rfl
        · exact .inr ⟨e, h, rfl⟩
      · exact .inr ⟨e, h, rfl⟩
    · split at h
      · rcases hset h with rfl | h
        · exact .inr ⟨current, Entries.mem_values hcurrent, rfl⟩
        · exact .inr ⟨e, h, rfl⟩
      · exact .inr ⟨e, h, rfl⟩

theorem kind_foldl_withDeclared {replaces : Bool} {ds : List Declared} {merged : Entries Declared}
    (h : e ∈ (ds.foldl (withDeclared replaces) merged).values) :
    (∃ d ∈ ds, d.kind = e.kind) ∨ ∃ e' ∈ merged.values, e'.kind = e.kind := by
  induction ds generalizing merged with
  | nil => exact .inr ⟨e, h, rfl⟩
  | cons d ds ih =>
    rcases ih h with ⟨d', hd', hk⟩ | ⟨e', he', hk⟩
    · exact .inl ⟨d', List.mem_cons_of_mem _ hd', hk⟩
    · rcases kind_withDeclared he' with hk' | ⟨e'', he'', hk'⟩
      · exact .inl ⟨d, List.mem_cons_self, hk'.symm.trans hk⟩
      · exact .inr ⟨e'', he'', hk'.trans hk⟩

theorem kind_merge {decorated typed documented : List Declared}
    (h : e ∈ merge decorated typed documented) :
    (∃ d ∈ decorated, d.kind = e.kind) ∨ (∃ d ∈ typed, d.kind = e.kind) ∨
      ∃ d ∈ documented, d.kind = e.kind := by
  rcases kind_foldl_withDeclared h with h | ⟨e', he', hk⟩
  · exact .inr (.inr h)
  · rcases kind_foldl_withDeclared he' with ⟨d, hd, hk'⟩ | ⟨e'', he'', hk'⟩
    · exact .inr (.inl ⟨d, hd, hk'.trans hk⟩)
    · rcases kind_foldl_withDeclared he'' with ⟨d, hd, hk''⟩ | ⟨_, h, _⟩
      · exact .inl ⟨d, hd, hk''.trans (hk'.trans hk)⟩
      · cases h

/-- A decorator that declares a field of a kind of its own. -/
def Names (direction : Direction) (kind : Kind) (c : Call) : Prop :=
  (decoratorNames direction).contains c.baseName = true ∧ ∃ scope d, ofDecorator? scope c = some d ∧
    d.kind = some kind

theorem names_of_ofDecorators {cs : List Call}
    (hd : d ∈ ofDecorators direction scope cs) (hk : d.kind = some kind) :
    ∃ c ∈ cs, Names direction kind c := by
  obtain ⟨c, hc, hcd⟩ := List.mem_filterMap.1 hd
  obtain ⟨hmem, hname⟩ := List.mem_filter.1 hc
  exact ⟨c, hmem, hname, scope, d, hcd, hk⟩

theorem checkTypes_error {cs : List Call} {e : Fault} (h : checkTypes direction cs = .error e) :
    e = .invalid ∧ ∃ c ∈ cs, isUnspelled direction c = true := by
  unfold checkTypes at h
  split at h
  · rename_i hany
    cases h
    exact ⟨rfl, List.any_eq_true.1 hany⟩
  · cases h

theorem ofHandler_error {e : Fault}
    (h : ofHandler direction scope f = .error e) :
    e = .invalid ∧ ∃ c ∈ f.decorators, isUnspelled direction c = true := by
  rcases error_of_bind h with h | ⟨_, _, h⟩
  · exact checkTypes_error h
  · cases h

theorem names_of_ofHandler {fields : List Declared} (h : ofHandler direction scope f = .ok fields)
    (hd : d ∈ fields) (hk : d.kind = some kind) : ∃ c ∈ f.decorators, Names direction kind c := by
  obtain ⟨_, -, h⟩ := ok_of_bind h
  cases h
  rcases kind_merge hd with ⟨e, he, hek⟩ | ⟨_, h, _⟩ | ⟨_, h, _⟩
  · exact names_of_ofDecorators he (hek.trans hk)
  · cases h
  · cases h

/-- Of a class, only decorators give kinds: its own or those of an ancestor. -/
theorem names_of_ofChain {fields : List Declared}
    (h : ofChain direction chain = .ok fields) (hd : d ∈ fields) (hk : d.kind = some kind) :
    ∃ l ∈ chain, ∃ c ∈ l.cls.decorators, Names direction kind c := by
  obtain ⟨style, -, h⟩ := ok_of_bind h
  obtain ⟨_, -, h⟩ := ok_of_bind h
  cases h
  rcases kind_merge hd with ⟨e, he, hek⟩ | ⟨e, he, hek⟩ | ⟨e, he, hek⟩
  · obtain ⟨l, hl, he⟩ := List.mem_flatMap.1 he
    obtain ⟨e', he', rfl⟩ := List.mem_map.1 he
    exact ⟨l, hl, names_of_ofDecorators he' (hek.trans hk)⟩
  · obtain ⟨l, hl, he⟩ := List.mem_flatMap.1 he
    obtain ⟨f, _, rfl⟩ := List.mem_map.1 he
    cases hek.trans hk
  · obtain ⟨l, hl, he⟩ := List.mem_flatMap.1 he
    obtain ⟨e', he', rfl⟩ := List.mem_map.1 he
    obtain ⟨e'', _, rfl⟩ := List.mem_map.1 he'
    cases hek.trans hk

theorem styleOf_error {f : Fault} (h : styleOf chain = .error f) :
    ∃ l ∈ chain, styleOfClass? l.cls = .error f := by
  induction chain with
  | nil => cases h
  | cons l rest ih =>
    rcases error_of_bind h with hs | ⟨style, _, h⟩
    · exact ⟨l, List.mem_cons_self, hs⟩
    · cases style with
      | some style => cases h
      | none =>
        obtain ⟨l', hl', hf⟩ := ih h
        exact ⟨l', List.mem_cons_of_mem _ hl', hf⟩

theorem ofChain_error {e : Fault} (h : ofChain direction chain = .error e) :
    ∃ l ∈ chain, styleOfClass? l.cls = .error e ∨
      e = .invalid ∧ ∃ c ∈ l.cls.decorators, isUnspelled direction c = true := by
  rcases error_of_bind h with hs | ⟨_, _, h⟩
  · obtain ⟨l, hl, hstyle⟩ := styleOf_error hs
    exact ⟨l, hl, .inl hstyle⟩
  · rcases error_of_bind h with h | ⟨_, _, h⟩
    · obtain ⟨rfl, c, hc, hunspelled⟩ := checkTypes_error h
      obtain ⟨l, hl, hc⟩ := List.mem_flatMap.1 hc
      exact ⟨l, hl, .inr ⟨rfl, c, hc, hunspelled⟩⟩
    · cases h

end Field

/-! ## Blame -/

/-- The decorators of the classes, functions and methods of a module. -/
def decoratorsIn (m : Source.Module) : List Call :=
  m.classes.values.flatMap (·.decorators) ++ (functionsIn m).flatMap (·.decorators)

/-- What leads to a problem in the sources of a library: a module that cannot be loaded, a class whose
members or whose name style cannot be told, or a decorator that declares a union or a type that cannot be
written out. -/
inductive Blame (r : Library) : Problem → Prop
  | module {name : String} {p : Problem} (h : result (loadModule name) r = .error p) : Blame r p
  | members {l : Located} {f : Fault} (hl : Found r l) (h : l.cls.members = .error f) :
      Blame r (.fault f)
  | style {l : Located} {f : Fault} (hl : Found r l) (h : Field.styleOfClass? l.cls = .error f) :
      Blame r (.fault f)
  | decorator {m : Source.Module} {c : Call} (hm : m ∈ r.modules) (hc : c ∈ decoratorsIn m)
    (h : Field.Names .output .union c) : Blame r (.shape .unionWithoutVariants)
  | type {m : Source.Module} {c : Call} (hm : m ∈ r.modules) (hc : c ∈ decoratorsIn m)
    (h : Field.isUnspelled .output c = true) : Blame r (.fault .invalid)

/-- A problem that a handler takes, or that something in the sources is to blame for. -/
def Blamed (r : Library) (p : Problem) : Prop := p.isAbsorbed = true ∨ Blame r p

variable {r : Library}

theorem Found.mem_decoratorsIn (hl : Found r l) :
    l.module ∈ r.modules ∧ ∀ c ∈ l.cls.decorators, c ∈ decoratorsIn l.module := by
  obtain ⟨name, short, hm, hs⟩ := hl
  refine ⟨mem_modules hm, fun c hc => ?_⟩
  exact List.mem_append_left _ (List.mem_flatMap.2 ⟨l.cls, Entries.mem_values hs, hc⟩)

theorem result_declaredFields_cls {chain : List Located}
    (h : result (ancestorChain l) r = .ok chain) : result (declaredFields direction (.cls l)) r =
      (liftM (Field.ofChain direction (chain.map linkOf)) : Attempt (List Field.Declared)) := by
  unfold declaredFields
  rw [result_bind, h]
  rfl

theorem blamed_of_chain (h : result (ancestorChain l) r = .error p) : Blamed r p := by
  have hreads : Reads (fun _ => False) (ancestorChain l) := .ancestorChain l
  rcases hreads.met h with hp | ⟨name, hname⟩ | hp
  · exact .inl hp
  · exact .inr (.module hname)
  · exact hp.elim

/-- Fields that are read in one step have the problems of that step and of unions. -/
theorem blamed_of_step {x : Except Fault (List Field.Declared)}
    (hx : result (declaredFields .output subject) r = liftM x)
    (herror : ∀ e, x = .error e → Blame r (.fault e))
    (hunion : ∀ fields d, x = .ok fields → d ∈ fields → d.kind = some .union → Blame r
      (.shape .unionWithoutVariants))
    (h : FieldProblem r .output subject p) : Blamed r p := by
  cases h with
  | unread h =>
    cases x with
    | error e =>
      cases hx.symm.trans h
      exact .inr (herror e rfl)
    | ok fields => cases hx.symm.trans h
  | union h hd hkind =>
    cases x with
    | error e => cases hx.symm.trans h
    | ok fields =>
      cases hx.symm.trans h
      exact .inr (hunion _ _ rfl hd hkind)

theorem blamed_of_handler {m : Source.Module}
    (hm : m ∈ r.modules) (hf : f ∈ functionsIn m)
    (hx : result (declaredFields .output subject) r = liftM
      (Field.ofHandler .output scope f : Except Fault _))
    (h : FieldProblem r .output subject p) : Blamed r p := by
  have hin : ∀ c ∈ f.decorators, c ∈ decoratorsIn m := fun c hc =>
    List.mem_append_right _ (List.mem_flatMap.2 ⟨f, hf, hc⟩)
  refine blamed_of_step hx (fun e he => ?_) (fun fields d hfields hd hkind => ?_) h
  · obtain ⟨rfl, c, hc, hunspelled⟩ := Field.ofHandler_error he
    exact .type hm (hin c hc) hunspelled
  · obtain ⟨c, hc, hnames⟩ := Field.names_of_ofHandler hfields hd hkind
    exact .decorator hm (hin c hc) hnames

theorem blamed_of_class (hl : Found r l) (h : FieldProblem r .output (.cls l) p) :
    Blamed r p := by
  cases hchain : result (ancestorChain l) r with
  | error q =>
    have hfields : result (declaredFields .output (.cls l)) r = .error q := by
      unfold declaredFields
      rw [result_bind, hchain]
    cases h with
    | unread h =>
      cases hfields.symm.trans h
      exact blamed_of_chain hchain
    | union h => cases hfields.symm.trans h
  | ok chain =>
    have hfound := gives_ancestorChain hl r (.refl r) chain hchain
    refine blamed_of_step (result_declaredFields_cls hchain) (fun e he => ?_)
      (fun fields d hfields hd hkind => ?_) h
    · obtain ⟨_, hl, hcause⟩ := Field.ofChain_error he
      obtain ⟨a, ha, rfl⟩ := List.mem_map.1 hl
      obtain ⟨hm, hin⟩ := (hfound a ha).mem_decoratorsIn
      rcases hcause with hstyle | ⟨rfl, c, hc, hunspelled⟩
      · exact .style (hfound a ha) hstyle
      · exact .type hm (hin c hc) hunspelled
    · obtain ⟨_, hl, c, hc, hnames⟩ := Field.names_of_ofChain hfields hd hkind
      obtain ⟨a, ha, rfl⟩ := List.mem_map.1 hl
      obtain ⟨hm, hin⟩ := (hfound a ha).mem_decoratorsIn
      exact .decorator hm (hin c hc) hnames

theorem blamed_of_fields (hs : Known r subject)
    (h : FieldProblem r .output subject p) : Blamed r p := by
  cases subject with
  | cls l => exact blamed_of_class hs h
  | function name m f =>
    obtain ⟨home, hm, hf⟩ := hs
    exact blamed_of_handler hm hf rfl h
  | method name m owner f =>
    obtain ⟨home, hm, hf⟩ := hs
    exact blamed_of_handler hm hf rfl h

/-! ## Examples -/

/-- A scalar of a schema is to get an example, and a problem is met on the way to it. -/
inductive Node.Unexampled (tables : ExampleTables) : Option String → Node → Problem → Prop
  | scalar {field : Option String} {k : Scalar} {f : Facets} {p : Problem} (hc : f.circularRef = none)
    (hs : f.sample = none) (h : valueFor tables (.scalar k) f field = .error p) :
    Unexampled tables field (.scalar k f) p
  | items {field : Option String} {f : Facets} {n : Node} {p : Problem}
    (h : Unexampled tables none n p) : Unexampled tables field (.array f n) p
  | property {field : Option String} {f : Facets} {ps : Entries Node} {name : String} {n : Node}
    {p : Problem} (hn : (name, n) ∈ ps) (h : Unexampled tables (some name) n p) :
    Unexampled tables field (.object f ps) p
  | first {field : Option String} {f : Facets} {v : Node} {vs : List Node} {p : Problem}
    (h : Unexampled tables field v p) : Unexampled tables field (.union f v vs) p
  | later {field : Option String} {f : Facets} {v w : Node} {vs : List Node} {p : Problem} (hw : w ∈ vs)
    (h : Unexampled tables field w p) : Unexampled tables field (.union f v vs) p

variable {tables : ExampleTables}

theorem hard_valueFor (tables : ExampleTables) (kind : Kind) (f : Facets) (field : Option String) :
    Hard (valueFor tables kind f field) := by
  unfold valueFor
  refine .bind (.fault _) fun value => ?_
  dsimp only
  split
  · split
    · exact .pure _
    · refine .bind (.fault _) fun pattern => .bind (.fault _) fun b => ?_
      split
      · exact .pure _
      · split
        · exact .pure _
        · exact .bind (.fault _) fun _ => .pure _
  · exact .pure _

theorem Node.Unexampled.isAbsorbed {n : Node}
    (h : Unexampled tables field n p) : p.isAbsorbed = false := by
  induction h with
  | scalar _ _ h => exact hard_valueFor _ _ _ _ _ h
  | items _ ih | property _ _ ih | first _ ih | later _ _ ih => exact ih

theorem synthesizeProperties_error {ps : Entries Node}
    (h : synthesizeProperties tables ps = .error p) :
    ∃ q ∈ ps, synthesize tables (some q.1) q.2 = .error p := by
  induction ps with
  | nil =>
    rw [synthesizeProperties] at h
    cases h
  | cons q ps ih =>
    rw [synthesizeProperties] at h
    rcases error_of_bind h with hq | ⟨_, _, h⟩
    · exact ⟨q, List.mem_cons_self, hq⟩
    · rcases error_of_bind h with hps | ⟨_, _, h⟩
      · obtain ⟨q', hq', hp⟩ := ih hps
        exact ⟨q', List.mem_cons_of_mem _ hq', hp⟩
      · cases h

theorem synthesizeAll_error {ns : List Node}
    (h : synthesizeAll tables field ns = .error p) : ∃ n ∈ ns, synthesize tables field n = .error p := by
  induction ns with
  | nil =>
    rw [synthesizeAll] at h
    cases h
  | cons n ns ih =>
    rw [synthesizeAll] at h
    rcases error_of_bind h with hn | ⟨_, _, h⟩
    · exact ⟨n, List.mem_cons_self, hn⟩
    · rcases error_of_bind h with hns | ⟨_, _, h⟩
      · obtain ⟨m, hm, hp⟩ := ih hns
        exact ⟨m, List.mem_cons_of_mem _ hm, hp⟩
      · cases h

theorem unexampled_of_synthesize (n : Node)
    (h : synthesize tables field n = .error p) : n.Unexampled tables field p := by
  induction n using Node.induct generalizing field with
  | scalar k f =>
    rw [synthesize] at h
    split at h
    · cases h
    · rename_i hgiven
      rw [Bool.or_eq_true, not_or, Option.not_isSome_iff_eq_none,
        Option.not_isSome_iff_eq_none] at hgiven
      rcases error_of_bind h with hv | ⟨v, _, h⟩
      · exact .scalar hgiven.1 hgiven.2 hv
      · cases v <;> cases h
  | array f n ih =>
    rw [synthesize] at h
    split at h
    · cases h
    · rcases error_of_bind h with hn | ⟨m, _, h⟩
      · exact .items (ih hn)
      · split at h <;> cases h
  | object f ps ih =>
    rw [synthesize] at h
    split at h
    · cases h
    · rcases error_of_bind h with hps | ⟨_, _, h⟩
      · obtain ⟨q, hq, hp⟩ := synthesizeProperties_error hps
        exact .property hq (ih q hq hp)
      · cases h
  | union f v vs ihv ih =>
    rw [synthesize] at h
    split at h
    · cases h
    · rcases error_of_bind h with hv | ⟨_, _, h⟩
      · exact .first (ihv hv)
      · rcases error_of_bind h with hvs | ⟨_, _, h⟩
        · obtain ⟨w, hw, hp⟩ := synthesizeAll_error hvs
          exact .later hw (ih w hw hp)
        · cases h

end ApiSchema
