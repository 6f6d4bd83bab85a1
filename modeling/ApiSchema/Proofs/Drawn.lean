import ApiSchema.Proofs.Caching

/-!
# Modules that schemas are made of

What is made of a module loads it, so a schema is kept only for the classes of modules that were loaded (`Drawn`).

To see this, a run is compared with one over the same library in which a module cannot be read (`Shadowed`). Both keep
the same schemas, unless the first loads that module. The second finds no class of the module, so it keeps the
schema of none (`drawn_answer`).
-/
namespace ApiSchema

open Source Infer

variable {t : Infer.Tables} {s : Settings} {name : String} {l r : Library}

/-! ## Another text for a module -/

/-- The second library is the first with another text for a module, which it has not loaded. -/
structure Retold (name : String) (o : Except ReadError Source.Module) (l r : Library) : Prop where
  text : r.texts.get? name = some o
  texts : ∀ other, other ≠ name → r.texts.get? other = l.texts.get? other
  unloaded : r.cache.modules.get? name = none
  modules : ∀ other, other ≠ name → r.cache.modules.get? other = l.cache.modules.get? other
  rest : r.folder = l.folder ∧ r.index = l.index ∧ r.root = l.root ∧ r.maxFileSize = l.maxFileSize

namespace Retold

variable {other : String} {o : Except ReadError Source.Module} {d : Located} (h : Retold name o l r)

include h

theorem outcome (hn : other ≠ name) : result (loadModule other) r = result (loadModule other) l := by
  obtain ⟨hfolder, hindex, hroot, hsize⟩ := h.rest
  have hsource : result (readSource r other) r = result (readSource l other) l := by
    unfold readSource
    rw [h.texts other hn, hindex]
    split
    · exact result_recordOutcome _ _ _ _
    · exact result_readFile _ hfolder hroot hsize
    · rfl
  rw [result_loadModule, result_loadModule, hsource, h.modules other hn]

theorem ok_of_loadModule {m : Source.Module} (hm : result (loadModule name) r = .ok m) : o = .ok m := by
  rw [result_loadModule, h.unloaded, readSource, h.text] at hm
  exact recordOutcome_ok hm

theorem hasModule_self : r.hasModule name = true := by
  rw [Library.hasModule, Entries.has, h.text]
  rfl

theorem hasModule_ne (hn : other ≠ name) : r.hasModule other = l.hasModule other := by
  unfold Library.hasModule Entries.has
  rw [h.texts other hn, h.rest.2.1]

theorem sound (hsound : l.Sound) (ho : Yields (Module.Named name) o) : r.Sound where
  has other m hm := by
    by_cases hn : other = name
    · exact hn ▸ h.hasModule_self
    · exact (h.hasModule_ne hn).trans (hsound.has other m (h.outcome hn ▸ hm))
  named other m hm := by
    by_cases hn : other = name
    · subst hn
      exact ho m (h.ok_of_loadModule hm)
    · exact hsound.named other m (h.outcome hn ▸ hm)

/-- Only that module tells the libraries apart. -/
theorem kin {fails : Prop} (hl : l.hasModule name = true)
    (hhard : ∀ p, result (loadModule name) l = .error p → fails ∧ p.isAbsorbed = false) : Kin (· = name) fails l r where
  has other := by
    by_cases hn : other = name
    · rw [hn, hl, h.hasModule_self]
    · exact (h.hasModule_ne hn).symm
  outcome other hn := (h.outcome hn).symm
  hard other hn := hn ▸ hhard

theorem found_iff (hl : l.Sound) (hr : r.Sound) (hn : d.module.name ≠ name) : Found r d ↔ Found l d := by
  constructor
  · intro hd
    obtain ⟨hm, hc, -⟩ := hd.named hr
    exact ⟨_, _, (h.outcome hn).symm.trans hm, hc⟩
  · intro hd
    obtain ⟨hm, hc, -⟩ := hd.named hl
    exact ⟨_, _, (h.outcome hn).trans hm, hc⟩

/-- What comes after the second library comes after the first, if that has not loaded the module. -/
theorem sequel (hkin : Kin (· = name) True l r) (hl : l.cache.modules.has name = false) {r' : Library}
    (hr : Sequel r r') : Sequel l r' := by
  obtain ⟨away, hk, hfar⟩ := hr
  refine ⟨fun other => away other ∨ other = name, ⟨?_, ?_, ?_⟩, fun other hother => ?_⟩
  · exact fun other => (hkin.has other).trans (hk.has other)
  · intro other hn
    obtain ⟨haway, hname⟩ := not_or.1 hn
    exact (hkin.outcome other hname).trans (hk.outcome other haway)
  · intro other hn p hp
    by_cases hname : other = name
    · exact hkin.hard other hname p hp
    · exact hk.hard other (hn.resolve_right hname) p ((hkin.outcome other hname).symm.trans hp)
  · by_cases hname : other = name
    · exact hname ▸ hl
    · have hloaded := hfar other (hother.resolve_right hname)
      rwa [Entries.has, h.modules other hname] at hloaded

end Retold

/-! ## Kept schemas and loaded modules -/

/-- Schemas are kept only for classes of modules that were loaded. -/
def Drawn (l : Library) : Prop :=
  ∀ d direction n, Found l d → l.cache.schemas.get? (d.key direction) = some n →
    l.cache.modules.has d.module.name = true

theorem Drawn.ne (h : Drawn l) {d : Located} (hd : Found l d) {direction : Direction} {n : Node}
    (hn : l.cache.schemas.get? (d.key direction) = some n) (hl : l.cache.modules.has name = false) :
    d.module.name ≠ name := by
  rintro rfl
  exact Bool.false_ne_true (hl.symm.trans (h d direction n hd hn))

/-- The schemas that stay are still settled. -/
theorem Stored.retold {o : Except ReadError Source.Module} (hstored : Stored t s l) (hdrawn : Drawn l)
    (hsound : l.Sound) (hsound' : r.Sound) (h : Retold name o l r) (hkin : Kin (· = name) True l r)
    (hl : l.cache.modules.has name = false)
    (hkept : ∀ {key n}, r.cache.schemas.get? key = some n → l.cache.schemas.get? key = some n) : Stored t s r where
  owned hn := by
    obtain ⟨d, direction, hd, rfl⟩ := hstored.owned (hkept hn)
    exact ⟨d, direction, (h.found_iff hsound hsound' (hdrawn.ne hd (hkept hn) hl)).2 hd, rfl⟩
  unmarked hn := hstored.unmarked (hkept hn)
  worded hn := hstored.worded (hkept hn)
  settled hn d direction hd hkey := by
    obtain ⟨d', direction', hd', rfl⟩ := hstored.owned (hkept hn)
    have hfound := (h.found_iff hsound hsound' (hdrawn.ne hd' (hkept hn) hl)).2 hd'
    obtain ⟨rfl, rfl⟩ := hd.eq_of_key hsound' hfound hkey
    exact fun k guard r hr => hstored.settled (hkept hn) d direction hd' rfl k guard r fun b =>
      ⟨h.sequel hkin hl (hr b).1, (hr b).2⟩

/-- A library is tidy if it is so with modules that it cannot load. -/
theorem Tidy.barely {away : String → Prop} (h : Tidy t s r) (hk : Kin away True l r)
    (hbare : ∀ name m, away name → result (loadModule name) l ≠ .ok m) : Tidy t s l := by
  have hread : ∀ {α : Type} {x : Inference α} {a : α}, Reads (fun _ => True) x → result x l = .ok a →
      result x r = .ok a := by
    intro α x a hx ha
    rcases hx.barely hk hbare with ⟨-, p, hp, -⟩ | hsame
    · cases ha.symm.trans hp
    · exact hsame.symm.trans ha
  have hbody : ∀ {home owner f}, PlainBody t r home owner f → PlainBody t l home owner f := by
    intro home owner f hf body hbody o ho n expanding key node hnode
    rcases operandIn_barely t home owner body n expanding key o hk hbare with ⟨-, p, hp, -⟩ | hsame
    · cases hnode.symm.trans hp
    · exact hf body hbody o ho n expanding key node (hsame.trans hnode)
  have hfound : ∀ {d}, Found l d → Found r d := fun ⟨name, short, hm, hc⟩ =>
    ⟨name, short, (hk.outcome name fun hn => hbare name _ hn hm).symm.trans hm, hc⟩
  refine ⟨fun d hd chain hchain p hp => ?_, fun name subject f hname hf owner howner => ?_⟩
  · exact hbody (h.classes d (hfound hd) chain (hread (Reads.ancestorChain d) hchain) p hp)
  · exact hbody (h.handlers name subject f (hread (Reads.readSubject name) hname) hf owner
      (hread (Reads.ownerOf subject) howner))

theorem Tidy.alike (h : Tidy t s l) (hl : Alike l r) : Tidy t s r := h.barely (.of_alike hl.symm) nofun

/-! ## Runs without a module -/

/-- Two libraries that keep the same schemas. The first can load a module of which the second has another outcome. -/
structure Shade (name : String) (l r : Library) : Prop where
  kin : Kin (· = name) False l r
  schemas : l.cache.schemas = r.cache.schemas
  enabled : l.cache.enabled = r.cache.enabled

theorem Shade.learned {l' r' : Library} (h : Shade name l r) (hl : Learned l l') (hr : Learned r r') :
    Shade name l' r' :=
  ⟨h.kin.learned hl hr, by rw [hl.schemas, hr.schemas, h.schemas], by rw [hl.enabled, hr.enabled, h.enabled]⟩

/-- The run loads a module, or it is the same over a library with another outcome for the module. -/
structure Shadowed {α : Type} (name : String) (base : Library) (R : (Unit → α) → Prop) (x : Unit → Inference α) :
    Prop where
  alone : (cleanly base (· = name)).Rel R x
  tied : ∀ l r, Clean base l → Shade name l r → Touched (· = name) (after (x ()) l) ∨
    result (x ()) l = result (x ()) r ∧ Shade name (after (x ()) l) (after (x ()) r)

namespace Shadowed

variable {α β : Type} {base : Library} {R : (Unit → α) → Prop} {S : (Unit → β) → Prop} {x : Unit → Inference α}

theorem pure {v : Unit → α} (h : R v) : Shadowed name base R fun i => pure (v i) :=
  ⟨.pure h, fun _ _ _ hs => .inr ⟨rfl, hs⟩⟩

theorem mono {S : (Unit → α) → Prop} (hx : Shadowed name base R x) (h : ∀ v, R v → S v) : Shadowed name base S x :=
  ⟨hx.alone.mono h, hx.tied⟩

theorem bind {f : Unit → α → Inference β} (hx : Shadowed name base R x)
    (hf : ∀ v, R v → Shadowed name base S fun i => f i (v i)) : Shadowed name base S fun i => x i >>= f i := by
  refine ⟨hx.alone.bind fun v hv => (hf v hv).alone, fun l r hl hs => ?_⟩
  have hsolo := hx.alone.solo () l trivial hl
  rw [result_bind, result_bind, after_bind, after_bind]
  rcases hx.tied l r hl hs with hloaded | ⟨hres, hs'⟩
  · left
    cases ha : result (x ()) l with
    | error p => exact hloaded
    | ok a =>
      obtain ⟨v, hv, rfl⟩ := hsolo.value a ha
      exact ((hf v hv).alone.solo () _ trivial hsolo.inv).gone hloaded
  · rw [← hres]
    cases ha : result (x ()) l with
    | error p => exact .inr ⟨rfl, hs'⟩
    | ok a =>
      obtain ⟨v, hv, rfl⟩ := hsolo.value a ha
      exact (hf v hv).tied _ _ hsolo.inv hs'

theorem attempt {x : Unit → Inference (Option α)} (hx : Shadowed name base (Options R) x) :
    Shadowed name base (Options R) fun i => attempt (x i) := by
  refine ⟨hx.alone.attempt, fun l r hl hs => ?_⟩
  rw [after_attempt, after_attempt, result_attempt, result_attempt]
  exact (hx.tied l r hl hs).imp_right fun ⟨hres, hs'⟩ => ⟨by rw [hres], hs'⟩

theorem tried {x : Unit → Attempt α} (h : (∃ v, R v ∧ ∀ i, x i = .ok (v i)) ∨ ∃ p, ∀ i, x i = .error p) :
    Shadowed name base R fun i => (liftM (x i) : Inference α) := by
  refine ⟨.tried h, fun l r _ hs => .inr ?_⟩
  rw [result_lift, result_lift, after_lift, after_lift]
  exact ⟨rfl, hs⟩

theorem asked {x : Inference α} {P : α → Prop} (hx : Reads (fun _ => True) x) (hP : Gives base x P) :
    Shadowed name base (Same P) fun _ => x := by
  refine ⟨.asked hx hP, fun l r _ hs => ?_⟩
  rcases hx.same hs.kin with ⟨_, hn, ⟨h, -⟩ | hloaded⟩ | hres
  · exact h.elim
  · exact .inl ⟨_, hn, hloaded⟩
  · exact .inr ⟨hres, hs.learned (hx.learned l) (hx.learned r)⟩

theorem kept (key : String) : Shadowed name base (Options (Shaped fun _ => False)) fun _ => keptSchema key := by
  refine ⟨cleanly_kept _ _ key, fun l r _ hs =>
    .inr ⟨?_, hs.learned (learned_keptSchema key l) (learned_keptSchema key r)⟩⟩
  rw [result_keptSchema, result_keptSchema]
  unfold Cache.getSchema
  rw [hs.enabled, hs.schemas]
  split
  · rfl
  · split <;> rfl

theorem keep (key : String) {n : Node} (hn : n.Worded) :
    Shadowed name base (Shaped fun _ => False) fun _ => keepSchema key n := by
  refine ⟨cleanly_keep _ _ key hn, fun l r _ hs => .inr ⟨?_, ?_⟩⟩
  · rw [result_keepSchema, result_keepSchema]
  · obtain ⟨c, hc, hm, he, hkept⟩ := after_keepSchema key n l
    obtain ⟨c', hc', hm', he', hkept'⟩ := after_keepSchema key n r
    rw [hc, hc']
    refine ⟨hs.kin.alike (alike_knowing hm) (alike_knowing hm'), ?_, ?_⟩
    · change c.schemas = c'.schemas
      rw [hkept, hkept', hs.enabled, hs.schemas]
    · change c.enabled = c'.enabled
      rw [he, he', hs.enabled]

end Shadowed

def shadowing (name : String) (base : Library) : Relator Unit fun _ => Inference where
  base := base
  Meets _ := True
  bears _ := trivial
  Rel := Shadowed name base
  pure := Shadowed.pure
  bind := Shadowed.bind
  mono := Shadowed.mono
  attempt := Shadowed.attempt
  tried h := Shadowed.tried (h.imp_right fun ⟨p, _, hp⟩ => ⟨p, hp⟩)
  asked hx hP _ := Shadowed.asked hx hP

variable (t s) in
theorem classSchema_shadowed (base : Library) (k : Nat) (guard : List String) (d : Located) (direction : Direction) :
    Shadowed name base (Shaped fun _ => False) fun _ => classSchema t s k guard d direction :=
  classSchema_induct (P := fun _ x => Shadowed name base (Shaped fun _ => False) fun _ => x)
    (fun _ _ hw => .pure (.const hw)) (fun _ _ ih d => expandedSchema_equal (𝓡 := shadowing name base) Shadowed.kept
      (fun key _ hn => .keep key hn) (composedSchema_equal (fun _ => trivial) (fun d _ => ih d) d)) k guard d

variable (t s name) in
theorem schema_shadowed (base : Library) (q : Request) :
    Shadowed name base (Grown fun _ => False) fun _ => q.schema t s (outermost t s) :=
  schema_equal (𝓡 := shadowing name base) (fun _ => trivial)
    (fun d direction _ => classSchema_shadowed t s base _ _ d direction) q

/-- The library with a text for a module that cannot be read. -/
def Library.without (l : Library) (name : String) : Library :=
  { l with texts := l.texts.set name (.error (.fault .mismatch)) }

theorem retold_without (hl : l.cache.modules.has name = false) :
    Retold name (.error (.fault .mismatch)) l (l.without name) where
  text := Entries.get?_set_self _ _ _
  texts _ hn := Entries.get?_set_ne _ _ hn
  unloaded := Option.not_isSome_iff_eq_none.1 (Bool.eq_false_iff.1 hl)
  modules _ _ := rfl
  rest := ⟨rfl, rfl, rfl, rfl⟩

theorem result_loadModule_without (hl : l.cache.modules.has name = false) :
    result (loadModule name) (l.without name) = .error (.fault .mismatch) := by
  have h := retold_without hl
  rw [result_loadModule, h.unloaded, readSource, h.text]
  rfl

theorem Tidy.without (htidy : Tidy t s l) (hl : l.cache.modules.has name = false)
    (h : Kin (· = name) True l (l.without name)) : Tidy t s (l.without name) := by
  have hfault := result_loadModule_without hl
  have hback : Kin (· = name) True (l.without name) l := by
    refine ⟨fun other => (h.has other).symm, fun other hn => (h.outcome other hn).symm, ?_⟩
    rintro _ rfl p hp
    cases hfault.symm.trans hp
    exact ⟨trivial, rfl⟩
  refine htidy.barely hback ?_
  rintro _ m rfl hm
  cases hfault.symm.trans hm

/-- Answering a request keeps schemas only for classes of modules that are loaded. -/
theorem drawn_answer (hsound : l.Sound) (htidy : Tidy t s l) (hstored : Stored t s l) (hdrawn : Drawn l) (q : Request) :
    Drawn (after (q.answer t s) l) := by
  have halike : Alike l (after (q.answer t s) l) := (stored_answer hsound htidy ⟨.refl l, hstored⟩ q).1
  intro d direction n hd hn
  replace hd := hd.alike halike.symm
  obtain ⟨hm, -⟩ := hd.named hsound
  have hclean : Clean l l := ⟨.refl l, hstored.worded⟩
  have hshadowed := schema_shadowed t s d.module.name l q
  rw [Request.after_answer] at hn ⊢
  by_contra hfar
  replace hfar : ¬ Touched (· = d.module.name) (after (q.schema t s (outermost t s)) l) := fun ⟨_, hname, h⟩ =>
    hfar (hname ▸ h)
  have hl : l.cache.modules.has d.module.name = false :=
    Bool.eq_false_iff.2 fun hloaded => hfar ((hshadowed.alone.solo () l trivial hclean).gone ⟨_, rfl, hloaded⟩)
  have hretold := retold_without hl
  have hkin : ∀ fails, Kin (· = d.module.name) fails l (l.without d.module.name) := fun fails =>
    hretold.kin (hsound.has _ _ hm) fun p hp => by cases hm.symm.trans hp
  obtain ⟨-, hshade⟩ := (hshadowed.tied l _ hclean ⟨hkin False, rfl, rfl⟩).resolve_left hfar
  -- over the library without the module, the schema is that of a class of another module
  have hfault := result_loadModule_without hl
  have hsound' : (l.without d.module.name).Sound := hretold.sound hsound nofun
  have hstored' : Stored t s (l.without d.module.name) := hstored.retold hdrawn hsound hsound' hretold (hkin True) hl id
  obtain ⟨halike', hstored''⟩ := stored_answer hsound' (htidy.without hl (hkin True)) ⟨.refl _, hstored'⟩ q
  rw [Request.after_answer] at halike' hstored''
  obtain ⟨d', direction', hd', hkey⟩ := hstored''.owned (hshade.schemas ▸ hn)
  replace hd' := hd'.alike halike'.symm
  have hne : d'.module.name ≠ d.module.name := by
    intro hname
    cases hfault.symm.trans (hname ▸ (hd'.named hsound').1)
  obtain ⟨rfl, -⟩ := ((hretold.found_iff hsound hsound' hne).1 hd').eq_of_key hsound hd hkey
  exact hne rfl

end ApiSchema
