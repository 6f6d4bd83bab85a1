import ApiSchema.Proofs.Sources
import ApiSchema.Proofs.Truncation
import Mathlib.Tactic.Choose

/-!
# Kept schemas

A schema is kept under the name of its class alone, and is used again where fewer classes may be nested, where other
classes are under expansion, and after a module has got another text. What makes it fit there is that it is *settled*
(`Settled`): whatever texts the modules have that were not loaded for it, and however many classes may be nested, the
class has this schema up to placeholders.

Over plain bodies every schema that is kept is settled (`stored_answer`). The proof compares the run that keeps schemas
with two runs that keep none, over texts that may differ from the first (`watched`). A step of the first run that
composes a class takes its schema from such comparisons with all other runs (`Agreeing.settled`), so the induction is
over the number of classes that the first run may nest, for all others at once (`agreeing`).
-/
namespace ApiSchema

open Source Infer

variable {κ : Type} {l r l' : Library} {key : String} {n : Node} {d : Located} {k : Nat} {guard : List String}
  {away : Bool → String → Prop}

/-! ## Later sources -/

/-- The second library may have other texts for modules that the first has not loaded. Such a module is one that the
first library can load, or fails at with a problem that no handler takes. -/
def Sequel (l r : Library) : Prop := ∃ away, Kin away True l r ∧ ∀ name, away name → l.cache.modules.has name = false

namespace Sequel

theorem of_alike (h : Alike l r) : Sequel l r := ⟨fun _ => False, .of_alike h, nofun⟩

theorem later {r' : Library} (h : Sequel l r) (hr : Alike r r') : Sequel l r' := by
  obtain ⟨away, hk, hout⟩ := h
  exact ⟨away, hk.alike (.refl l) hr, hout⟩

theorem earlier (h : Sequel l' r) (hl : Learned l l') : Sequel l r := by
  obtain ⟨away, hk, hout⟩ := h
  refine ⟨away, hk.alike (Alike.symm ⟨hl.has, hl.outcome⟩) (.refl r), fun name hn => ?_⟩
  exact Bool.eq_false_iff.2 fun hc => Bool.false_ne_true ((hout name hn).symm.trans (hl.loaded name hc))

end Sequel

/-! ## Changes of the cache -/

theorem learned_keptSchema (key : String) (l : Library) : Learned l (after (keptSchema key) l) := by
  have hget : ∀ c : Cache, (c.getSchema key).2.schemas = c.schemas ∧ (c.getSchema key).2.enabled = c.enabled ∧
      (c.getSchema key).2.modules = c.modules := by
    intro c
    unfold Cache.getSchema
    repeat' split
    all_goals exact ⟨rfl, rfl, rfl⟩
  obtain ⟨hs, he, hm⟩ := hget l.cache
  exact learned_knowing (c := (l.cache.getSchema key).2) (k := l.counts) hs he fun name => .inl (by rw [hm])

theorem result_keptSchema (key : String) (l : Library) :
    result (keptSchema key) l = .ok (l.cache.getSchema key).1 := rfl

theorem get?_of_keptSchema (h : result (keptSchema key) l = .ok (some n)) :
    l.cache.schemas.get? key = some n := by
  have h : (l.cache.getSchema key).1 = some n := Except.ok.inj ((result_keptSchema key l).symm.trans h)
  unfold Cache.getSchema at h
  split at h
  · cases h
  · split at h
    · rename_i hget
      cases h
      exact hget
    · cases h

theorem result_keepSchema (key : String) (n : Node) (l : Library) : result (keepSchema key n) l = .ok n := by
  unfold keepSchema
  split <;> rfl

/-- Keeping a schema leaves everything else, and keeps none with a placeholder. -/
theorem after_keepSchema (key : String) (n : Node) (l : Library) :
    ∃ c, after (keepSchema key n) l = l.knowing c l.counts ∧ c.modules = l.cache.modules ∧ c.enabled = l.cache.enabled ∧
      c.schemas = if l.cache.enabled && !n.hasPlaceholder then l.cache.schemas.set key n else l.cache.schemas := by
  unfold keepSchema
  cases hn : n.hasPlaceholder with
  | true => exact ⟨l.cache, rfl, rfl, rfl, by rw [Bool.not_true, Bool.and_false]; rfl⟩
  | false =>
    refine ⟨l.cache.putSchema key n, rfl, ?_⟩
    unfold Cache.putSchema
    cases he : l.cache.enabled with
    | true => exact ⟨rfl, rfl, rfl⟩
    | false => exact ⟨rfl, he, rfl⟩

theorem get?_after_keepSchema {key' : String} {m : Node}
    (h : (after (keepSchema key n) l).cache.schemas.get? key' = some m) :
    l.cache.schemas.get? key' = some m ∨ n.hasPlaceholder = false ∧ key = key' ∧ m = n := by
  obtain ⟨c, hafter, -, -, hs⟩ := after_keepSchema key n l
  rw [hafter] at h
  replace h : c.schemas.get? key' = some m := h
  rw [hs] at h
  split at h
  · rename_i hput
    rw [Entries.get?_set] at h
    split at h
    · rename_i hkey
      exact .inr ⟨by simpa using (Bool.and_eq_true_iff.1 hput).2, hkey, (Option.some.inj h).symm⟩
    · exact .inl h
  · exact .inl h

/-- A library with the same sources, in which the descriptions of kept schemas are texts. -/
structure Clean (r l : Library) : Prop where
  alike : Alike r l
  worded : ∀ {key n}, l.cache.schemas.get? key = some n → n.Worded

namespace Clean

variable {r l l' : Library}

theorem learned (h : Clean r l) (hl : Learned l l') : Clean r l' :=
  ⟨h.alike.learned hl, fun hn => h.worded (hl.schemas ▸ hn)⟩

theorem keep (h : Clean r l) (key : String) (hn : n.Worded) : Clean r (after (keepSchema key n) l) := by
  obtain ⟨c, hc, hm, -⟩ := after_keepSchema key n l
  refine ⟨h.alike.trans (hc ▸ alike_knowing hm), fun hget => ?_⟩
  rcases get?_after_keepSchema hget with hold | ⟨-, -, rfl⟩
  · exact h.worded hold
  · exact hn

theorem shaped_keptSchema {ι : Type} {Leaf : (ι → Node) → Prop} (h : Clean r l) {o : Option Node}
    (ho : result (keptSchema key) l = .ok o) : Options (Shaped Leaf) fun _ => o := by
  cases o with
  | none => exact .none
  | some n => exact .some (.const (h.worded (get?_of_keptSchema ho)))

end Clean

theorem shaped_keepSchema {ι : Type} {Leaf : (ι → Node) → Prop} {m : Node} (hn : n.Worded)
    (hm : result (keepSchema key n) l = .ok m) : Shaped Leaf fun _ => m := by
  cases (result_keepSchema key n l).symm.trans hm
  exact .const hn

/-! ## Schemas that are settled -/

/-- A family in which the first schema has a mark, or both others have one and are the same. -/
def Open (ns : Option Bool → Node) : Prop :=
  Marked (ns none) ∨ Marked (ns (some false)) ∧ ns (some false) = ns (some true)

theorem steady_open : Steady Open := by
  rintro h ns hh (hn | ⟨hn, he⟩)
  · exact .inl (hn.retouch hh)
  · exact .inr ⟨hn.retouch hh, congrArg h he⟩

/-- Schemas of one shape, which are level on the input side. -/
abbrev Sided {ι : Type} (Leaf : (ι → Node) → Prop) (direction : Direction) (ns : ι → Node) : Prop :=
  Shaped Leaf ns ∧ (direction = .input → Level ns)

variable (t : Infer.Tables) (s : Settings)

/-- Whatever texts the modules get that were not loaded, and however many classes may be nested, the class has the
schema `n`, up to placeholders. -/
def Settled (l : Library) (d : Located) (direction : Direction) (n : Node) : Prop :=
  ∀ (k : Nat) (guard : List String) (r : Bool → Library), (∀ b, Sequel l (r b) ∧ (r b).cache.enabled = false) →
    (∃ b, Fatal (result (composedSchema t s (classSchema t s k guard) d direction) (r b))) ∨
      ∃ m : Bool → Node, (∀ b, result (composedSchema t s (classSchema t s k guard) d direction) (r b) = .ok (m b)) ∧
        Sided Open direction (Lockstep.cons n m)

/-- All schemas that a library keeps are those of its classes. They are settled, and have no placeholder. -/
structure Stored (l : Library) : Prop where
  owned : ∀ {key n}, l.cache.schemas.get? key = some n → ∃ d direction, Found l d ∧ d.key direction = key
  unmarked : ∀ {key n}, l.cache.schemas.get? key = some n → n.hasPlaceholder = false
  worded : ∀ {key n}, l.cache.schemas.get? key = some n → n.Worded
  settled : ∀ {key n}, l.cache.schemas.get? key = some n → ∀ d direction, Found l d → d.key direction = key →
    Settled t s l d direction n

variable {t s}

theorem Settled.learned {direction : Direction}
    (h : Settled t s l d direction n) (hl : Learned l l') : Settled t s l' d direction n :=
  fun k guard r hr => h k guard r fun b => ⟨(hr b).1.earlier hl, (hr b).2⟩

theorem Stored.learned (h : Stored t s l) (hl : Learned l l') : Stored t s l' where
  owned hn := by
    obtain ⟨d, direction, hd, hkey⟩ := h.owned (hl.schemas ▸ hn)
    exact ⟨d, direction, hd.alike hl.alike, hkey⟩
  unmarked hn := h.unmarked (hl.schemas ▸ hn)
  worded hn := h.worded (hl.schemas ▸ hn)
  settled hn d direction hd hkey := (h.settled (hl.schemas ▸ hn) d direction (hd.alike hl.alike.symm) hkey).learned hl

theorem Stored.keep (h : Stored t s l) (hsound : l.Sound) (hd : Found l d)
    {direction : Direction} (hw : n.Worded) (hn : Settled t s l d direction n) :
    Stored t s (after (keepSchema (d.key direction) n) l) := by
  obtain ⟨c, hafter, hm, -⟩ := after_keepSchema (d.key direction) n l
  have halike : Alike l (l.knowing c l.counts) := alike_knowing hm
  have hsequel : ∀ {r}, Sequel (l.knowing c l.counts) r → Sequel l r := by
    rintro r ⟨away, hk, hout⟩
    refine ⟨away, hk.alike halike.symm (.refl r), fun name hname => ?_⟩
    have : c.modules.has name = false := hout name hname
    rwa [hm] at this
  have hsettled : ∀ {d direction n}, Settled t s l d direction n → Settled t s (l.knowing c l.counts) d direction n :=
    fun h k guard r hr => h k guard r fun b => ⟨hsequel (hr b).1, (hr b).2⟩
  have hentry : ∀ {key m}, c.schemas.get? key = some m → l.cache.schemas.get? key = some m ∨
      n.hasPlaceholder = false ∧ d.key direction = key ∧ m = n := fun hget =>
    get?_after_keepSchema (by rw [hafter]; exact hget)
  rw [hafter]
  refine ⟨fun hget => ?_, fun hget => ?_, fun hget => ?_, fun hget d' direction' hd' hkey' => ?_⟩
  · rcases hentry hget with hold | ⟨_, hkey, _⟩
    · obtain ⟨d', direction', hd', hkey⟩ := h.owned hold
      exact ⟨d', direction', hd'.alike halike, hkey⟩
    · exact ⟨d, direction, hd.alike halike, hkey⟩
  · rcases hentry hget with hold | ⟨hmark, _, rfl⟩
    · exact h.unmarked hold
    · exact hmark
  · rcases hentry hget with hold | ⟨_, _, rfl⟩
    · exact h.worded hold
    · exact hw
  · have hd' := hd'.alike halike.symm
    rcases hentry hget with hold | ⟨_, hkey, rfl⟩
    · exact hsettled (h.settled hold d' direction' hd' hkey')
    · obtain ⟨rfl, rfl⟩ := hd'.eq_of_key hsound hd (hkey'.trans hkey.symm)
      exact hsettled hn

/-! ## A run that keeps schemas, and others that keep none -/

/-- One of the modules was loaded. -/
def Touched (away : String → Prop) (l : Library) : Prop :=
  ∃ name, away name ∧ l.cache.modules.has name = true

theorem Touched.learned {away : String → Prop} (h : Touched away l) (hl : Learned l l') : Touched away l' := by
  obtain ⟨name, hn, hloaded⟩ := h
  exact ⟨name, hn, hl.loaded name hloaded⟩

theorem Touched.keep {away : String → Prop} (h : Touched away l) (key : String) (n : Node) :
    Touched away (after (keepSchema key n) l) := by
  obtain ⟨c, hc, hm, -⟩ := after_keepSchema key n l
  obtain ⟨name, hn, hloaded⟩ := h
  refine ⟨name, hn, ?_⟩
  rw [hc]
  exact hm.symm ▸ hloaded

/-- One run over a clean library. -/
def cleanly (base : Library) (away : String → Prop) : Lockstep Unit where
  base := base
  inv _ := Clean base
  sink _ := False
  solo _ := True
  gone _ := Touched away
  inv_learned := Clean.learned
  gone_learned := Touched.learned
  alone hx _ h ha := (hx.alike h.alike).symm.trans ha
  agree hx hinv := .inr fun i => hx.alike (hinv i).alike

theorem cleanly_kept (base : Library) (away : String → Prop) (key : String) :
    (cleanly base away).Rel (Options (Shaped fun _ => False)) fun _ => keptSchema key := by
  refine .of_solo fun l hl => ?_
  have hlearned := learned_keptSchema key l
  exact ⟨hl.learned hlearned, fun hg => hg.learned hlearned, fun o ho => ⟨fun _ => o, hl.shaped_keptSchema ho, rfl⟩⟩

theorem cleanly_keep (base : Library) (away : String → Prop) (key : String) (hn : n.Worded) :
    (cleanly base away).Rel (Shaped fun _ => False) fun _ => keepSchema key n :=
  .of_solo fun _ hl => ⟨hl.keep key hn, fun hg => hg.keep key n, fun m hm => ⟨fun _ => m, shaped_keepSchema hn hm, rfl⟩⟩

/-- The first run keeps schemas, and the others keep none. They may have other texts for some modules: the runs
part when the first run has loaded such a module, or has failed at it. -/
def watched (t : Infer.Tables) (s : Settings) (base : Library) (r : κ → Library) (away : κ → String → Prop)
    (fails : Prop) (hr : ∀ i, Kin (away i) fails base (r i)) : Lockstep (Option κ) where
  base := base
  inv
    | none => fun l => Alike base l ∧ Stored t s l
    | some i => fun l => Alike (r i) l ∧ l.cache.enabled = false
  sink
    | none => fails
    | some _ => True
  solo i := i = none
  gone
    | none => fun l => ∃ i, Touched (away i) l
    | some _ => fun _ => False
  inv_learned {i} := by
    cases i with
    | none => exact fun h hl => ⟨h.1.learned hl, h.2.learned hl⟩
    | some i => exact fun h hl => ⟨h.1.learned hl, hl.enabled.trans h.2⟩
  gone_learned {i} := by
    cases i with
    | none => exact fun ⟨i, h⟩ hl => ⟨i, h.learned hl⟩
    | some i => exact fun h _ => h
  alone {_ _ i} := by
    rintro l a hx rfl h ha
    exact (hx.alike h.1).symm.trans ha
  agree {_ x states} hx hinv := by
    have hbase : result x (states none) = result x base := hx.alike (hinv none).1
    have htied : ∀ i, Tied (away i) fails x x (states none) (r i) :=
      fun i => hx.same ((hr i).alike (hinv none).1 (.refl _))
    by_cases hescape : ∃ i name, away i name ∧
        (fails ∧ Fatal (result x (states none)) ∨ (after x (states none)).cache.modules.has name = true)
    · obtain ⟨i, name, hn, ⟨hfails, hf⟩ | hl⟩ := hescape
      · exact .inl (.inl ⟨none, hfails, hf⟩)
      · exact .inl (.inr ⟨none, rfl, i, name, hn, hl⟩)
    · refine .inr fun i => ?_
      cases i with
      | none => exact hbase
      | some i =>
        rcases htied i with hfar | hsame
        · exact absurd ⟨i, hfar⟩ hescape
        · exact (hx.alike (hinv (some i)).1).trans (hsame.symm.trans hbase)

section

variable {base : Library} {r : κ → Library} {away : κ → String → Prop} {fails : Prop}
  {hr : ∀ i, Kin (away i) fails base (r i)} {direction : Direction}

/-- A kept schema is taken, and otherwise what is composed is kept. -/
theorem run_expanded (cb : ClassSchema Inference) {o : Option Node}
    (h : result (keptSchema (d.key direction)) l = .ok o) :
    let rest := o.elim (composedSchema t s cb d direction >>= keepSchema (d.key direction)) pure
    result (expandedSchema t s cb d direction) l = result rest (after (keptSchema (d.key direction)) l) ∧
      after (expandedSchema t s cb d direction) l = after rest (after (keptSchema (d.key direction)) l) := by
  have h : result (liftM (keptSchema (schemaKey d.cls.qualifiedName direction)) : Inference (Option Node)) l = .ok o :=
    h
  unfold expandedSchema
  rw [result_bind, after_bind, h]
  cases o <;> exact ⟨rfl, rfl⟩

theorem run_expanded_off (cb : ClassSchema Inference) (h : l.cache.enabled = false)
    (hafter : (after (composedSchema t s cb d direction) l).cache.enabled = false) :
    result (expandedSchema t s cb d direction) l = result (composedSchema t s cb d direction) l ∧
      after (expandedSchema t s cb d direction) l = after (composedSchema t s cb d direction) l := by
  obtain ⟨hnone, hsame⟩ := Lockstep.keptSchema_off (d.key direction) h
  obtain ⟨hres, haft⟩ := run_expanded (t := t) (s := s) cb hnone
  rw [hres, haft, hsame, Option.elim_none, result_bind, after_bind]
  cases result (composedSchema t s cb d direction) l with
  | error p => exact ⟨rfl, rfl⟩
  | ok n => exact Lockstep.keepSchema_off _ n hafter

variable {L : (Option κ → Node) → Prop} {cb : Option κ → ClassSchema Inference} {d : Located}
  (hsound : base.Sound) (hd : Found base d)
  (hcomposed : (watched t s base r away fails hr).Rel
    (Sided L direction) fun i => composedSchema t s (cb i) d direction)
  (hsettled : ∀ l n, Alike base l → Stored t s l → result (composedSchema t s (cb none) d direction) l = .ok n →
    Settled t s (after (composedSchema t s (cb none) d direction) l) d direction n)

include hsound hd hcomposed hsettled

theorem new_rel : (watched t s base r away fails hr).Rel
    (Sided L direction) fun i =>
      composedSchema t s (cb i) d direction >>= keepSchema (d.key direction) := by
  refine hcomposed.keep (f := fun _ => keepSchema (d.key direction)) (fun _ n l => result_keepSchema _ n l)
    (fun i l n hl hn hl' => ?_) fun i n l hg => ?_
  · cases i with
    | none =>
      obtain ⟨v, ⟨hv, -⟩, rfl⟩ := (hcomposed.solo none l rfl hl).value n hn
      obtain ⟨c, hc, hm, -⟩ := after_keepSchema (d.key direction) (v none)
        (after (composedSchema t s (cb none) d direction) l)
      refine ⟨hl'.1.trans (hc ▸ alike_knowing hm), hl'.2.keep (hsound.alike hl'.1) (hd.alike hl'.1) (hv.worded none) ?_⟩
      exact hsettled l _ hl.1 hl.2 hn
    | some i =>
      have hsame := (Lockstep.keepSchema_off (d.key direction) n hl'.2).2
      exact hsame.symm ▸ hl'
  · cases i with
    | none => exact hg.imp fun _ h => h.keep _ n
    | some i => exact hg

theorem expanded_solo (hl : Alike base l ∧ Stored t s l) :
    (watched t s base r away fails hr).Solo none
      (fun n => ∃ v, Sided L direction v ∧ v none = n)
      (expandedSchema t s (cb none) d direction) l := by
  have hlearned := learned_keptSchema (d.key direction) l
  have hinv := (watched t s base r away fails hr).inv_learned (i := none) hl hlearned
  have hgone := fun hg => (watched t s base r away fails hr).gone_learned (i := none) hg hlearned
  cases ho : (l.cache.getSchema (d.key direction)).1 with
  | some n =>
    have hn : result (keptSchema (d.key direction)) l = .ok (some n) := congrArg Except.ok ho
    obtain ⟨hres, haft⟩ := run_expanded (t := t) (s := s) (cb none) hn
    refine ⟨haft.symm ▸ hinv, fun hg => haft.symm ▸ hgone hg, fun m hm => ?_⟩
    cases hres.symm.trans hm
    exact ⟨fun _ => n, ⟨.const (hl.2.worded (get?_of_keptSchema hn)), fun _ => ⟨_, fun _ => rfl⟩⟩, rfl⟩
  | none =>
    have hn : result (keptSchema (d.key direction)) l = .ok none := congrArg Except.ok ho
    obtain ⟨hres, haft⟩ := run_expanded (t := t) (s := s) (cb none) hn
    have hsolo := (new_rel hsound hd hcomposed hsettled).solo none _ rfl hinv
    exact ⟨haft.symm ▸ hsolo.inv, fun hg => haft.symm ▸ hsolo.gone (hgone hg), fun m hm => hsolo.value m (hres ▸ hm)⟩

theorem expanded_joint_new {ls : Option κ → Library}
    (hinv : ∀ i, (watched t s base r away fails hr).inv i (ls i))
    (ho : ((ls none).cache.getSchema (d.key direction)).1 = none) :
    (watched t s base r away fails hr).Escape ls (fun i => expandedSchema t s (cb i) d direction) ∨
      (watched t s base r away fails hr).Joint (Sided L direction) ls
        fun i => expandedSchema t s (cb i) d direction := by
  have hnone : ∀ i, result (keptSchema (d.key direction)) (ls i) = .ok none := by
    rintro (_ | i)
    · exact congrArg Except.ok ho
    · exact (Lockstep.keptSchema_off _ (hinv (some i)).2).1
  have hrun := fun i => run_expanded (t := t) (s := s) (cb i) (hnone i)
  have hjoint := (new_rel hsound hd hcomposed hsettled).joint
    (fun i => after (keptSchema (d.key direction)) (ls i))
    fun i => (watched t s base r away fails hr).inv_learned (hinv i) (learned_keptSchema _ _)
  rcases hjoint with (⟨i, hi, hf⟩ | ⟨i, hi, hg⟩) | hj
  · exact .inl (.inl ⟨i, hi, (hrun i).1.symm ▸ hf⟩)
  · exact .inl (.inr ⟨i, hi, (hrun i).2.symm ▸ hg⟩)
  · refine .inr ⟨fun i => (hrun i).2.symm ▸ hj.inv i, ?_⟩
    simpa only [(hrun _).1, Option.elim_none] using hj.value

/-- A class that is expanded. A kept schema is compared with what the other runs compose (`hkept`). -/
theorem expanded_rel
    (hkept : ∀ l n (ls : κ → Library), Alike base l → (∀ i name, away i name → l.cache.modules.has name = false) →
      n.hasPlaceholder = false → Settled t s l d direction n →
      (∀ i, Alike (r i) (ls i) ∧ (ls i).cache.enabled = false) →
      (∃ i, Fatal (result (composedSchema t s (cb (some i)) d direction) (ls i))) ∨
        ∃ m : κ → Node, (∀ i, result (composedSchema t s (cb (some i)) d direction) (ls i) = .ok (m i)) ∧
          Sided L direction (Lockstep.cons n m))
    (halone : ∀ i l, Alike (r i) l ∧ l.cache.enabled = false →
      Alike (r i) (after (composedSchema t s (cb (some i)) d direction) l) ∧
        (after (composedSchema t s (cb (some i)) d direction) l).cache.enabled = false) :
    (watched t s base r away fails hr).Rel (Sided L direction)
      fun i => expandedSchema t s (cb i) d direction := by
  refine ⟨?_, fun ls hinv => ?_⟩
  · rintro _ l rfl hl
    exact expanded_solo hsound hd hcomposed hsettled hl
  · cases ho : ((ls none).cache.getSchema (d.key direction)).1 with
    | some n =>
      have hn : result (keptSchema (d.key direction)) (ls none) = .ok (some n) := congrArg Except.ok ho
      have hget := get?_of_keptSchema hn
      have hlearned := learned_keptSchema (d.key direction) (ls none)
      have hoff := fun i =>
        run_expanded_off (t := t) (s := s) (cb (some i)) (hinv (some i)).2 (halone i _ (hinv (some i))).2
      obtain ⟨hres, haft⟩ := run_expanded (t := t) (s := s) (cb none) hn
      by_cases hgone : ∃ i, Touched (away i) (ls none)
      · refine .inl (.inr ⟨none, rfl, haft.symm ▸ ?_⟩)
        exact (watched t s base r away fails hr).gone_learned hgone hlearned
      · have hfar : ∀ i name, away i name → (ls none).cache.modules.has name = false := fun i name hname =>
          Bool.eq_false_iff.2 fun hloaded => hgone ⟨i, name, hname, hloaded⟩
        have hn := (hinv none).2.settled hget d direction (hd.alike (hinv none).1) rfl
        rcases hkept _ n (fun i => ls (some i)) (hinv none).1 hfar ((hinv none).2.unmarked hget) hn
          fun i => hinv (some i) with ⟨i, hf⟩ | ⟨m, hm, hshaped, hlevel⟩
        · exact .inl (.inl ⟨some i, trivial, (hoff i).1.symm ▸ hf⟩)
        · refine .inr ⟨?_, .inl ⟨Lockstep.cons n m, ⟨hshaped, hlevel⟩, ?_⟩⟩
          · rintro (_ | i)
            · exact haft.symm ▸ (watched t s base r away fails hr).inv_learned (hinv none) hlearned
            · exact (hoff i).2.symm ▸ halone i _ (hinv (some i))
          · rintro (_ | i)
            · exact hres
            · exact (hoff i).1.trans (hm i)
    | none => exact expanded_joint_new hsound hd hcomposed hsettled hinv ho

end

/-! ## The schema of a class -/

/-- Composing a class keeps no schema where the cache is off. -/
theorem composed_off (hl : Alike r l ∧ l.cache.enabled = false) (k : Nat) (guard : List String)
    (d : Located) (direction : Direction) :
    Alike r (after (composedSchema t s (classSchema t s k guard) d direction) l) ∧
      (after (composedSchema t s (classSchema t s k guard) d direction) l).cache.enabled = false := by
  have halone : (uncached (ι := Unit) r (fun _ => True) fun _ => True).Rel (Shaped fun _ => True) fun _ =>
      composedSchema t s (classSchema t s k guard) d direction :=
    Lockstep.composed_alone (fun d' _ => classSchema_alone t s direction k guard d') d
  exact (halone.solo () l trivial hl).inv

section

variable {base : Library} {direction : Direction} (hsound : base.Sound)
  (hplain : direction = .output → ∀ d, Found base d → PlainClass t s base d)

/-- The first run may nest `k` more classes, the others may nest `j`. -/
def classSchemas (t : Infer.Tables) (s : Settings) (k : Nat) (guard : List String) (j : Nat) (inside : List String) :
    Option κ → ClassSchema Inference :=
  Lockstep.cons (classSchema t s k guard) fun _ => classSchema t s j inside

/-- However many classes the other runs may nest, and whatever texts they have for modules that the first run has not
loaded, the schemas of a class agree up to placeholders. -/
def Agreeing (t : Infer.Tables) (s : Settings) (base : Library) (direction : Direction) (k : Nat)
    (guard : List String) : Prop :=
  ∀ (r : Bool → Library) away hr d, Found base d → ∀ j inside,
    (watched t s base r away True hr).Rel (Shaped Open) fun i =>
      classSchemas t s k guard j inside i d direction

theorem firm_classSchemas (k : Nat) (guard : List String) (j : Nat) (inside : List String) (i : Option κ) (d : Located)
    (direction : Direction) : Firm (classSchemas t s k guard j inside i d direction) := by
  cases i with
  | none => exact .classSchema t s k guard d direction
  | some i => exact .classSchema t s j inside d direction

section

variable (h : Agreeing t s base direction k guard) {r : Bool → Library} (hr : ∀ b, Kin (away b) True base (r b))
  (hd : Found base d) (j : Nat) (inside : List String)

include h hplain hd

theorem Agreeing.composed :
    (watched t s base r away True hr).Rel (Sided Open direction) fun i =>
      composedSchema t s (classSchemas t s k guard j inside i) d direction := by
  have hcomposed := Lockstep.composed_rel (𝓛 := watched t s base r away True hr) (t := t) (s := s)
    steady_open (firm_classSchemas k guard j inside) ⟨none, trivial⟩ (fun hdir => hplain hdir d hd) fun d' hd' =>
      h r away hr d' hd' j inside
  exact hcomposed.mono fun ns hns => ⟨hns.1, fun hdir => (hns.2 hdir).level⟩

/-- What is composed over a library whose schemas are settled is settled. -/
theorem Agreeing.settled (hl : Alike base l) (hstored : Stored t s l)
    (hn : result (composedSchema t s (classSchema t s k guard) d direction) l = .ok n) :
    Settled t s (after (composedSchema t s (classSchema t s k guard) d direction) l) d direction n := by
  intro j inside r hr
  choose away hkin hfar using fun b => (hr b).1
  have hself : ∀ _ : Bool, Kin (fun _ => False) True base base := fun _ => .of_alike (.refl base)
  have hinv := ((h.composed hplain hself hd j inside).solo none l rfl ⟨hl, hstored⟩).inv
  have hkin' : ∀ b, Kin (away b) True base (r b) := fun b => (hkin b).alike hinv.1.symm (.refl _)
  have hstates : ∀ i, (watched t s base r away True hkin').inv i (Lockstep.cons l r i) := by
    rintro (_ | b)
    · exact ⟨hl, hstored⟩
    · exact ⟨.refl _, (hr b).2⟩
  rcases (h.composed hplain hkin' hd j inside).joint _ hstates with (⟨i, -, hf⟩ | ⟨i, hi, hg⟩) | hj
  · cases i with
    | none =>
      obtain ⟨p, hp, -⟩ := hf
      cases hn.symm.trans hp
    | some b => exact .inl ⟨b, hf⟩
  · subst hi
    obtain ⟨b, name, hname, hloaded⟩ := hg
    exact absurd ((hfar b name hname).symm.trans hloaded) Bool.false_ne_true
  · rcases hj.value with ⟨v, ⟨hv, hlevel⟩, hres⟩ | ⟨p, hp⟩
    · have hcons : Lockstep.cons n (fun b => v (some b)) = v := by
        funext i
        cases i with
        | none => exact Except.ok.inj (hn.symm.trans (hres none))
        | some b => rfl
      exact .inr ⟨fun b => v (some b), fun b => hres (some b), hcons.symm ▸ hv, hcons.symm ▸ hlevel⟩
    · cases hn.symm.trans (hp none)

include hsound in
theorem Agreeing.expanded :
    (watched t s base r away True hr).Rel (Shaped Open) fun i =>
      expandedSchema t s (classSchemas t s k guard j inside i) d direction := by
  refine (expanded_rel hsound hd (h.composed hplain hr hd j inside) (fun l n hl hstored hn => ?_)
    (fun l n ls hl hfar hmark hn hls => ?_) fun b l hl => ?_).mono fun ns hns => hns.1
  · exact h.settled hplain hd hl hstored hn
  · exact hn j inside ls fun b => ⟨⟨away b, (hr b).alike hl (hls b).1, hfar b⟩, (hls b).2⟩
  · exact composed_off hl j inside d direction

end

/-- A placeholder of the first run agrees with whatever the others give. -/
theorem agreeing_of_first {r : Bool → Library} {hr : ∀ b, Kin (away b) True base (r b)}
    (hn : Marked n) (hw : n.Worded) (j : Nat) (inside : List String) (d : Located) :
    (watched t s base r away True hr).Rel (Shaped Open)
      (Lockstep.cons (pure n) fun _ => classSchema t s j inside d direction) where
  solo := by
    rintro _ l rfl hl
    exact ⟨hl, id, fun a ha => ⟨fun _ => n, .const hw, Except.ok.inj ha⟩⟩
  joint states hinv := by
    have halone :=
      fun b => (classSchema_alone t s direction j inside d).solo () (states (some b)) trivial (hinv (some b))
    by_cases hall : ∀ b, ∃ m, result (classSchema t s j inside d direction) (states (some b)) = .ok m
    · choose m hm using hall
      refine .inr ⟨?_, .inl ⟨Lockstep.cons n m, ⟨.leaf (.inl hn), ?_⟩, ?_⟩⟩
      · rintro (_ | b)
        · exact hinv none
        · exact (halone b).inv
      · rintro (_ | b)
        · exact hw
        · obtain ⟨v, hv, hvm⟩ := (halone b).value (m b) (hm b)
          change (m b).Worded
          exact hvm ▸ hv.worded ()
      · rintro (_ | b)
        · rfl
        · exact hm b
    · obtain ⟨b, hb⟩ := Classical.not_forall.1 hall
      cases hres : result (classSchema t s j inside d direction) (states (some b)) with
      | ok m => exact absurd ⟨m, hres⟩ hb
      | error p => exact .inl (.inl ⟨some b, trivial, p, hres, Firm.classSchema t s j inside d direction _ p hres⟩)

/-- A placeholder of both other runs agrees with whatever the first gives. -/
theorem agreeing_of_others {r : Bool → Library} {hr : ∀ b, Kin (away b) True base (r b)}
    (hn : Marked n) (hw : n.Worded) {x : Inference Node} (hfirm : Firm x)
    (hx : ∀ l, Alike base l ∧ Stored t s l → (watched t s base r away True hr).Solo none
      (fun a => ∃ v, Shaped Open v ∧ v none = a) x l) :
    (watched t s base r away True hr).Rel (Shaped Open) (Lockstep.cons x fun _ => pure n) where
  solo := by
    rintro _ l rfl hl
    exact hx l hl
  joint states hinv := by
    have hsolo := hx (states none) (hinv none)
    cases hres : result x (states none) with
    | error p => exact .inl (.inl ⟨none, trivial, p, hres, hfirm _ p hres⟩)
    | ok a =>
      obtain ⟨v, hv, hva⟩ := hsolo.value a hres
      refine .inr ⟨?_, .inl ⟨Lockstep.cons a fun _ => n, ⟨.leaf (.inr ⟨hn, rfl⟩), ?_⟩, ?_⟩⟩
      · rintro (_ | b)
        · exact hsolo.inv
        · exact hinv (some b)
      · rintro (_ | b)
        · exact hva ▸ hv.worded none
        · exact hw
      · rintro (_ | b)
        · exact hres
        · rfl

include hsound hplain in
theorem agreeing (k : Nat) (guard : List String) : Agreeing t s base direction k guard := by
  have hcons : ∀ k guard d j inside, (fun i => classSchemas t s k guard j inside i d direction) = Lockstep.cons
      (classSchema t s k guard d direction) fun _ : Bool => classSchema t s j inside d direction := by
    intro k guard d j inside
    funext i
    cases i <;> rfl
  induction k generalizing guard with
  | zero =>
    intro r away hr d hd j inside
    rcases classSchema_cases t s 0 guard d direction with ⟨n, hn, hmark, hw⟩ | ⟨_, h, _⟩
    · rw [hcons, hn]
      exact agreeing_of_first hmark hw j inside d
    · cases h
  | succ k ih =>
    intro r away hr d hd j inside
    rcases classSchema_cases t s (k + 1) guard d direction with ⟨n, hn, hmark, hw⟩ | ⟨k', hk, hn⟩
    · rw [hcons, hn]
      exact agreeing_of_first hmark hw j inside d
    · obtain rfl : k = k' := by omega
      have hboth := fun j inside => (ih (d.cls.qualifiedName :: guard)).expanded hsound hplain hr hd j inside
      rcases classSchema_cases t s j inside d direction with ⟨m, hm, hmark, hw⟩ | ⟨j', rfl, hm⟩
      · rw [hcons, hm]
        refine agreeing_of_others hmark hw (.classSchema t s _ _ d direction) fun l hl => ?_
        rw [hn]
        exact (hboth 0 []).solo none l rfl hl
      · have hall : (fun i : Option Bool => classSchemas t s (k + 1) guard (j' + 1) inside i d direction) = fun i =>
            expandedSchema t s (classSchemas t s k (d.cls.qualifiedName :: guard) j' (d.cls.qualifiedName :: inside) i)
              d direction := by
          funext i
          cases i with
          | none => exact hn
          | some b => exact hm
        rw [hall]
        exact hboth j' (d.cls.qualifiedName :: inside)

end

/-! ## Requests -/

/-- No operand in a body of the library is a class. -/
structure Tidy (t : Infer.Tables) (s : Settings) (l : Library) : Prop where
  classes : ∀ d, Found l d → PlainClass t s l d
  handlers : ∀ name subject f, result (readSubject name) l = .ok (some subject) → subject.function? = some f →
    PlainHandler t l subject f

/-- One run that keeps schemas. -/
def keeping (t : Infer.Tables) (s : Settings) (base : Library) : Lockstep Unit where
  base := base
  inv _ l := Alike base l ∧ Stored t s l
  sink _ := False
  solo _ := True
  gone _ _ := False
  inv_learned h hl := ⟨h.1.learned hl, h.2.learned hl⟩
  gone_learned h _ := h
  alone hx _ h ha := (hx.alike h.1).symm.trans ha
  agree hx hinv := .inr fun i => hx.alike (hinv i).1

theorem keeping_classSchema {base : Library} (hsound : base.Sound) (htidy : Tidy t s base) (k : Nat)
    (guard : List String) (direction : Direction) (hd : Found base d) :
    (keeping t s base).Rel (Shaped fun _ => True) fun _ => classSchema t s k guard d direction := by
  have hself : ∀ _ : Bool, Kin (fun _ => False) True base base := fun _ => .of_alike (.refl base)
  have hagree : Agreeing t s base direction k guard := agreeing hsound (fun _ => htidy.classes) k guard
  refine .of_solo fun l hl => ?_
  have hsolo := (hagree _ _ hself d hd 0 []).solo none l rfl hl
  refine ⟨hsolo.inv, nofun, fun n hn => ?_⟩
  obtain ⟨v, hv, rfl⟩ := hsolo.value n hn
  exact ⟨fun _ => v none, .const (hv.worded none), rfl⟩

/-- Answering a request keeps only settled schemas. -/
theorem stored_answer {base : Library} (hsound : base.Sound) (htidy : Tidy t s base) (hl : Alike base l ∧ Stored t s l)
    (q : Request) :
    Alike base (after (q.answer t s) l) ∧ Stored t s (after (q.answer t s) l) := by
  have hrel : (keeping t s base).Rel (Grown fun _ => True) fun _ => q.schema t s (outermost t s) :=
    Lockstep.schema_alone (fun d direction hd => keeping_classSchema hsound htidy _ _ direction hd) q
  rw [Request.after_answer]
  exact (hrel.solo () l trivial hl).inv

end ApiSchema
