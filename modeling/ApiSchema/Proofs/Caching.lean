import ApiSchema.Proofs.Kept
import Mathlib.Data.List.Nodup

/-!
# Answers with a cache

Requests are answered one after another, and schemas that were made for one are used for the next. Over plain bodies
an answer is then the one that a library without a cache gives, except that it may be larger: where the answer without
a cache has a placeholder, that with a cache may have a schema (`answer_extends_uncached`). So the answers are the same
as soon as the one without a cache has no placeholder.

They are not always the same (`answer_ne_uncached`). A kept schema is used where classes may not be nested that deep,
and a body that takes a placeholder apart makes a schema look complete that is not.
-/
namespace ApiSchema

open Source Infer

variable {t : Infer.Tables} {s : Settings}

/-! ## Truncated schemas -/

/-- The second schema of a family has a mark. -/
def Truncated (ns : Option Unit → Node) : Prop := Marked (ns (some ()))

theorem steady_truncated : Steady Truncated := fun _ _ hh hn => Marked.retouch hh hn

/-- The second schema is the first one, with placeholders for some of its parts. -/
def Node.Extends (n m : Node) : Prop := Grown Truncated (Lockstep.cons n fun _ => m)

theorem Node.Extends.eq {n m : Node} (h : n.Extends m) (hm : m.hasPlaceholder = false) : n = m := by
  have hL : Congruent fun ns : Option Unit → Node => (ns (some ())).Cut ∨ ns none = ns (some ()) :=
    (Congruent.eq none (some ())).orCut (some ())
  rcases h.collapse (L := fun ns : Option Unit → Node => (ns (some ())).Cut ∨ ns none = ns (some ())) hL.toFormed
    fun _ h => .inl h.cut with hcut | heq
  · exact absurd (hm.symm.trans hcut.hasPlaceholder) Bool.false_ne_true
  · exact heq

/-- A settled schema extends what other runs compose. -/
theorem extends_of_open {n : Node} {m : Bool → Node} (hn : n.hasPlaceholder = false)
    (h : Grown Open (Lockstep.cons n m)) : n.Extends (m false) := by
  have hpair : Congruent fun ns : Option Bool → Node =>
      Grown Truncated fun i : Option Unit => ns (i.map fun _ => false) :=
    (Grown.congruent steady_truncated).comp _
  have hsame : (fun i : Option Unit => Lockstep.cons n m (i.map fun _ => false)) = Lockstep.cons n
      fun _ => m false := by
    funext i
    cases i <;> rfl
  rcases h.collapse (L := fun ns : Option Bool → Node =>
      (ns none).Cut ∨ Grown Truncated fun i : Option Unit => ns (i.map fun _ => false)) (hpair.orCut none).toFormed
    (fun ns hns => hns.imp Marked.cut fun h => .leaf h.1) with hcut | hgrown
  · exact absurd (hn.symm.trans hcut.hasPlaceholder) Bool.false_ne_true
  · rw [Node.Extends, ← hsame]
    exact hgrown

/-! ## A run with a cache and one without -/

/-- A run that keeps schemas, and one over the same sources that keeps none. -/
def beside (t : Infer.Tables) (s : Settings) (base : Library) : Lockstep (Option Unit) :=
  watched t s base (fun _ => base) (fun _ _ => False) False fun _ => .of_alike (.refl base)

variable {base : Library} (hsound : base.Sound) (htidy : Tidy t s base)

include hsound htidy

/-- Both runs expand a class in the same place. The run that keeps schemas may have a larger one. -/
theorem beside_classSchema (direction : Direction) (k : Nat) (guard : List String) {d : Located} (hd : Found base d) :
    (beside t s base).Rel (Sided Truncated direction) fun _ =>
      classSchema t s k guard d direction := by
  refine classSchema_induct (P := fun d x => Found base d → (beside t s base).Rel
    (Sided Truncated direction) fun _ => x)
    (fun _ _ hw _ => .pure ⟨.const hw, fun _ => ⟨_, fun _ => rfl⟩⟩) (fun k guard ih d hd => ?_) k guard d hd
  have hagree : Agreeing t s base direction k guard := agreeing hsound (fun _ => htidy.classes) k guard
  have hcomposed := Lockstep.composed_rel (𝓛 := beside t s base) (t := t) (s := s) steady_truncated
    (fun _ d' direction => .classSchema t s k guard d' direction) ⟨some (), trivial⟩
    (fun _ => htidy.classes d hd) fun d' hd' => (ih d' hd').mono fun _ h => h.1
  refine expanded_rel hsound hd (hcomposed.mono fun ns hns => ⟨hns.1, fun hdir => (hns.2 hdir).level⟩)
    (fun l n hl hstored hres => hagree.settled (fun _ => htidy.classes) hd hl hstored hres)
    (fun l n ls hl _ hmark hsettled hls => ?_) fun _ l hl => composed_off hl k _ d direction
  have hsequel : Sequel l (ls ()) := .of_alike (hl.symm.trans (hls ()).1)
  rcases hsettled k guard (fun _ => ls ()) fun _ => ⟨hsequel, (hls ()).2⟩ with ⟨_, hf⟩ | ⟨m, hm, hshaped, hlevel⟩
  · exact .inl ⟨(), hf⟩
  · refine .inr ⟨fun _ => m false, fun _ => hm false, ⟨extends_of_open hmark hshaped.grown, ?_⟩, fun hdir => ?_⟩
    · rintro (_ | _)
      · exact hshaped.worded none
      · exact hshaped.worded (some false)
    · obtain ⟨b, hb⟩ := hlevel hdir
      refine ⟨b, ?_⟩
      rintro (_ | _)
      · exact hb none
      · exact hb (some false)

theorem beside_schema (q : Request) :
    (beside t s base).Rel (Grown Truncated) fun _ => q.schema t s (outermost t s) := by
  refine Lockstep.schema_rel (𝓛 := beside t s base) steady_truncated
    (fun _ d direction => .classSchema t s _ _ d direction)
    ⟨some (), trivial⟩ htidy.handlers (fun d hd => ?_) (fun d hd => ?_) q
  · exact (beside_classSchema hsound htidy .output _ _ hd).mono fun _ h => h.1
  · exact (beside_classSchema hsound htidy .input _ _ hd).mono fun _ h => ⟨h.1, h.2 rfl⟩

/-! ## Histories of requests -/

omit hsound htidy

theorem result_answer_ok {q : Request} {l : Library} {n : Node} (h : result (q.schema t s (outermost t s)) l = .ok n) :
    result (q.answer t s) l = finish s n := by
  rw [Request.answer_eq, result_bind, h]
  rfl

theorem result_answer_error {q : Request} {l : Library} {p : Problem}
    (h : result (q.schema t s (outermost t s)) l = .error p) : result (q.answer t s) l = .error p := by
  rw [Request.answer_eq, result_bind, h]

/-- The library after some requests. -/
def afterRequests (t : Infer.Tables) (s : Settings) (qs : List Request) (l : Library) : Library :=
  qs.foldl (fun l q => after (q.answer t s) l) l

include hsound htidy in
theorem stored_afterRequests {l : Library} (hl : Alike base l ∧ Stored t s l) (qs : List Request) :
    Alike base (afterRequests t s qs l) ∧ Stored t s (afterRequests t s qs l) := by
  induction qs generalizing l with
  | nil => exact hl
  | cons q qs ih => exact ih (stored_answer hsound htidy hl q)

/-- The library without anything that was read or kept, and without a cache. -/
def Library.uncached (l : Library) : Library := { l with cache := { enabled := false } }

/-- With an empty cache, a library is the one that is opened with such a cache. -/
theorem openLibrary_recached (s : Settings) (root : String) (files texts : Entries String) (enabled : Bool) :
    { openLibrary s root files texts with cache := { enabled } } =
      openLibrary { s with cacheEnabled := enabled } root files texts := by
  let recached (l : Library) : Library := { l with cache := { enabled } }
  have hindex : ∀ l, recached l.indexFolder = (recached l).indexFolder := by
    intro l
    refine (List.foldl_hom recached fun l parts => ?_).symm
    dsimp only
    split <;> rfl
  have htexts : ∀ l, recached (texts.foldl (fun l e => l.addText e.1 e.2) l) =
      texts.foldl (fun l e => l.addText e.1 e.2) (recached l) := fun l => (List.foldl_hom recached fun _ _ => rfl).symm
  have hfiles : ∀ l, recached (files.foldl (fun l e => l.writeFile e.1 e.2) l) =
      files.foldl (fun l e => l.writeFile e.1 e.2) (recached l) :=
        fun l => (List.foldl_hom recached fun _ _ => rfl).symm
  refine (htexts _).trans ?_
  rw [hindex, hfiles]
  rfl

theorem openLibrary_cache (s : Settings) (root : String) (files texts : Entries String) :
    (openLibrary s root files texts).cache = { enabled := s.cacheEnabled } :=
  congrArg Library.cache (openLibrary_recached s root files texts s.cacheEnabled).symm

theorem stored_of_empty {l : Library} (h : l.cache.schemas = []) : Stored t s l := by
  have hnone : ∀ {key n}, l.cache.schemas.get? key = some n → False := by
    intro key n hget
    rw [h] at hget
    cases hget
  exact ⟨fun h => (hnone h).elim, fun h => (hnone h).elim, fun h => (hnone h).elim, fun h => (hnone h).elim⟩

/-- The answer with a cache is the one without, or extends it. -/
def Completes (s : Settings) (cached fresh : Attempt Node) : Prop :=
  Fatal fresh ∨ cached = fresh ∨
    ∃ n m, cached = finish s n ∧ fresh = finish s m ∧ n.Extends m ∧ m.hasPlaceholder = true

theorem completes_answer {r : Library} (hr : r.cache = { enabled := true }) (hsound : r.Sound) (htidy : Tidy t s r)
    (qs : List Request) (q : Request) :
    Completes s (result (q.answer t s) (afterRequests t s qs r)) (result (q.answer t s) r.uncached) := by
  have hstart : Alike r r ∧ Stored t s r := ⟨.refl r, stored_of_empty (by rw [hr])⟩
  have hfresh : Alike r r.uncached := alike_knowing (c := { enabled := false }) (k := r.counts) (by rw [hr])
  have hstates : ∀ i, (beside t s r).inv i (Lockstep.cons (afterRequests t s qs r) (fun _ => r.uncached) i) := by
    rintro (_ | _)
    · exact stored_afterRequests hsound htidy hstart qs
    · exact ⟨hfresh, rfl⟩
  rcases (beside_schema hsound htidy q).joint _ hstates with (⟨_ | _, hi, p, hp, hfatal⟩ | ⟨_ | _, hi, hg⟩) | hj
  · exact hi.elim
  · have hp : result (q.schema t s (outermost t s)) r.uncached = .error p := hp
    exact .inl ⟨p, result_answer_error hp, hfatal⟩
  · obtain ⟨_, _, h, _⟩ := hg
    exact h.elim
  · exact hg.elim
  · right
    rcases hj.value with ⟨v, hv, hres⟩ | ⟨p, hp⟩
    · have hc := result_answer_ok (hres none)
      have hf := result_answer_ok (hres (some ()))
      have hextends : (v none).Extends (v (some ())) := by
        have hsame : Lockstep.cons (v none) (fun _ => v (some ())) = v := by
          funext i
          cases i <;> rfl
        rw [Node.Extends, hsame]
        exact hv
      cases hm : (v (some ())).hasPlaceholder with
      | false => exact .inl ((hc.trans (hextends.eq hm ▸ rfl)).trans hf.symm)
      | true => exact .inr ⟨v none, v (some ()), hc, hf, hextends, hm⟩
    · exact .inl ((result_answer_error (hp none)).trans (result_answer_error (hp (some ()))).symm)

/-- After any requests, the answer to another one is that of a library without a cache, or extends it. -/
theorem answer_extends_uncached (t : Infer.Tables) (s : Settings) (r : Library) (hr : r.cache = { enabled := true })
    (hsound : r.Sound) (htidy : Tidy t s r) (qs : List Request) (q : Request) :
    let cached := result (q.answer t s) (afterRequests t s qs r)
    let fresh := result (q.answer t s) r.uncached
    Fatal fresh ∨ cached = fresh ∨
      ∃ n m, cached = finish s n ∧ fresh = finish s m ∧ n.Extends m ∧ m.hasPlaceholder = true :=
  completes_answer hr hsound htidy qs q

/-- A library that is opened with a cache answers as the one that is opened without. -/
theorem answer_openLibrary (hs : s.cacheEnabled = true) (root : String) (files texts : Entries String)
    (htidy : Tidy t s (openLibrary s root files texts)) (qs : List Request) (q : Request) :
    Completes s (result (q.answer t s) (afterRequests t s qs (openLibrary s root files texts)))
      (result (q.answer t s) (openLibrary { s with cacheEnabled := false } root files texts)) := by
  have hcache : (openLibrary s root files texts).cache = { enabled := true } := by rw [openLibrary_cache, hs]
  rw [← openLibrary_recached s root files texts false]
  exact completes_answer hcache (sound_openLibrary s root files texts) htidy qs q

/-! ## Two libraries -/

theorem tidy_of_operandless {r : Library} (hr : Operandless r) : Tidy t s r where
  classes _ hd := plainClass_of_operandless hr hd
  handlers _ _ _ hname hf := plainHandler_of_operandless hr hname hf

/-- The class `B` is asked for before the `A` that has one. -/
theorem nested_answer_extends_uncached :
    let r := libraryOf nested true
    let s : Settings := { maxDepth := 2 }
    let cached := result (Request.answer {} s (.output "m.A")) (afterRequests {} s [.output "m.B"] r)
    let fresh := result (Request.answer {} s (.output "m.A")) r.uncached
    r.cache = { enabled := true } ∧ r.Sound ∧ Tidy {} s r ∧
      (Fatal fresh ∨ cached = fresh ∨
        ∃ n m, cached = finish s n ∧ fresh = finish s m ∧ n.Extends m ∧ m.hasPlaceholder = true) := by
  intro r s cached fresh
  have hsound : (Library.ofTexts [("m", .ok nested)]).Sound := sound_ofTexts (by decide +kernel)
  have htidy : Tidy {} s r := tidy_of_operandless (by decide +kernel)
  exact ⟨rfl, hsound, htidy, answer_extends_uncached {} s r rfl hsound htidy [.output "m.B"] (.output "m.A")⟩

/-- Whether a schema has a placeholder. -/
def isCut? (x : Attempt Node) : Option Bool := x.toOption.map Node.hasPlaceholder

/-- With a cache, `A` has the whole schema of the `B` that was asked for before, and without one it has no place for the
`C` in it. Where a body takes a placeholder apart, a schema is kept that the class has only inside of others. -/
theorem answer_ne_uncached :
    let s : Settings := { maxDepth := 2, synthesizeExamples := false }
    result (Request.answer {} s (.output "m.A")) (afterRequests {} s [.output "m.B"] (libraryOf nested true)) ≠
        result (Request.answer {} s (.output "m.A")) (libraryOf nested true).uncached ∧
      result (Request.answer {} s (.output "m.B")) (afterRequests {} s [.output "m.A"] (libraryOf unpacked true)) ≠
        result (Request.answer {} s (.output "m.B")) (libraryOf unpacked true).uncached := by
  intro s
  have hcached : isCut? (result (Request.answer {} s (.output "m.A")) (afterRequests {} s [.output "m.B"]
      (libraryOf nested true))) = some false := by decide +kernel
  have hfresh : isCut? (result (Request.answer {} s (.output "m.A")) (libraryOf nested true).uncached) = some true := by
    decide +kernel
  have hcached' : unmarkedWidth (result (Request.answer {} s (.output "m.B")) (afterRequests {} s [.output "m.A"]
      (libraryOf unpacked true))) = some 0 := by decide +kernel
  have hfresh' : unmarkedWidth (result (Request.answer {} s (.output "m.B")) (libraryOf unpacked true).uncached) =
      some 1 := by decide +kernel
  constructor
  · intro h
    rw [h, hfresh] at hcached
    cases hcached
  · intro h
    rw [h, hfresh'] at hcached'
    cases hcached'

end ApiSchema
