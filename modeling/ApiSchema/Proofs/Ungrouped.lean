import ApiSchema.Pattern.Sample
import ApiSchema.Proofs.Entries

/-!
# Patterns without groups

A match of a pattern without groups leaves no marks (`unmarked_run`), so it is never at odds with itself
(`fullMatch_of_ungrouped`). A text without an opening parenthesis writes such a pattern (`ungrouped_of_read`).
-/
namespace ApiSchema.Pattern

variable {o : Outcome} {p : Pattern} {r : Reader} {c : Char} {text : String} {cs : List Char}
  {ps : List Pattern}

/-- Whether a pattern has no group whose text can be referred to. -/
def ungrouped : Pattern → Bool
  | .seq a b | .either a b => ungrouped a && ungrouped b
  | .times _ _ _ body => ungrouped body
  | .group _ _ => false
  | .ahead _ body | .behind _ body | .atomic body => ungrouped body
  | .ifGroup _ yes no => ungrouped yes && ungrouped no
  | _ => true

/-! ## Matches -/

/-- No group has left a mark. -/
def Outcome.Unmarked : Outcome → Prop
  | .matched p => p.marks = []
  | .failed t => t.marks = []

theorem Outcome.Unmarked.orElse {f : Trace → Outcome} (ho : o.Unmarked)
    (hf : ∀ t : Trace, t.marks = [] → (f t).Unmarked) : (o.orElse f).Unmarked := by
  cases o with
  | matched p => exact ho
  | failed t => exact hf t ho

theorem Outcome.Unmarked.noting (ho : o.Unmarked) (index : Nat) : (o.noting index).Unmarked :=
  ho.orElse fun _ ht => ht

theorem Context.marks_setBack (c : Context) (t : Trace) : (c.setBack [] t).marks = [] := by
  unfold setBack
  split <;> simp

theorem Outcome.Unmarked.undo (ho : o.Unmarked) (c : Context) : (c.undo [] o).Unmarked :=
  ho.orElse fun t _ => c.marks_setBack t

namespace Place

@[simp]
theorem marks_advance (p : Place) : p.advance.marks = p.marks := by
  unfold advance
  split <;> rfl

@[simp]
theorem marks_retreat (p : Place) : p.retreat.marks = p.marks := by
  unfold retreat
  split <;> rfl

@[simp]
theorem marks_back (n : Nat) (p : Place) : (p.back n).marks = p.marks := by
  induction n generalizing p with
  | zero => rfl
  | succ n ih => rw [back, ih, marks_retreat]

@[simp]
theorem marks_forth (n : Nat) (p : Place) : (p.forth n).marks = p.marks := by
  induction n generalizing p with
  | zero => rfl
  | succ n ih => rw [forth, ih, marks_advance]

@[simp]
theorem marks_moveTo (n : Nat) (p : Place) : (p.moveTo n).marks = p.marks := by
  unfold moveTo
  split <;> simp

@[simp]
theorem marks_note (p : Place) : p.note.marks = p.marks := rfl

end Place

theorem marks_takeSet (s : CharSet) (most : Option Nat) (n : Nat) (cs : List Char) (p : Place) :
    (takeSet s most n cs p).2.marks = p.marks := by
  fun_induction takeSet s most n cs p with
  | case1 => rfl
  | case2 most n c rest p _ ih => rw [ih, Place.marks_advance]
  | case3 => rfl

theorem marks_takeText {f : Folding} {p q : Place} (h : takeText f cs p = some q) :
    q.marks = p.marks := by
  fun_induction takeText f cs p with
  | case1 =>
    cases h
    rfl
  | case2 c cs p d rest _ _ ih => rw [ih h, Place.marks_advance]
  | case3 | case4 => cases h

section

variable {c : Context} {k : Next} {p : Place}

section

variable (hk : ∀ q : Place, q.marks = [] → (k q).Unmarked)

include hk

theorem unmarked_giveBack (n : Nat) (hp : p.marks = []) :
    (giveBack c [] k n p).Unmarked := by
  have hhere : ∀ p : Place, p.marks = [] → (if c.next.isSome && p.after.head?.map Char.toNat != c.next then
      .failed p.toTrace else c.undo [] (k p.note) : Outcome).Unmarked := by
    intro p hp
    split
    · exact hp
    · exact (hk p.note hp).undo c
  induction n generalizing p with
  | zero =>
    unfold giveBack
    exact hhere p hp
  | succ n ih =>
    unfold giveBack
    exact (hhere p hp).orElse fun t ht => ih ht

theorem unmarked_takeMore (more : Bool) (n : Nat) (hp : p.marks = []) :
    (takeMore c [] more k n p).Unmarked := by
  induction n generalizing p with
  | zero =>
    unfold takeMore
    refine ((hk p.note hp).orElse fun t ht => ?_).noting p.index
    cases more
    · exact ht
    · exact c.marks_setBack t
  | succ n ih =>
    unfold takeMore
    exact (hk p.note hp).orElse fun t _ => ih (c.marks_setBack t)

theorem unmarked_runSet (greed : Greed) (least : Nat) (most : Option Nat) (s : CharSet) (hp : p.marks = []) :
    (runSet c greed least most s p k).Unmarked := by
  have hq := marks_takeSet s most 0 p.after p
  unfold runSet
  rw [hp] at hq ⊢
  dsimp only
  split
  · exact hp
  split
  · exact hp
  cases greed with
  | greedy => exact unmarked_giveBack hk _ hq
  | lazy => exact unmarked_takeMore hk _ _ ((Place.marks_back _ _).trans hq)
  | possessive => exact hk _ hq

theorem unmarked_look (hp : p.marks = []) (negated : Bool) (o : Outcome) :
    o.Unmarked → (match o with
      | .matched q => if negated then .failed q.note.toTrace else k { p with toTrace := q.note.toTrace }
      | .failed t =>
        if negated then k { p with toTrace := c.setBack p.marks t } else .failed t : Outcome).Unmarked := by
  intro ho
  cases o with
  | matched q =>
    cases negated with
    | true => exact ho
    | false => exact hk _ ho
  | failed t =>
    cases negated with
    | true =>
      rw [hp]
      exact hk _ (c.marks_setBack t)
    | false => exact ho

end

/-- A pattern that leaves no marks if what follows it leaves none. -/
def Ways.Unmarked (w : Ways) : Prop :=
  ∀ (p : Place) (k : Next), p.marks = [] → (∀ q : Place, q.marks = [] → (k q).Unmarked) → (w p k).Unmarked

variable {body : Ways}

theorem unmarked_greedyLoop (hbody : Ways.Unmarked body) (fuel least : Nat) (most last : Option Nat) :
    Ways.Unmarked (greedyLoop body fuel least most last) := by
  induction fuel generalizing least most last with
  | zero => exact fun p k hp hk => hp
  | succ fuel ih =>
    intro p k hp hk
    unfold greedyLoop
    refine Outcome.Unmarked.noting ?_ _
    split
    · exact hbody _ _ hp fun q hq => ih _ _ _ q k hq hk
    split
    · exact (hbody p.note _ hp fun q hq => ih _ _ _ q k hq hk).orElse fun _ _ => hk p.note hp
    · exact hk p.note hp

theorem unmarked_lazyLoop (hbody : Ways.Unmarked body) (fuel least : Nat) (most last : Option Nat) :
    Ways.Unmarked (lazyLoop c body fuel least most last) := by
  induction fuel generalizing least most last with
  | zero => exact fun p k hp hk => hp
  | succ fuel ih =>
    intro p k hp hk
    unfold lazyLoop
    refine Outcome.Unmarked.noting ?_ _
    split
    · exact hbody _ _ hp fun q hq => ih _ _ _ q k hq hk
    refine (hk p.note hp).orElse fun t _ => ?_
    have ht : (c.setBack p.note.marks t).marks = [] := by
      rw [Place.marks_note, hp]
      exact c.marks_setBack t
    dsimp only
    split
    · exact hbody _ _ ht fun q hq => ih _ _ _ q k hq hk
    · exact ht

theorem unmarked_possessiveLoop (hbody : Ways.Unmarked body) (start fuel least : Nat) (most last : Option Nat) :
    Ways.Unmarked (possessiveLoop body start fuel least most last) := by
  induction fuel generalizing least most last with
  | zero => exact fun p k hp hk => hp
  | succ fuel ih =>
    intro p k hp hk
    unfold possessiveLoop
    dsimp only
    split
    · exact hk _ hp
    have hfirst := hbody p.note .matched hp fun q hq => hq
    split
    · rename_i q hq
      rw [hq] at hfirst
      exact ih _ _ _ q k hfirst hk
    · rename_i t ht
      rw [ht] at hfirst
      split
      · exact hk _ ((Place.marks_moveTo _ _).trans hp)
      · exact hfirst

theorem unmarked_loop {body : Context → Ways} (hbody : ∀ c, Ways.Unmarked (body c)) (greed : Greed) (fuel least : Nat)
    (most : Option Nat) : Ways.Unmarked (loop c greed body fuel least most) := by
  intro p k hp hk
  cases greed with
  | greedy => exact unmarked_greedyLoop (hbody _) _ _ _ _ p k hp hk
  | lazy => exact unmarked_lazyLoop (hbody _) _ _ _ _ p k hp hk
  | possessive => exact unmarked_possessiveLoop (hbody _) _ _ _ _ _ p k hp hk

end

theorem unmarked_run {pattern : Pattern} (h : pattern.ungrouped = true) (c : Context) :
    Ways.Unmarked (run pattern c) := by
  induction pattern generalizing c with
  | empty => exact fun p k hp hk => hk p hp
  | set s =>
    intro p k hp hk
    unfold run
    split
    · split
      · exact hk _ ((Place.marks_advance p).trans hp)
      · exact hp
    · exact hp
  | seq a b iha ihb =>
    obtain ⟨ha, hb⟩ := Bool.and_eq_true_iff.1 h
    exact fun p k hp hk => iha ha _ p _ hp fun q hq => ihb hb c q k hq hk
  | either a b iha ihb =>
    obtain ⟨ha, hb⟩ := Bool.and_eq_true_iff.1 h
    intro p k hp hk
    unfold run
    rw [hp]
    refine Outcome.Unmarked.orElse ?_ fun t ht => ?_
    · split
      · exact hp
      · exact (iha ha c.inner p.note k hp hk).undo c
    · dsimp only
      split
      · exact ht
      split
      · exact ihb hb _ _ k ht hk
      · exact (ihb hb _ _ k ht hk).undo c
  | times greed least most body ih =>
    intro p k hp hk
    unfold run
    split
    · exact unmarked_runSet hk _ _ _ _ hp
    · exact unmarked_loop (fun c => ih h c) _ _ _ _ p k hp hk
  | group i body => cases h
  | reference i f least most =>
    intro p k hp hk
    unfold run
    split
    · rename_i q hq
      obtain ⟨text, -, htext⟩ := Option.bind_eq_some_iff.1 hq
      exact hk q ((marks_takeText htext).trans hp)
    · exact hp
  | anchor a =>
    intro p k hp hk
    unfold run
    split
    · exact hk p hp
    · exact hp
  | ahead negated body ih =>
    intro p k hp hk
    unfold run
    exact unmarked_look hk hp negated _ (ih h c.inner p.note .matched hp fun q hq => hq)
  | behind negated body ih =>
    intro p k hp hk
    unfold run
    dsimp only
    split
    · split
      · exact hk p hp
      · exact hp
    · have hback := (Place.marks_back body.width.1 p).trans hp
      exact unmarked_look hk hp negated _ (ih h c.inner (p.back body.width.1).note .matched hback fun q hq => hq)
  | atomic body ih =>
    intro p k hp hk
    have hbody := ih h c.inner p.note .matched hp fun q hq => hq
    unfold run
    split
    · rename_i q hq
      rw [hq] at hbody
      exact hk q.note hbody
    · rename_i t ht
      rw [ht] at hbody
      exact hbody
  | ifGroup i yes no ihyes ihno =>
    obtain ⟨hyes, hno⟩ := Bool.and_eq_true_iff.1 h
    intro p k hp hk
    unfold run
    split
    · exact ihyes hyes _ p k hp hk
    · exact ihno hno _ p k hp hk

theorem fullMatch_of_ungrouped {pattern : Pattern} (h : pattern.ungrouped = true) (text : String) :
    ∃ b, pattern.fullMatch text = .ok b := by
  have hrun := unmarked_run h {} { after := text.toList }
    (fun q => if q.after.isEmpty then .matched q else .failed q.toTrace) rfl fun q hq => by
      split <;> exact hq
  unfold fullMatch
  split
  · rename_i q hq
    rw [hq] at hrun
    have hmarks : q.marks = [] := hrun
    rw [hmarks]
    exact ⟨true, rfl⟩
  · exact ⟨false, rfl⟩

/-! ## Patterns from parts -/

/-- What holds of some patterns holds of them in order, if it holds of any two in a row. -/
theorem inOrder_induction {P : Pattern → Prop} (hempty : P .empty) (hseq : ∀ p q, P p → P q → P (.seq p q))
    (h : ∀ p ∈ ps, P p) : P (inOrder ps) := by
  fun_induction inOrder ps with
  | case1 => exact hempty
  | case2 p => exact h p List.mem_cons_self
  | case3 p ps _ ih => exact hseq p _ (h p List.mem_cons_self) (ih (List.forall_mem_cons.1 h).2)

theorem ungrouped_ofItems (h : ∀ p ∈ ps, p.ungrouped = true) : (ofItems ps).ungrouped = true :=
  inOrder_induction (P := (·.ungrouped = true)) rfl (fun _ _ hp hq => Bool.and_eq_true_iff.2 ⟨hp, hq⟩) fun p hp =>
    h p (List.mem_filter.1 hp).1

theorem ungrouped_eitherOf (h : ∀ p ∈ ps, p.ungrouped = true) : (eitherOf ps).ungrouped = true := by
  fun_induction eitherOf ps with
  | case1 => rfl
  | case2 p => exact h p List.mem_cons_self
  | case3 p ps _ ih =>
    exact Bool.and_eq_true_iff.2 ⟨h p List.mem_cons_self, ih (List.forall_mem_cons.1 h).2⟩

theorem ungrouped_split {first rest : Pattern} (h : split p = some (first, rest)) (hp : p.ungrouped = true) :
    first.ungrouped = true ∧ rest.ungrouped = true := by
  fun_induction split p generalizing first rest with
  | case1 => cases h
  | case2 a b first' ha iha =>
    cases h
    obtain ⟨hpa, hpb⟩ := Bool.and_eq_true_iff.1 hp
    exact ⟨(iha ha hpa).1, hpb⟩
  | case3 a b first' rest' _ ha iha =>
    cases h
    obtain ⟨hpa, hpb⟩ := Bool.and_eq_true_iff.1 hp
    exact ⟨(iha ha hpa).1, Bool.and_eq_true_iff.2 ⟨(iha ha hpa).2, hpb⟩⟩
  | case4 a b _ _ ihb => exact ihb h (Bool.and_eq_true_iff.1 hp).2
  | case5 p =>
    cases h
    exact ⟨hp, rfl⟩

theorem ungrouped_commonStart (n : Nat) (h : ∀ p ∈ ps, p.ungrouped = true) :
    (∀ p ∈ (commonStart n ps).1, p.ungrouped = true) ∧ ∀ p ∈ (commonStart n ps).2, p.ungrouped = true := by
  induction n generalizing ps with
  | zero => exact ⟨by simp [commonStart], h⟩
  | succ n ih =>
    unfold commonStart
    split
    · rename_i first rest others hsplit
      have hparts : ∀ x ∈ (first, rest) :: others, x.1.ungrouped = true ∧ x.2.ungrouped = true := fun x hx =>
        let ⟨p, hp, hx⟩ := (exists_of_forall₂ (mapM_eq_some_iff.1 hsplit)).2 x hx
        ungrouped_split hx (h p hp)
      split
      · have hrests : ∀ p ∈ rest :: others.map (·.2), p.ungrouped = true := by
          intro p hp
          change p ∈ ((first, rest) :: others).map (·.2) at hp
          obtain ⟨x, hx, rfl⟩ := List.mem_map.1 hp
          exact (hparts x hx).2
        obtain ⟨hstart, hrest⟩ := ih hrests
        refine ⟨fun p hp => ?_, hrest⟩
        rcases List.mem_cons.1 hp with rfl | hp
        · exact (hparts _ List.mem_cons_self).1
        · exact hstart p hp
      · exact ⟨by simp, h⟩
    · exact ⟨by simp, h⟩

theorem ungrouped_ofChoices (h : ∀ p ∈ ps, p.ungrouped = true) : (ofChoices ps).ungrouped = true := by
  unfold ofChoices
  split
  · rfl
  · exact h _ List.mem_cons_self
  · rename_i p ps _
    obtain ⟨hstart, hrests⟩ := ungrouped_commonStart p.length h
    refine ungrouped_ofItems fun q hq => ?_
    rcases List.mem_append.1 hq with hq | hq
    · exact hstart q hq
    · rw [List.mem_singleton.1 hq]
      split
      · rfl
      · exact ungrouped_eitherOf hrests

/-! ## Patterns from texts -/

/-- Whether every group that is to come starts as one without a mark of its own. -/
def loose : List Mark → Bool
  | [] => true
  | m :: rest =>
    (m != .plain '(' || rest.take 2 == [.plain '?', .plain ':'] && (rest.drop 2).head? != some .dangling) && loose rest

theorem loose_tail {ms : List Mark} (h : loose ms = true) : loose ms.tail = true := by
  cases ms with
  | nil => rfl
  | cons m rest => exact (Bool.and_eq_true_iff.1 h).2

theorem loose_of_not_mem {ms : List Mark} (h : Mark.plain '(' ∉ ms) : loose ms = true := by
  induction ms with
  | nil => rfl
  | cons m rest ih =>
    obtain ⟨hm, hrest⟩ := not_or.1 (mt List.mem_cons.2 h)
    exact Bool.and_eq_true_iff.2 ⟨by simp [Ne.symm hm], ih hrest⟩

def Reader.Flat (r : Reader) : Prop := loose r.marks = true

theorem Reader.Flat.exists_of_open (h : r.Flat) (hopen : r.marks.head? = some (.plain '(')) :
    ∃ rest, r.marks = .plain '(' :: .plain '?' :: .plain ':' :: rest ∧ rest.head? ≠ some .dangling ∧
      Flat { r with marks := rest } := by
  obtain ⟨ms, hms⟩ := List.head?_eq_some_iff.1 hopen
  unfold Flat at h ⊢
  rw [hms, loose, Bool.and_eq_true_iff] at h
  obtain ⟨htake, hdrop⟩ : ms.take 2 = [.plain '?', .plain ':'] ∧ (ms.drop 2).head? ≠ some .dangling := by
    simpa using h.1
  refine ⟨ms.drop 2, ?_, hdrop, ?_⟩
  · rw [hms, ← List.take_append_drop 2 ms, htake]
    simp
  · rw [← List.tail_drop, List.drop_one]
    exact loose_tail (loose_tail h.2)

namespace Read

/-- Where no group can start, none can start afterwards, and what is read has a property. -/
def Keeps {α : Type} (x : Read α) (P : α → Prop) : Prop :=
  ∀ (r : Reader) (a : α) (r' : Reader), r.Flat → x r = .ok (a, r') → r'.Flat ∧ P a

/-- Where no group can start, none can start afterwards. -/
abbrev Stays {α : Type} (x : Read α) : Prop := Keeps x fun _ => True

namespace Keeps

variable {α β : Type} {x : Read α} {f : α → Read β} {P : α → Prop} {Q : β → Prop}

theorem pure {a : α} (h : P a) : Keeps (Pure.pure a) P := by
  intro r b r' hr hx
  cases hx
  exact ⟨hr, h⟩

theorem bind (hx : Keeps x P) (hf : ∀ a, P a → Keeps (f a) Q) : Keeps (x >>= f) Q := by
  intro r b r' hr h
  cases hxr : x r with
  | error e =>
    simp only [Bind.bind, StateT.bind, hxr] at h
    cases h
  | ok y =>
    simp only [Bind.bind, StateT.bind, hxr] at h
    obtain ⟨hflat, hP⟩ := hx r y.1 y.2 hr hxr
    exact hf y.1 hP y.2 b r' hflat h

theorem error (e : ReadError) : Keeps (throw e : Read α) P := by
  intro r b r' hr h
  cases h

theorem check {c : Prop} [Decidable c] {e : ReadError} {f : Unit → Read β} (hf : Keeps (f ()) Q) :
    Keeps (if c then throw e >>= f else f ()) Q := by
  split
  · exact (Keeps.error (P := fun _ => True) e).bind fun _ _ => hf
  · exact hf

theorem ite {c : Prop} [Decidable c] {y : Read α} (hx : Keeps x P) (hy : Keeps y P) : Keeps (if c then x else y) P := by
  split
  · exact hx
  · exact hy

theorem get : Keeps (get : Read Reader) Reader.Flat := by
  intro r b r' hr h
  cases h
  exact ⟨hr, hr⟩

theorem modify {g : Reader → Reader} (hg : ∀ r, r.Flat → (g r).Flat) : Stays (modify g : Read PUnit) := by
  intro r b r' hr h
  cases h
  exact ⟨hg r hr, trivial⟩

end Keeps

theorem keeps_fail {α : Type} {P : α → Prop} : Keeps (fail : Read α) P := .error .malformed

theorem stays_pure {α : Type} {a : α} : Stays (pure a) := .pure trivial

theorem stays_peek : Stays peek := Keeps.get.bind fun _ _ => .pure trivial

theorem Keeps.afterPeek {β : Type} {f : Option Mark → Read β} {Q : β → Prop} {r' : Reader} {b : β} (hr : r.Flat)
    (h : (peek >>= f) r = .ok (b, r')) (hf : Keeps (f r.marks.head?) Q) : r'.Flat ∧ Q b :=
  hf r b r' hr h

theorem stays_advance : Stays advance :=
  Keeps.get.bind fun _ hr => .check (.modify fun _ _ => loose_tail hr)

theorem stays_next : Stays next :=
  stays_peek.bind fun _ _ => stays_advance.bind fun _ _ => .pure trivial

theorem stays_accept (c : Char) : Stays (accept c) :=
  stays_peek.bind fun _ _ => .ite (stays_advance.bind fun _ _ => .pure trivial) (.pure trivial)

theorem stays_takeUpTo (p : Char → Bool) (n : Nat) : Stays (takeUpTo p n) := by
  induction n with
  | zero => exact .pure trivial
  | succ n ih =>
    refine stays_peek.bind fun m _ => ?_
    split
    · exact .ite (stays_advance.bind fun _ _ => ih.bind fun _ _ => .pure trivial) (.pure trivial)
    · exact .pure trivial

theorem stays_takeAll (p : Char → Bool) : Stays (takeAll p) := Keeps.get.bind fun _ _ => stays_takeUpTo p _

theorem stays_nameUntil (closing : Char) (n : Nat) : Stays (nameUntil closing n) := by
  induction n with
  | zero => exact keeps_fail
  | succ n ih =>
    refine stays_next.bind fun m _ => ?_
    cases m with
    | none => exact keeps_fail
    | some m => exact .ite (.pure trivial) (ih.bind fun _ _ => .pure trivial)

theorem stays_nonEmptyName (closing : Char) : Stays (nonEmptyName closing) :=
  Keeps.get.bind fun _ _ => (stays_nameUntil _ _).bind fun _ _ => .check (.pure trivial)

theorem stays_expect (c : Char) : Stays (expect c) :=
  (stays_accept c).bind fun _ _ => .ite (.pure trivial) keeps_fail

theorem stays_namedEscape : Stays namedEscape := by
  refine (stays_expect _).bind fun _ _ => Keeps.get.bind fun r _ => ?_
  refine (stays_nonEmptyName _).bind fun name _ => ?_
  split
  · exact .pure trivial
  · exact keeps_fail

theorem stays_hexEscape (count : Nat) : Stays (hexEscape count) :=
  (stays_takeUpTo _ _).bind fun _ _ => .check (.pure trivial)

theorem stays_plainEscape (c : Char) : Stays (plainEscape c) := by
  unfold plainEscape
  split
  · exact stays_namedEscape
  · exact stays_hexEscape 2
  · exact stays_hexEscape 4
  · exact stays_hexEscape 8
  · exact .ite keeps_fail (.pure trivial)

theorem stays_setEscape (ascii : Bool) (c : Char) : Stays (setEscape ascii c) := by
  unfold setEscape
  split
  · exact .pure trivial
  · exact .pure trivial
  · refine .ite ?_ ?_
    · exact (stays_takeUpTo _ _).bind fun _ _ => .check (.pure trivial)
    · exact (stays_plainEscape c).bind fun _ _ => .pure trivial

theorem stays_checkReference (i : Nat) : Stays (checkReference i) := by
  refine Keeps.get.bind fun r _ => ?_
  split
  · exact .ite keeps_fail (.pure trivial)
  · exact .pure trivial

theorem keeps_referenceTo (o : Options) (i : Nat) : Keeps (referenceTo o i) (·.ungrouped = true) := by
  refine Keeps.get.bind fun r _ => ?_
  split
  · exact (stays_checkReference i).bind fun _ _ => .pure rfl
  · exact keeps_fail

theorem keeps_escape (o : Options) (c : Char) : Keeps (escape o c) (·.pattern.ungrouped = true) := by
  unfold escape
  split
  · exact .pure rfl
  · exact .pure rfl
  · exact .pure rfl
  · exact .pure rfl
  · exact (stays_takeUpTo _ _).bind fun _ _ => .pure rfl
  split
  · exact .pure rfl
  · exact .pure rfl
  refine .ite ((stays_takeUpTo _ _).bind fun ds _ => ?_) ((stays_plainEscape c).bind fun _ _ => .pure rfl)
  split
  · refine stays_peek.bind fun m _ => ?_
    dsimp only
    split
    all_goals
      refine stays_pure.bind fun third _ => .ite ?_ ?_
      · exact (stays_takeUpTo _ _).bind fun _ _ => .check (.pure rfl)
      · exact (keeps_referenceTo _ _).bind fun _ h => .pure h
  · exact (keeps_referenceTo _ _).bind fun _ h => .pure h

theorem stays_setItem (o : Options) (m : Mark) : Stays (setItem o m) := by
  cases m with
  | plain c => exact .pure trivial
  | escaped c => exact stays_setEscape _ c
  | dangling => exact keeps_fail

theorem stays_setItems (o : Options) (n : Nat) (items : List SetItem) : Stays (setItems o n items) := by
  induction n generalizing items with
  | zero => exact keeps_fail
  | succ n ih =>
    refine stays_next.bind fun m _ => ?_
    split
    · exact keeps_fail
    refine .ite (.pure trivial) ((stays_setItem _ _).bind fun first _ => (stays_accept _).bind fun dash _ => ?_)
    refine .ite (stays_next.bind fun m' _ => ?_) (ih _)
    split
    · exact keeps_fail
    refine .ite (.pure trivial) ((stays_setItem _ _).bind fun last _ => ?_)
    split
    · exact .ite keeps_fail (ih _)
    · exact keeps_fail

theorem keeps_setPiece (o : Options) : Keeps (setPiece o) (·.pattern.ungrouped = true) :=
  (stays_accept _).bind fun _ _ => Keeps.get.bind fun _ _ => (stays_setItems _ _ _).bind fun _ _ => .pure rfl

theorem stays_repeatNumber (digits : List Char) : Stays (repeatNumber digits) :=
  .ite (.pure trivial) (.check (.check (.pure trivial)))

/-- The end of braces, after the numbers are taken. -/
def bracesEnd (low high : List Char) (start : Reader) : Read (Option (Nat × Option Nat)) := do
  if ← accept '\x7d' then
    let least := (← repeatNumber low).getD 0
    let most ← repeatNumber high
    if most.any (· < least) then fail
    return some (least, most)
  else
    modify fun _ => start
    return none

theorem stays_braces : Stays braces := by
  refine Keeps.get.bind fun start hstart => stays_peek.bind fun _ _ => .ite (.pure trivial) ?_
  refine (stays_takeAll _).bind fun low _ => (stays_accept _).bind fun comma _ => ?_
  have hrest : ∀ high : List Char, Stays (bracesEnd low high start) := by
    intro high
    refine (stays_accept _).bind fun closed _ => .ite ?_ ?_
    · exact (stays_repeatNumber _).bind fun _ _ => (stays_repeatNumber _).bind fun _ _ => .check (.pure trivial)
    · exact (Keeps.modify fun _ _ => hstart).bind fun _ _ => .pure trivial
  exact .ite ((stays_takeAll _).bind fun high _ => hrest high) (stays_pure.bind fun high _ => hrest high)

theorem stays_greed : Stays greed :=
  (stays_accept _).bind fun _ _ => .ite (.pure trivial)
    ((stays_accept _).bind fun _ _ => .ite (.pure trivial) (.pure trivial))

theorem keeps_repeated (least : Nat) (most : Option Nat) {ps : List Piece} (h : ∀ p ∈ ps, p.pattern.ungrouped = true) :
    Keeps (repeated least most ps) fun qs => ∀ q ∈ qs, q.pattern.ungrouped = true := by
  unfold repeated
  split
  · rename_i p rest
    refine .check (stays_greed.bind fun _ _ => .pure ?_)
    exact List.forall_mem_cons.2 (List.forall_mem_cons.1 h)
  · exact keeps_fail

theorem stays_skipLine (n : Nat) : Stays (skipLine n) := by
  induction n with
  | zero => exact .pure trivial
  | succ n ih =>
    refine stays_next.bind fun m _ => ?_
    split
    · exact .pure trivial
    · exact .ite (.pure trivial) ih

section

variable {sequence : SequenceReader} (hsequence : ∀ whole o, Keeps (sequence whole o) (·.ungrouped = true))
include hsequence

theorem keeps_moreChoices (top : Bool) (o : Options) (n : Nat) {acc : List Pattern}
    (h : ∀ p ∈ acc, p.ungrouped = true) :
    Keeps (moreChoices sequence top o n acc) fun ps => ∀ p ∈ ps, p.ungrouped = true := by
  induction n generalizing acc with
  | zero => exact keeps_fail
  | succ n ih =>
    refine (stays_accept _).bind fun _ _ => .ite (Keeps.get.bind fun r _ => ?_) (.pure h)
    refine (hsequence _ _).bind fun p hp => ih fun q hq => ?_
    rcases List.mem_append.1 hq with hq | hq
    · exact h q hq
    · exact List.mem_singleton.1 hq ▸ hp

theorem keeps_choices (top : Bool) (o : Options) : Keeps (choices sequence top o) (·.ungrouped = true) := by
  refine (hsequence _ _).bind fun first hfirst => Keeps.get.bind fun _ _ => ?_
  exact (keeps_moreChoices hsequence _ _ _ (by simpa using hfirst)).bind fun ps hps => .pure (ungrouped_ofChoices hps)

end

theorem keeps_sequence {bound : Nat} {whole : Bool} {o : Options}
    (h : Keeps (pieces bound whole o []) fun qs => ∀ q ∈ qs, q.pattern.ungrouped = true) :
    Keeps (sequence bound whole o) (·.ungrouped = true) := by
  refine h.bind fun qs hqs => .pure (ungrouped_ofItems fun p hp => ?_)
  obtain ⟨q, hq, rfl⟩ := List.mem_map.1 hp
  exact hqs q (List.mem_reverse.1 hq)

section

variable {α β : Type} {r : Reader} {rest : List Mark}

theorem bind_of_ok {x : Read α} {a : α} {r' : Reader} (h : x r = .ok (a, r')) (f : α → Read β) :
    (x >>= f) r = f a r' := by
  simp only [Bind.bind, StateT.bind, h, Except.bind]

theorem bind_of_error {x : Read α} {e : ReadError} (h : x r = .error e) (f : α → Read β) : (x >>= f) r = .error e := by
  simp only [Bind.bind, StateT.bind, h, Except.bind]

/-- A reader that goes on with other characters. -/
abbrev before (r : Reader) (ms : List Mark) : Reader := { r with marks := ms }

theorem peek_eq (ms : List Mark) : peek (before r ms) = .ok (ms.head?, before r ms) := rfl

theorem advance_eq (m : Mark) (h : rest.head? ≠ some .dangling) :
    advance (before r (m :: rest)) = .ok ((), before r rest) :=
  (bind_of_ok rfl _).trans (congrFun (if_neg (by simpa using h)) _)

theorem next_eq (m : Mark) (h : rest.head? ≠ some .dangling) :
    next (before r (m :: rest)) = .ok (some m, before r rest) :=
  (bind_of_ok rfl _).trans (bind_of_ok (advance_eq m h) _)

theorem accept_self (c : Char) (h : rest.head? ≠ some .dangling) :
    accept c (before r (.plain c :: rest)) = .ok (true, before r rest) :=
  (bind_of_ok rfl _).trans ((congrFun (if_pos (by simp)) _).trans (bind_of_ok (advance_eq _ h) _))

theorem accept_of_ne (h : r.marks.head? ≠ some (.plain c)) : accept c r = .ok (false, r) :=
  (bind_of_ok rfl _).trans (congrFun (if_neg (by simpa using h)) _)

end

/-- A group or an option that comes next, with the pieces after it. -/
def afterGroup (n : Nat) (whole : Bool) (o : Options) (acc : List Piece) (start : Opening) : Read (List Piece) := do
  match ← groupPiece (sequence n) o start with
  | some p => pieces n whole o (p :: acc)
  | none => pieces n whole o acc

theorem pieces_open {n : Nat} {whole : Bool} {o : Options} {acc : List Piece} {rest : List Mark}
    (hrest : rest.head? ≠ some .dangling) :
    pieces (n + 1) whole o acc (before r (.plain '(' :: .plain '?' :: .plain ':' :: rest)) =
      afterGroup n whole o acc (.plain o) (before r rest) := by
  have hblank : ¬ (o.verbose && isVerboseBlank '(') = true := by simp [isVerboseBlank]
  have hcomment : ¬ (o.verbose && '(' == '#') = true := by simp
  have hopening : opening o (before r (.plain '?' :: .plain ':' :: rest)) = .ok (.plain o, before r rest) := by
    refine (bind_of_ok rfl _).trans ((bind_of_ok (accept_self '?' (by simp)) _).trans ?_)
    exact (congrFun (if_pos rfl) _).trans (bind_of_ok (next_eq _ hrest) _)
  refine (bind_of_ok (peek_eq _) _).trans ((congrFun (if_neg (by decide)) _).trans ?_)
  refine (bind_of_ok (advance_eq _ (by simp)) _).trans ((congrFun (if_neg hblank) _).trans ?_)
  exact (congrFun (if_neg hcomment) _).trans (bind_of_ok hopening _)

theorem keeps_pieces (n : Nat) (whole : Bool) (o : Options) {acc : List Piece}
    (h : ∀ p ∈ acc, p.pattern.ungrouped = true) :
    Keeps (pieces n whole o acc) fun qs => ∀ q ∈ qs, q.pattern.ungrouped = true := by
  induction n generalizing whole o acc with
  | zero => exact keeps_fail
  | succ n ih =>
    have hone : ∀ {p : Piece}, p.pattern.ungrouped = true →
        Keeps (pieces n whole o (p :: acc)) fun qs => ∀ q ∈ qs, q.pattern.ungrouped = true :=
      fun hp => ih _ _ (List.forall_mem_cons.2 ⟨hp, h⟩)
    have hgroup : Keeps (afterGroup n whole o acc (.plain o)) fun qs => ∀ q ∈ qs, q.pattern.ungrouped = true := by
      have hpiece : Keeps (groupPiece (sequence n) o (.plain o)) (·.all (·.pattern.ungrouped)) :=
        (keeps_choices (fun whole o => keeps_sequence (ih whole o (by simp))) false o).bind fun _ hbody =>
          (stays_expect _).bind fun _ _ => .pure hbody
      refine hpiece.bind fun p hp => ?_
      cases p with
      | some p => exact hone hp
      | none => exact ih _ _ h
    intro r qs r' hr hrun
    by_cases hopen : r.marks.head? = some (.plain '(')
    · obtain ⟨rest, hmarks, hrest, hflat⟩ := hr.exists_of_open hopen
      refine hgroup (before r rest) qs r' hflat ((pieces_open hrest).symm.trans ?_)
      rwa [← hmarks]
    refine Keeps.afterPeek (Q := fun qs => ∀ q ∈ qs, q.pattern.ungrouped = true) hr hrun ?_
    generalize r.marks.head? = m at hopen
    split
    · exact .pure h
    · exact keeps_fail
    · exact stays_advance.bind fun _ _ => (keeps_escape o _).bind fun p hp => hone hp
    refine .ite (.pure h) (stays_advance.bind fun _ _ => .ite (ih _ _ h) (.ite ?_ ?_))
    · exact Keeps.get.bind fun _ _ => (stays_skipLine _).bind fun _ _ => ih _ _ h
    split
    · exact (keeps_setPiece o).bind fun p hp => hone hp
    · exact (keeps_repeated _ _ h).bind fun qs hqs => ih _ _ hqs
    · exact (keeps_repeated _ _ h).bind fun qs hqs => ih _ _ hqs
    · exact (keeps_repeated _ _ h).bind fun qs hqs => ih _ _ hqs
    · refine stays_braces.bind fun bounds _ => ?_
      split
      · exact (keeps_repeated _ _ h).bind fun qs hqs => ih _ _ hqs
      · exact hone rfl
    · exact hone rfl
    · exact hone rfl
    · exact hone rfl
    · exact absurd rfl hopen
    · exact hone rfl

theorem keeps_pattern (bound : Nat) : Keeps (pattern bound) (·.ungrouped = true) :=
  (keeps_choices (fun _ _ => keeps_sequence (keeps_pieces _ _ _ (by simp))) _ _).bind fun _ hp =>
    Keeps.get.bind fun _ _ =>
    .check (.check (.check (.check (.check (.pure hp)))))

end Read

theorem mem_of_mem_marks (h : Mark.plain c ∈ marks cs) : c ∈ cs := by
  fun_induction marks cs with
  | case1 => cases h
  | case2 _ _ d more ih | case3 => simp_all
  | case4 d rest _ ih =>
    rcases List.mem_cons.1 h with h | h
    · cases h
      exact List.mem_cons_self
    · exact List.mem_cons_of_mem _ (ih h)

theorem ungrouped_of_read {characters : Characters} (h : read text characters = .ok p)
    (htext : loose (marks text.toList) = true) : p.ungrouped = true := by
  unfold read at h
  dsimp only at h
  split at h
  · cases h
  · cases hrun : (Read.pattern ((marks text.toList).length + 1)).run { marks := marks text.toList, characters } with
    | error e => rw [hrun] at h; cases h
    | ok y =>
      rw [hrun] at h
      cases h
      exact (Read.keeps_pattern _ { marks := marks text.toList, characters } _ _ htext hrun).2

/-! ## Examples of patterns -/

theorem mem_bodyOf (h : c ∈ cs) (hstart : c ≠ '^') (hend : c ≠ '$') : c ∈ bodyOf cs := by
  have hinner : c ∈ (if cs.head? == some '^' then cs.tail else cs) := by
    split
    · rename_i hhead
      cases cs with
      | nil => cases h
      | cons d rest =>
        obtain rfl : d = '^' := by simpa using hhead
        exact (List.mem_cons.1 h).resolve_left hstart
    · exact h
  unfold bodyOf
  dsimp only
  split
  · exact hinner
  · rename_i rest _ hlast
    rw [← List.mem_reverse, hlast] at hinner
    exact List.mem_reverse.2 ((List.mem_cons.1 hinner).resolve_left hend)
  · exact hinner

theorem loose_of_build? {sample : String} {samples : Entries String}
    (h : build? text samples = .ok (some sample)) : loose (marks text.toList) = true := by
  refine loose_of_not_mem fun hmark => ?_
  have hmem := mem_of_mem_marks hmark
  have hbody := mem_bodyOf hmem (by decide) (by decide)
  unfold build? at h
  rw [if_pos (List.any_eq_true.2 ⟨_, hbody, rfl⟩)] at h
  cases h

theorem ungrouped_of_known {k : Known} (hk : knownPatterns.get? text = some k)
    {characters : Characters} (hp : read text characters = .ok p) : p.ungrouped = true := by
  have hall : ∀ key ∈ knownPatterns.keys, loose (marks key.toList) = true := by decide +kernel
  exact ungrouped_of_read hp (hall text (Entries.get?_isSome_iff.1 (by rw [hk]; rfl)))

theorem firstMatch?_of_ungrouped (h : p.ungrouped = true) (texts : List String) :
    ∃ found, firstMatch? p texts = .ok found := by
  induction texts with
  | nil => exact ⟨none, rfl⟩
  | cons text texts ih =>
    obtain ⟨b, hb⟩ := fullMatch_of_ungrouped h text
    unfold firstMatch?
    rw [hb]
    cases b with
    | true => exact ⟨some text, rfl⟩
    | false => exact ih

end ApiSchema.Pattern
