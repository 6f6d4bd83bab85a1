import ApiSchema.Proofs.Ungrouped

/-!
# Matches of flat patterns

A flat pattern is a row of sets, greedy repetitions of sets and conditions on a place. What such a pattern can
take is a relation between the texts around two places (`Reaches`): it knows of no order in which ways are
tried, of no trace and of no character that is looked ahead at. The matcher succeeds exactly if there is a way
(`succeeds_run`), so a flat pattern matches a whole text exactly if it can take all of it
(`fullMatch_eq_true_iff`).
-/
namespace ApiSchema.Pattern

/-! ## What a pattern can take -/

/-- The text around a place. -/
structure Spot where
  before : List Char := []
  after : List Char

def Place.spot (p : Place) : Spot := ⟨p.before, p.after⟩

/-- Some characters lead from one spot to another. -/
def Spot.Crosses (s : Spot) (cs : List Char) (t : Spot) : Prop :=
  s.after = cs ++ t.after ∧ t.before = cs.reverse ++ s.before

/-- Some characters of a set, as many as a repetition asks for. -/
structure Repeats (s : CharSet) (least : Nat) (most : Option Nat) (cs : List Char) : Prop where
  least_le : least ≤ cs.length
  le_most : ∀ m ∈ most, cs.length ≤ m
  has : ∀ c ∈ cs, s.has c = true

/-- The spots that a flat pattern can reach from another. -/
def Reaches : Pattern → Spot → Spot → Prop
  | .empty, s, t => t = s
  | .set u, s, t => ∃ c, u.has c = true ∧ s.Crosses [c] t
  | .seq a b, s, t => ∃ m, Reaches a s m ∧ Reaches b m t
  | .times _ least most (.set u), s, t => ∃ cs, Repeats u least most cs ∧ s.Crosses cs t
  | .anchor a, s, t => t = s ∧ anchorHolds a { before := s.before, after := s.after } = true
  | _, _, _ => False

def isFlat : Pattern → Bool
  | .empty => true
  | .set s => s.folding == .exact
  | .seq a b => isFlat a && isFlat b
  | .times .greedy _ _ (.set _) | .anchor _ => true
  | _ => false

theorem ungrouped_of_isFlat {p : Pattern} (h : p.isFlat = true) : p.ungrouped = true := by
  fun_induction isFlat p with
  | case3 a b iha ihb =>
    obtain ⟨ha, hb⟩ := Bool.and_eq_true_iff.1 h
    exact Bool.and_eq_true_iff.2 ⟨iha ha, ihb hb⟩
  | case6 => cases h
  | _ => rfl

/-! ## Success -/

def Outcome.Succeeds : Outcome → Prop
  | .matched _ => True
  | .failed _ => False

theorem Outcome.succeeds_orElse {o : Outcome} {f : Trace → Outcome} {P : Prop} (hf : ∀ t, (f t).Succeeds ↔ P) :
    (o.orElse f).Succeeds ↔ o.Succeeds ∨ P := by
  cases o with
  | matched p => simp [orElse, Succeeds]
  | failed t => exact (hf t).trans (or_iff_right id).symm

theorem Context.succeeds_undo (c : Context) (before : List (Option Nat)) (o : Outcome) :
    (c.undo before o).Succeeds ↔ o.Succeeds := by
  cases o <;> exact Iff.rfl

/-- What follows succeeds exactly at some spots. -/
def Next.Accepts (k : Next) (good : Spot → Prop) : Prop := ∀ p : Place, (k p).Succeeds ↔ good p.spot

/-- Before each of some spots stands the character that comes next. -/
def Expects (next : Option Nat) (good : Spot → Prop) : Prop :=
  ∀ n ∈ next, ∀ s, good s → s.after.head?.map Char.toNat = some n

/-! ## Places -/

namespace Place

theorem spot_retreat_congr {p q : Place} (h : p.spot = q.spot) : p.retreat.spot = q.retreat.spot := by
  obtain ⟨hbefore, hafter⟩ := Spot.mk.inj h
  unfold retreat
  rw [hbefore]
  split
  · exact congrArg (Spot.mk _ <| List.cons _ ·) hafter
  · exact h

theorem spot_back_congr {p q : Place} (h : p.spot = q.spot) (n : Nat) : (p.back n).spot = (q.back n).spot := by
  induction n generalizing p q with
  | zero => exact h
  | succ n ih => exact ih (spot_retreat_congr h)

/-- The trace plays no part in where a place is. -/
theorem spot_back_trace (p : Place) (t : Trace) (n : Nat) : (back n { p with toTrace := t }).spot = (p.back n).spot :=
  @spot_back_congr { p with toTrace := t } p rfl n

theorem crosses_advance {p : Place} {c : Char} {rest : List Char} (h : p.after = c :: rest) :
    p.spot.Crosses [c] p.advance.spot := by
  unfold advance
  rw [h]
  exact ⟨h, rfl⟩

theorem spot_retreat_advance {p : Place} (h : p.after ≠ []) : p.advance.retreat.spot = p.spot := by
  obtain ⟨c, rest, hc⟩ := List.exists_cons_of_ne_nil h
  simp only [advance, retreat, spot, hc]

theorem crosses_forth {n : Nat} {p : Place} (h : n ≤ p.after.length) :
    p.spot.Crosses (p.after.take n) (p.forth n).spot := by
  induction n generalizing p with
  | zero => exact ⟨rfl, rfl⟩
  | succ n ih =>
    cases hp : p.after with
    | nil => simp [hp] at h
    | cons c rest =>
      obtain ⟨hafter, hbefore⟩ := crosses_advance hp
      have hrest : p.advance.after = rest := by
        rw [show p.spot.after = c :: rest from hp] at hafter
        exact (List.cons.inj hafter).2.symm
      obtain ⟨hafter', hbefore'⟩ := @ih p.advance (by simpa [hrest, hp] using h)
      rw [hrest] at hafter' hbefore'
      refine ⟨hp.trans ?_, hbefore'.trans ?_⟩
      · exact congrArg (c :: ·) (hrest.symm.trans hafter')
      · rw [hbefore, List.take_succ_cons]
        simp

theorem forth_succ (n : Nat) (p : Place) : p.forth (n + 1) = (p.forth n).advance := by
  induction n generalizing p with
  | zero => rfl
  | succ n ih => exact ih p.advance

theorem spot_back_forth {n i : Nat} {p : Place} (hn : n ≤ p.after.length) (hi : i ≤ n) :
    ((p.forth n).back i).spot = (p.forth (n - i)).spot := by
  induction i generalizing n with
  | zero => rfl
  | succ i ih =>
    obtain ⟨n, rfl⟩ : ∃ m, n = m + 1 := ⟨n - 1, by omega⟩
    have hne : (p.forth n).after ≠ [] := by
      have hlength := congrArg List.length (crosses_forth (Nat.le_of_succ_le hn)).1
      simp only [spot, List.length_append, List.length_take] at hlength
      exact List.ne_nil_of_length_pos (by omega)
    rw [forth_succ, back, spot_back_congr (spot_retreat_advance hne), ih (by omega) (by omega)]
    congr 2
    omega

end Place

/-- A spot is reached by going forth as far as its characters are many. -/
theorem Spot.Crosses.eq_forth {p : Place} {cs : List Char} {t : Spot} (h : p.spot.Crosses cs t) :
    t = (p.forth cs.length).spot ∧ cs = p.after.take cs.length ∧ cs.length ≤ p.after.length := by
  have hafter : p.after = cs ++ t.after := h.1
  have hle : cs.length ≤ p.after.length := by simp [hafter]
  have htake : p.after.take cs.length = cs := by simp [hafter]
  obtain ⟨hforth, hback⟩ := Place.crosses_forth hle
  rw [htake] at hforth hback
  have ht : t.after = (p.forth cs.length).spot.after := List.append_cancel_left (h.1.symm.trans hforth)
  have hb : t.before = (p.forth cs.length).spot.before := h.2.trans hback.symm
  refine ⟨?_, htake.symm, hle⟩
  cases t
  exact congr (congrArg Spot.mk hb) ht

/-! ## Repeated characters -/

/-- The characters that a greedy repetition takes first. -/
def longest (s : CharSet) (most : Option Nat) (cs : List Char) : List Char :=
  most.elim (cs.takeWhile s.has) (cs.takeWhile s.has).take

theorem takeSet_eq (s : CharSet) (most : Option Nat) (n : Nat) (cs : List Char) (p : Place) :
    takeSet s most n cs p = (n + (longest s most cs).length, p.forth (longest s most cs).length) := by
  fun_induction takeSet s most n cs p with
  | case1 most n p => cases most <;> simp [longest, Place.forth]
  | case2 most n c rest p h ih =>
    obtain ⟨hmost, hc⟩ := Bool.and_eq_true_iff.1 h
    have hlongest : longest s most (c :: rest) = c :: longest s (fewer most) rest := by
      cases most with
      | none => simp [longest, fewer, hc]
      | some m =>
        cases m with
        | zero => simp at hmost
        | succ m => simp [longest, fewer, hc]
    rw [ih, hlongest, List.length_cons, Place.forth]
    congr 1
    omega
  | case3 most n c rest p h =>
    have hlongest : longest s most (c :: rest) = [] := by
      cases most with
      | none => simp_all [longest]
      | some m =>
        cases m with
        | zero => simp [longest]
        | succ m => simp_all [longest]
    rw [hlongest]
    rfl

theorem longest_isPrefix (s : CharSet) (most : Option Nat) (cs : List Char) : longest s most cs <+: cs := by
  cases most with
  | none => exact List.takeWhile_prefix _
  | some m => exact (List.take_prefix _ _).trans (List.takeWhile_prefix _)

theorem all_takeWhile_iff (p : Char → Bool) (cs : List Char) (j : Nat) (hj : j ≤ cs.length) :
    (∀ c ∈ cs.take j, p c = true) ↔ j ≤ (cs.takeWhile p).length := by
  induction cs generalizing j with
  | nil => simpa using hj
  | cons c cs ih =>
    cases j with
    | zero => simp
    | succ j =>
      have hrest := ih j (Nat.le_of_succ_le_succ hj)
      rw [List.take_succ_cons, List.forall_mem_cons, hrest]
      cases hc : p c <;> simp [hc]

/-- A repetition that starts as the text does is no longer than the longest one. -/
theorem repeats_take_iff {s : CharSet} {least : Nat} {most : Option Nat} {cs : List Char} {j : Nat}
    (hj : j ≤ cs.length) :
    Repeats s least most (cs.take j) ↔ least ≤ j ∧ j ≤ (longest s most cs).length := by
  have hlength : (cs.take j).length = j := List.length_take_of_le hj
  have hall := all_takeWhile_iff s.has cs j hj
  have hlongest : j ≤ (longest s most cs).length ↔ (∀ m ∈ most, j ≤ m) ∧ j ≤ (cs.takeWhile s.has).length := by
    cases most with
    | none => simp [longest]
    | some m =>
      rw [longest, Option.elim_some, List.length_take, Nat.le_min]
      simp
  rw [hlongest, ← hall]
  refine ⟨fun h => ⟨hlength ▸ h.least_le, fun m hm => hlength ▸ h.le_most m hm, h.has⟩, ?_⟩
  rintro ⟨hleast, hmost, hhas⟩
  exact ⟨hlength.symm ▸ hleast, fun m hm => hlength.symm ▸ hmost m hm, hhas⟩

section

variable {c : Context} {k : Next} {good : Spot → Prop}

/-- Giving back passes over a place only where what follows would fail. -/
theorem succeeds_giveBack (hk : k.Accepts good) (hc : Expects c.next good) (before : List (Option Nat)) (n : Nat)
    (p : Place) : (giveBack c before k n p).Succeeds ↔ ∃ i ≤ n, good (p.back i).spot := by
  have hhere : ∀ p : Place, (if c.next.isSome && p.after.head?.map Char.toNat != c.next then
      .failed p.toTrace else c.undo before (k p.note) : Outcome).Succeeds ↔ good p.spot := by
    intro p
    split
    · rename_i h
      obtain ⟨hsome, hne⟩ := Bool.and_eq_true_iff.1 h
      obtain ⟨x, hx⟩ := Option.isSome_iff_exists.1 hsome
      refine ⟨False.elim, fun hgood => bne_iff_ne.1 hne ?_⟩
      exact (hc x hx p.spot hgood).trans hx.symm
    · exact (c.succeeds_undo before _).trans (hk p.note)
  induction n generalizing p with
  | zero =>
    unfold giveBack
    refine (hhere p).trans ⟨fun h => ⟨0, Nat.le_refl 0, h⟩, ?_⟩
    rintro ⟨i, hi, h⟩
    obtain rfl := Nat.le_zero.1 hi
    exact h
  | succ n ih =>
    have hearlier : ∀ t, (giveBack c before k n { p.retreat with toTrace := t }).Succeeds ↔
        ∃ i ≤ n, good (p.retreat.back i).spot := by
      intro t
      refine (ih _).trans (exists_congr fun i => and_congr_right fun _ => iff_of_eq (congrArg good ?_))
      exact Place.spot_back_trace p.retreat t i
    unfold giveBack
    rw [Outcome.succeeds_orElse hearlier, hhere]
    constructor
    · rintro (h | ⟨i, hi, h⟩)
      · exact ⟨0, Nat.zero_le _, h⟩
      · exact ⟨i + 1, Nat.succ_le_succ hi, h⟩
    · rintro ⟨i, hi, h⟩
      cases i with
      | zero => exact .inl h
      | succ i => exact .inr ⟨i, Nat.le_of_succ_le_succ hi, h⟩

theorem succeeds_runSet (hk : k.Accepts good) (hc : Expects c.next good) (least : Nat) (most : Option Nat) (s : CharSet)
    (p : Place) : (runSet c .greedy least most s p k).Succeeds ↔
      ∃ t, (∃ cs, Repeats s least most cs ∧ p.spot.Crosses cs t) ∧ good t := by
  have hle : (longest s most p.after).length ≤ p.after.length := (longest_isPrefix s most p.after).length_le
  -- A way is told by how many characters it takes.
  have hways : (∃ t, (∃ cs, Repeats s least most cs ∧ p.spot.Crosses cs t) ∧ good t) ↔
      ∃ j, (least ≤ j ∧ j ≤ (longest s most p.after).length) ∧ good (p.forth j).spot := by
    constructor
    · rintro ⟨t, ⟨cs, hcs, hcross⟩, hgood⟩
      obtain ⟨rfl, htake, hlength⟩ := hcross.eq_forth
      rw [htake] at hcs
      exact ⟨cs.length, (repeats_take_iff hlength).1 hcs, hgood⟩
    · rintro ⟨j, hj, hgood⟩
      have hlength := Nat.le_trans hj.2 hle
      exact ⟨_, ⟨_, (repeats_take_iff hlength).2 hj, Place.crosses_forth hlength⟩, hgood⟩
  rw [hways]
  unfold runSet
  rw [takeSet_eq]
  dsimp only
  rw [Nat.zero_add]
  split
  · exact ⟨False.elim, fun ⟨j, hj, _⟩ => by omega⟩
  split
  · exact ⟨False.elim, fun ⟨j, hj, _⟩ => by omega⟩
  rw [succeeds_giveBack hk hc]
  simp only [Place.spot_back_trace (p.forth _) ⟨p.index, _⟩]
  constructor
  · rintro ⟨i, hi, hgood⟩
    refine ⟨(longest s most p.after).length - i, by omega, ?_⟩
    rw [← Place.spot_back_forth hle (by omega)]
    exact hgood
  · rintro ⟨j, hj, hgood⟩
    refine ⟨(longest s most p.after).length - j, by omega, ?_⟩
    have hback := Place.spot_back_forth (i := (longest s most p.after).length - j) hle (by omega)
    rw [Nat.sub_sub_self hj.2] at hback
    rw [hback]
    exact hgood

end

/-! ## Runs -/

theorem eq_of_single? {s : CharSet} {n : Nat} {c : Char} (hs : s.folding = .exact) (h : s.single? = some n)
    (hc : s.has c = true) : c.toNat = n := by
  obtain ⟨items, negated, folding⟩ := s
  unfold CharSet.single? at h
  split at h
  · rename_i m hitems hnegated
    dsimp only at hs hitems hnegated h
    subst hs hitems hnegated
    split at h
    · cases h
    · cases h
      simpa [CharSet.has, SetItem.has, Folding.same, Folding.equivalents, Folding.fold] using hc
  · cases h

/-- The character that a flat pattern starts with comes next wherever the pattern and what follows succeed. -/
theorem expects_firstChar? {p : Pattern} (hp : p.isFlat = true) {next : Option Nat} {good : Spot → Prop}
    (hnext : Expects next good) : Expects (firstChar? next p) fun s => ∃ t, Reaches p s t ∧ good t := by
  fun_induction isFlat p generalizing next good with
  | case1 =>
    rintro n hn s ⟨t, ht, hgood⟩
    obtain rfl : t = s := ht
    exact hnext n hn t hgood
  | case2 set =>
    rintro n hn s ⟨t, ⟨c, hc, hcross⟩, -⟩
    rw [hcross.1, ← eq_of_single? (beq_iff_eq.1 hp) hn hc]
    rfl
  | case3 a b iha ihb =>
    obtain ⟨ha, hb⟩ := Bool.and_eq_true_iff.1 hp
    rintro n hn s ⟨t, ⟨m, hm, ht⟩, hgood⟩
    exact iha ha (ihb hb hnext) n hn s ⟨m, hm, t, ht, hgood⟩
  | case4 | case5 => rintro n ⟨⟩
  | case6 => cases hp

/-- The matcher finds a way that what follows accepts exactly if there is one. -/
theorem succeeds_run {p : Pattern} (hp : p.isFlat = true) {c : Context} {k : Next} {good : Spot → Prop}
    (hk : k.Accepts good) (hc : Expects c.next good) :
    Next.Accepts (fun q => run p c q k) fun s => ∃ t, Reaches p s t ∧ good t := by
  fun_induction isFlat p generalizing c k good with
  | case1 =>
    intro q
    exact (hk q).trans ⟨fun h => ⟨_, rfl, h⟩, fun ⟨t, ht, h⟩ => ht ▸ h⟩
  | case2 set =>
    intro q
    dsimp only
    unfold run
    split
    · rename_i d rest hafter
      have hcross := Place.crosses_advance hafter
      -- The next character is the only one that can be taken.
      have honly : ∀ x t, q.spot.Crosses [x] t → x = d ∧ t = q.advance.spot := by
        intro x t hx
        obtain ⟨ht, htake, -⟩ := hx.eq_forth
        rw [hafter] at htake
        exact ⟨(List.cons.inj htake).1, ht⟩
      split
      · rename_i hd
        refine (hk q.advance).trans ⟨fun h => ⟨_, ⟨d, hd, hcross⟩, h⟩, ?_⟩
        rintro ⟨t, ⟨x, -, hx⟩, hgood⟩
        exact (honly x t hx).2 ▸ hgood
      · rename_i hd
        refine ⟨False.elim, ?_⟩
        rintro ⟨t, ⟨x, hset, hx⟩, -⟩
        exact hd ((honly x t hx).1 ▸ hset)
    · rename_i hafter
      refine ⟨False.elim, ?_⟩
      rintro ⟨t, ⟨x, -, hx⟩, -⟩
      exact List.cons_ne_nil _ _ (hx.1.symm.trans hafter)
  | case3 a b iha ihb =>
    obtain ⟨ha, hb⟩ := Bool.and_eq_true_iff.1 hp
    intro q
    refine (iha ha (ihb hb hk hc) (expects_firstChar? hb hc) q).trans ?_
    constructor
    · rintro ⟨m, hm, t, ht, hgood⟩
      exact ⟨t, ⟨m, hm, ht⟩, hgood⟩
    · rintro ⟨t, ⟨m, hm, ht⟩, hgood⟩
      exact ⟨m, hm, t, ht, hgood⟩
  | case4 least most set => exact fun q => succeeds_runSet hk hc least most set q
  | case5 a =>
    intro q
    dsimp only
    unfold run
    split
    · rename_i ha
      exact (hk q).trans ⟨fun h => ⟨_, ⟨rfl, ha⟩, h⟩, fun ⟨t, ⟨ht, _⟩, h⟩ => ht ▸ h⟩
    · rename_i ha
      exact ⟨False.elim, fun ⟨t, ⟨_, ht⟩, _⟩ => ha ht⟩
  | case6 => cases hp

/-- A flat pattern matches a whole text exactly if it can take all of it. -/
theorem fullMatch_eq_true_iff {p : Pattern} (hp : p.isFlat = true) (text : String) :
    p.fullMatch text = .ok true ↔ ∃ before, Reaches p { after := text.toList } { before, after := [] } := by
  have hk : Next.Accepts (fun q => if q.after.isEmpty then .matched q else .failed q.toTrace)
      fun s => s.after = [] := by
    intro q
    dsimp only
    split
    · rename_i h
      exact ⟨fun _ => List.isEmpty_iff.1 h, fun _ => trivial⟩
    · rename_i h
      exact ⟨False.elim, fun hnil => h (List.isEmpty_iff.2 hnil)⟩
  have hrun := succeeds_run hp hk (c := {}) (by rintro n ⟨⟩) { after := text.toList }
  have hways : (∃ t, Reaches p { after := text.toList } t ∧ t.after = []) ↔
      ∃ before, Reaches p { after := text.toList } { before, after := [] } :=
    ⟨fun ⟨⟨before, _⟩, ht, hnil⟩ => ⟨before, hnil ▸ ht⟩, fun ⟨before, h⟩ => ⟨_, h, rfl⟩⟩
  refine Iff.trans ?_ (hrun.trans hways)
  obtain ⟨b, hb⟩ := fullMatch_of_ungrouped (ungrouped_of_isFlat hp) text
  unfold fullMatch at hb ⊢
  dsimp only
  split at hb
  · rename_i q hq
    rw [hq]
    split at hb
    · cases hb
    · rename_i hcrossed
      simp [hcrossed, Outcome.Succeeds]
  · rename_i t ht
    rw [ht]
    simp [Outcome.Succeeds]

end ApiSchema.Pattern
