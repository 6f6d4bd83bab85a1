import ApiSchema.Proofs.ExampleFilling
import ApiSchema.Proofs.WholeNumbers

/-!
# Examples between whole bounds

An integer with two bounds gets the middle of them as its example. The middle is computed as a double: half of the sum
of the bounds is rounded to 53 bits, and then to a whole number (`round_halfOf`). No double is closer to the middle than
that number (`wholeHalf_dist_le`), so it lies between the bounds if any whole double does. There need not be one between
large bounds (`synthesize_integer_beyond`), and a large sum has no half at all (`overflow`).
-/
namespace ApiSchema

namespace Double

/-- From here on, whole numbers are rounded to an infinity. -/
def overflow : Nat := limit - 2 ^ 970

/-- Half of a whole number, rounded to 53 bits and then to a whole number. -/
def wholeHalf (n : Int) : Int := signed (decide (n < 0)) (roundDiv (nearest n.natAbs) 2)

/-! ## Rounded quotients -/

theorem roundDiv_mul_mul (n d : Nat) {c : Nat} (hc : 0 < c) : roundDiv (n * c) (d * c) = roundDiv n d := by
  have hless : d * c < 2 * (n % d * c) ↔ d < 2 * (n % d) := by
    rw [← Nat.mul_assoc, Nat.mul_lt_mul_right hc]
  have heven : 2 * (n % d * c) = d * c ↔ 2 * (n % d) = d := by
    rw [← Nat.mul_assoc, Nat.mul_left_inj (Nat.ne_of_gt hc)]
  simp only [roundDiv, Nat.mul_div_mul_right n d hc, Nat.mul_mod_mul_right, Bool.or_eq_true, Bool.and_eq_true,
    decide_eq_true_eq, beq_iff_eq, hless, heven]

/-- A rounded quotient is at most half a divisor away. -/
theorem roundDiv_dist_le (n : Nat) {d : Nat} (hd : 0 < d) : 2 * ((roundDiv n d * d : Nat) - (n : Int)).natAbs ≤ d := by
  have hmod := Nat.mod_lt n hd
  have hdiv : n / d * d + n % d = n := Nat.div_add_mod' n d
  rcases roundDiv_cases n d with ⟨hdown, hhalf, -⟩ | ⟨hup, hhalf, -⟩
  · rw [hdown]
    omega
  · rw [hup, Nat.succ_mul (n / d) d]
    omega

/-- A multiple of a step that is at most half a step away is nearest among the multiples. -/
theorem dist_le_of_dvd {x y n d : Int} (hx : d ∣ x) (hy : d ∣ y) (hhalf : 2 * (x - n).natAbs ≤ d.natAbs) :
    (x - n).natAbs ≤ (y - n).natAbs := by
  by_cases hxy : x = y
  · rw [hxy]
  · have hstep : d.natAbs ≤ (x - y).natAbs :=
      Nat.le_of_dvd (by omega) (Int.natAbs_dvd_natAbs.2 (Int.dvd_sub hx hy))
    omega

/-- A quotient stays below an even number as long as it is more than a half away from it. -/
theorem roundDiv_lt_iff {n d k : Nat} (hd : 0 < d) (hk : k % 2 = 0) : roundDiv n d < k ↔ 2 * n + d < 2 * (k * d) := by
  have hmod := Nat.mod_lt n hd
  have hdiv : n / d * d + n % d = n := Nat.div_add_mod' n d
  have hround := roundDiv_cases n d
  rcases Nat.lt_trichotomy (n / d + 1) k with hlt | heq | hgt
  · have hmul : (n / d + 2) * d ≤ k * d := Nat.mul_le_mul_right d hlt
    rw [Nat.add_mul] at hmul
    omega
  · have hmul : n / d * d + d = k * d := by rw [← heq, Nat.succ_mul]
    omega
  · have hmul : k * d ≤ n / d * d := Nat.mul_le_mul_right d (by omega)
    omega

/-! ## Nearest doubles -/

theorem ne_zero_of_log2 {n k : Nat} (h : k < n.log2) : n ≠ 0 := by
  rintro rfl
  simp at h

/-- A long number is rounded to the nearest one of 53 bits. -/
theorem nearest_dist_le {n : Nat} (hlog : 52 < n.log2) {y : Int} {m e : Nat} (hm : m < 2 ^ 53)
    (hy : y.natAbs = m * 2 ^ e) :
    ((nearest n : Int) - n).natAbs ≤ (y - n).natAbs := by
  obtain ⟨k, hk⟩ : ∃ k, n.log2 = k + 52 := ⟨n.log2 - 52, by omega⟩
  have hstep : ∀ z : Int, ((2 ^ k : Nat) : Int) ∣ z → ((nearest n : Int) - n).natAbs ≤ (z - n).natAbs := by
    intro z hz
    rw [nearest_of_large hk]
    exact dist_le_of_dvd (Int.natCast_dvd_natCast.2 (Nat.dvd_mul_left _ _)) hz (roundDiv_dist_le n (Nat.two_pow_pos k))
  by_cases he : k ≤ e
  · refine hstep y ?_
    rw [Int.natCast_dvd, hy]
    exact Nat.dvd_trans (Nat.pow_dvd_pow 2 he) (Nat.dvd_mul_left _ _)
  · -- a finer number has fewer bits before the point, and the power of two between them is closer
    have hlow := Nat.log2_self_le (ne_zero_of_log2 hlog)
    have hless : y.natAbs < 2 ^ n.log2 := by
      calc y.natAbs = m * 2 ^ e := hy
        _ < 2 ^ 53 * 2 ^ e := Nat.mul_lt_mul_of_pos_right hm (Nat.two_pow_pos e)
        _ = 2 ^ (53 + e) := (Nat.pow_add 2 53 e).symm
        _ ≤ 2 ^ n.log2 := Nat.pow_le_pow_right Nat.two_pos (by omega)
    have hpow := hstep (2 ^ n.log2 : Nat) (Int.natCast_dvd_natCast.2 (Nat.pow_dvd_pow 2 (by omega)))
    omega

theorem two_mul_roundDiv_nearest {n : Nat} (hlog : 52 < n.log2) : 2 * roundDiv (nearest n) 2 = nearest n := by
  obtain ⟨e, he⟩ : ∃ e, n.log2 = e + 1 + 52 := ⟨n.log2 - 53, by omega⟩
  rw [nearest_of_large he, Nat.pow_succ, ← Nat.mul_assoc, roundDiv_mul _ Nat.two_pos, Nat.mul_comm]

theorem roundDiv_nearest_dist_le (n : Nat) {y : Int} (hy : IsExact y) :
    (2 * (roundDiv (nearest n) 2 : Int) - n).natAbs ≤ (2 * y - n).natAbs := by
  by_cases hlog : n.log2 ≤ 52
  · have hround := roundDiv_cases n 2
    rw [nearest_of_small hlog]
    omega
  · obtain ⟨m, e, hm, -, hye⟩ := hy
    have heven := two_mul_roundDiv_nearest (Nat.lt_of_not_le hlog)
    have hdist := nearest_dist_le (y := 2 * y) (e := e + 1) (Nat.lt_of_not_le hlog) hm
      (by rw [Nat.pow_succ, ← Nat.mul_assoc, ← hye]; omega)
    omega

/-- No whole double is closer to the half of a number. -/
theorem wholeHalf_dist_le (n : Int) {y : Int} (hy : IsExact y) : (2 * wholeHalf n - n).natAbs ≤ (2 * y - n).natAbs := by
  unfold wholeHalf signed
  by_cases hn : n < 0
  · have hneg : IsExact (-y) := by rwa [IsExact, Int.natAbs_neg]
    have hdist := roundDiv_nearest_dist_le n.natAbs hneg
    rw [if_pos (decide_eq_true hn)]
    omega
  · have hdist := roundDiv_nearest_dist_le n.natAbs hy
    rw [if_neg (by simpa using hn)]
    omega

theorem isExact_wholeHalf {n : Int} (h : nearest n.natAbs < 2 * limit) : IsExact (wholeHalf n) := by
  have hvalue : (wholeHalf n).natAbs = roundDiv (nearest n.natAbs) 2 := natAbs_signed _ _
  generalize n.natAbs = a at h hvalue
  by_cases hlog : a.log2 ≤ 52
  · have hless : a < 2 ^ 53 := Nat.lt_of_lt_of_le Nat.lt_log2_self (Nat.pow_le_pow_right Nat.two_pos (by omega))
    have hround := roundDiv_le a 2
    rw [nearest_of_small hlog] at hvalue
    exact isExact_of_le (by omega)
  · obtain ⟨e, he⟩ : ∃ e, a.log2 = e + 1 + 52 := ⟨a.log2 - 53, by omega⟩
    have hnearest : nearest a = roundDiv a (2 ^ (e + 1)) * 2 ^ e * 2 := by
      rw [nearest_of_large he, Nat.pow_succ, Nat.mul_assoc]
    obtain ⟨hlow, hhigh⟩ := roundDiv_bounds (ne_zero_of_log2 (Nat.lt_of_not_le hlog)) he
    rw [hnearest, roundDiv_mul _ Nat.two_pos] at hvalue
    generalize roundDiv a (2 ^ (e + 1)) = r at hnearest hlow hhigh hvalue
    have hrange : ∀ k, 2 ^ k ≤ r → k + e < 1024 := by
      intro k hk
      refine Nat.lt_of_not_le fun hle => ?_
      have hbeyond : limit ≤ r * 2 ^ e := by
        calc limit ≤ 2 ^ (k + e) := limit_le_two_pow_iff.2 hle
          _ = 2 ^ k * 2 ^ e := Nat.pow_add 2 k e
          _ ≤ r * 2 ^ e := Nat.mul_le_mul_right _ hk
      omega
    rcases Nat.lt_or_eq_of_le hhigh with hlt | heq
    · have := hrange 52 hlow
      exact ⟨r, e, hlt, by omega, hvalue⟩
    · have := hrange 53 (Nat.le_of_eq heq.symm)
      refine ⟨2 ^ 52, e + 1, by decide, by omega, ?_⟩
      rw [hvalue, heq, ← Nat.pow_add, ← Nat.pow_add]
      congr 1
      omega

theorem nearest_le_two_pow (n : Nat) : nearest n ≤ 2 ^ (n.log2 + 1) := by
  by_cases hlog : n.log2 ≤ 52
  · rw [nearest_of_small hlog]
    exact Nat.le_of_lt Nat.lt_log2_self
  · obtain ⟨e, he⟩ : ∃ e, n.log2 = e + 52 := ⟨n.log2 - 52, by omega⟩
    have hn : n ≠ 0 := ne_zero_of_log2 (Nat.lt_of_not_le hlog)
    calc nearest n = roundDiv n (2 ^ e) * 2 ^ e := nearest_of_large he
      _ ≤ 2 ^ 53 * 2 ^ e := Nat.mul_le_mul_right _ (roundDiv_bounds hn he).2
      _ = 2 ^ (53 + e) := (Nat.pow_add 2 53 e).symm
      _ = 2 ^ (n.log2 + 1) := by congr 1; omega

/-- The half of a number is beyond the doubles if the number is from twice the first such number on. -/
theorem nearest_lt_iff (n : Nat) : nearest n < 2 * limit ↔ n < 2 * overflow := by
  have hpow : ∀ a b k, a + b = k → 2 ^ k = 2 ^ a * 2 ^ b := by
    rintro a b _ rfl
    exact Nat.pow_add 2 a b
  have hlimit : limit = 2 ^ 54 * 2 ^ 970 := hpow 54 970 1024 rfl
  have hover : overflow = limit - 2 ^ 970 := rfl
  have hunit := Nat.two_pow_pos 970
  rcases Nat.lt_trichotomy n.log2 1024 with hlt | heq | hgt
  · have hle : 2 ^ (n.log2 + 1) ≤ limit := two_pow_le_limit hlt
    have hnearest := nearest_le_two_pow n
    have hless : n < 2 ^ (n.log2 + 1) := Nat.lt_log2_self
    omega
  · have hstep : 2 ^ 972 = 2 ^ 2 * 2 ^ 970 := hpow 2 970 972 rfl
    have hbound : 2 * limit = 2 ^ 53 * 2 ^ 972 := by
      rw [hlimit, hstep]
      omega
    rw [nearest_of_large (show n.log2 = 972 + 52 from heq), hbound, Nat.mul_lt_mul_right (Nat.two_pow_pos 972),
      roundDiv_lt_iff (Nat.two_pow_pos 972) (by decide)]
    omega
  · have hle : limit ≤ 2 ^ (n.log2 - 1) := limit_le_two_pow_iff.2 (by omega)
    have hdouble : 2 ^ n.log2 = 2 ^ 1 * 2 ^ (n.log2 - 1) := hpow _ _ _ (by omega)
    have hnearest := two_pow_log2_le_nearest (ne_zero_of_log2 hgt) (by omega)
    have hlow := Nat.log2_self_le (ne_zero_of_log2 hgt)
    omega

/-! ## Halves -/

theorem round_natCast (negative : Bool) (m e : Nat) :
    (finite negative m e).round = .ok (signed negative (m * 2 ^ e)) := by
  have hpos : (0 : Int) ≤ (e : Int) := Int.natCast_nonneg e
  simp only [round, magnitude, if_pos hpos, Int.toNat_natCast, Nat.pow_eq, roundDiv_one]
  rfl

theorem round_neg_natCast (negative : Bool) (m e : Nat) :
    (finite negative m (-(e + 1 : Nat))).round = .ok (signed negative (roundDiv m (2 ^ (e + 1)))) := by
  have hneg : ¬ (0 : Int) ≤ -((e + 1 : Nat) : Int) := by omega
  simp only [round, magnitude, if_neg hneg, Int.neg_neg, Int.toNat_natCast, Nat.pow_eq]
  rfl

/-- Half of a number, rounded to a double and then to a whole number. -/
theorem ofRatio_two (negative : Bool) (n : Nat) :
    (n < 2 * overflow ∧ ∃ m e, ofRatio negative n 2 = .finite negative m e ∧
      (finite negative m e).round = .ok (signed negative (roundDiv (nearest n) 2))) ∨
    (2 * overflow ≤ n ∧ ofRatio negative n 2 = .infinite negative) := by
  rw [← Nat.not_lt, ← nearest_lt_iff, Nat.not_lt]
  by_cases hn : n = 0
  · subst hn
    left
    exact ⟨by decide +kernel, 0, minExponent, rfl, by cases negative <;> decide +kernel⟩
  by_cases hlog : n.log2 ≤ 52
  · obtain ⟨k, hk⟩ : ∃ k, n.log2 + k = 52 := ⟨52 - n.log2, by omega⟩
    have hratio := ofRatio_two_pow_of_small negative (j := 1) hn (by decide) hk
    rw [Nat.pow_one, Nat.add_comm 1 k] at hratio
    have hlimit : 2 ^ (n.log2 + 1) ≤ limit := two_pow_le_limit (by omega)
    have hless : n < 2 ^ (n.log2 + 1) := Nat.lt_log2_self
    rw [nearest_of_small hlog]
    refine .inl ⟨by omega, _, _, hratio, ?_⟩
    rw [round_neg_natCast, Nat.pow_succ, Nat.mul_comm (2 ^ k) 2, roundDiv_mul_mul _ _ (Nat.two_pow_pos k)]
  · obtain ⟨e, he⟩ : ∃ e, n.log2 = 1 + e + 52 := ⟨n.log2 - 53, by omega⟩
    have hcases := ofRatio_two_pow_cases negative hn (by decide) he
    have hnearest : nearest n = roundDiv n (2 ^ (1 + e)) * 2 ^ e * 2 := by
      rw [nearest_of_large he, Nat.add_comm 1 e, Nat.pow_succ, Nat.mul_assoc]
    rw [Nat.pow_one] at hcases
    rw [hnearest, roundDiv_mul _ Nat.two_pos, Nat.mul_comm 2 limit, Nat.mul_lt_mul_right Nat.two_pos,
      Nat.mul_le_mul_right_iff Nat.two_pos]
    refine hcases.imp_left ?_
    rintro ⟨hlt, m, f, hratio, hvalue⟩
    exact ⟨hlt, m, f, hratio, by rw [round_natCast, hvalue]⟩

end Double

open Double

theorem round_halfOf (n : Int) : (halfOf n >>= fun x => x.round.mapError wholeFault) =
    if n.natAbs < 2 * overflow then .ok (wholeHalf n) else .error .overflow := by
  unfold halfOf wholeHalf
  rcases ofRatio_two (decide (n < 0)) n.natAbs with ⟨hless, m, e, hratio, hround⟩ | ⟨hle, hratio⟩
  · rw [hratio, if_pos hless]
    exact congrArg (Except.mapError wholeFault) hround
  · rw [hratio, if_neg (Nat.not_lt.2 hle)]
    rfl

theorem boundExample_int_int (a b : Int) : boundExample .integer (some (.int a)) (some (.int b)) =
    do return some (.int (← halfOf (a + b) >>= fun x => x.round.mapError wholeFault)) := by
  have hmiddle : middle (.int a) (.int b) = halfOf (a + b) := rfl
  unfold boundExample
  dsimp only
  rw [hmiddle]
  cases halfOf (a + b) <;> rfl

/-- The middle lies between the bounds if there is a double between them, as no double is closer to it. -/
theorem wholeHalf_between_iff {a b : Int} (h : (a + b).natAbs < 2 * overflow) :
    a ≤ wholeHalf (a + b) ∧ wholeHalf (a + b) ≤ b ↔ ∃ n, a ≤ n ∧ n ≤ b ∧ IsExact n := by
  constructor
  · rintro ⟨hlow, hhigh⟩
    exact ⟨wholeHalf (a + b), hlow, hhigh, isExact_wholeHalf ((nearest_lt_iff _).2 h)⟩
  · rintro ⟨n, hlow, hhigh, hn⟩
    have hdist := wholeHalf_dist_le (a + b) hn
    omega

theorem exists_middle_iff (a b : Int) :
    (∃ e, (halfOf (a + b) >>= fun x => x.round.mapError wholeFault) = .ok e ∧ a ≤ e ∧ e ≤ b) ↔
      (a + b).natAbs < 2 * overflow ∧ ∃ n, a ≤ n ∧ n ≤ b ∧ IsExact n := by
  rw [round_halfOf]
  by_cases hless : (a + b).natAbs < 2 * overflow
  · rw [if_pos hless, and_iff_right hless, ← wholeHalf_between_iff hless]
    constructor
    · rintro ⟨_, ⟨⟩, hbetween⟩
      exact hbetween
    · exact fun hbetween => ⟨_, rfl, hbetween⟩
  · rw [if_neg hless]
    constructor
    · rintro ⟨_, ⟨⟩, -⟩
    · exact fun h => absurd h.1 hless

/-! ## Integers with bounds -/

/-- One or two whole bounds, and nothing else to take an example from. -/
structure Facets.IsBounded (f : Facets) (low high : Option Int) : Prop where
  sample : f.sample = none
  enumValues : f.enumValues.getD [] = []
  format : f.format = none
  pattern : f.constraints.bind (·.pattern) = none
  minimum : f.constraints.bind (·.minimum) = low.map .int
  maximum : f.constraints.bind (·.maximum) = high.map .int
  given : low.isSome = true ∨ high.isSome = true

section

variable {tables : ExampleTables} {f : Facets} {low high : Option Int} {x : Except Fault Int}

theorem Facets.IsBounded.exists_constraints (h : f.IsBounded low high) :
    ∃ c, f.constraints = some c ∧ c.minimum = low.map .int ∧ c.maximum = high.map .int := by
  have hmin := h.minimum
  have hmax := h.maximum
  cases hc : f.constraints with
  | some c =>
    rw [hc] at hmin hmax
    exact ⟨c, rfl, hmin, hmax⟩
  | none =>
    rw [hc, Option.bind_none, eq_comm, Option.map_eq_none_iff] at hmin hmax
    rcases h.given with hlow | hhigh
    · rw [hmin] at hlow
      cases hlow
    · rw [hmax] at hhigh
      cases hhigh

section

variable (h : f.IsBounded low high)
  (hx : boundExample .integer (low.map .int) (high.map .int) = do return some (.int (← x)))

include h hx

theorem Facets.IsBounded.valueFor_eq :
    valueFor tables .integer f none = (do return some (.int (← x))) := by
  obtain ⟨c, hc, hmin, hmax⟩ := h.exists_constraints
  have hbounds : constraintExample .integer c = do return some (.int (← x)) := by
    rw [← hmin, ← hmax] at hx
    exact hx
  have hcandidate : candidate tables .integer f none = do return some (.int (← x)) := by
    unfold candidate
    split
    · rename_i v vs hvs
      have henum := h.enumValues
      rw [hvs] at henum
      cases henum
    · rw [h.format, hc]
      cases x <;> simp [formatExample, nameExample, hbounds, bind, Except.bind, pure, Except.pure]
  unfold valueFor
  rw [hcandidate, h.pattern]
  cases x <;> rfl

variable (hf : f.circularRef = none)

include hf

theorem Facets.IsBounded.synthesize_eq :
    synthesize tables none (.scalar .integer f) =
      (do return .scalar .integer { f with sample := some (.int (← x)) }) := by
  have hvalue : valueFor tables (.scalar .integer) f none = (do return some (.int (← x))) := h.valueFor_eq hx
  rw [synthesize, if_neg (by simp [hf, h.sample]), hvalue]
  cases x <;> rfl

theorem Facets.IsBounded.synthesize_iff (e : Int) :
    synthesize tables none (.scalar .integer f) = .ok (.scalar .integer { f with sample := some (.int e) }) ↔
      x = .ok e := by
  rw [h.synthesize_eq hx hf]
  cases x <;> simp [liftM, monadLift, MonadLift.monadLift, Except.mapError, bind, Except.bind, pure, Except.pure]

end

/-- An integer with whole bounds gets an example that keeps to them exactly if it is no placeholder, and either has one
bound only, or half of the sum of its bounds is in range and there is a double between them. -/
theorem synthesize_integer_between (h : f.IsBounded low high) :
    (∃ e, synthesize tables none (.scalar .integer f) = .ok (.scalar .integer { f with sample := some (.int e) }) ∧
      (∀ a ∈ low, a ≤ e) ∧ ∀ b ∈ high, e ≤ b) ↔
    f.circularRef = none ∧ ∀ a ∈ low, ∀ b ∈ high,
      (a + b).natAbs < 2 * overflow ∧ ∃ n, a ≤ n ∧ n ≤ b ∧ IsExact n := by
  by_cases hf : f.circularRef = none
  · rw [and_iff_right hf]
    cases low with
    | none =>
      cases high with
      | none => cases h.given <;> contradiction
      | some b => simp [h.synthesize_iff (x := .ok b) rfl hf]
    | some a =>
      cases high with
      | none => simp [h.synthesize_iff (x := .ok a) rfl hf]
      | some b =>
        simp only [h.synthesize_iff (boundExample_int_int a b) hf, Option.mem_some_iff, forall_eq', exists_middle_iff]
  · have hplaceholder : (Node.scalar .integer f).isPlaceholder = true := Option.isSome_iff_ne_none.2 hf
    rw [synthesize_placeholder hplaceholder]
    constructor
    · rintro ⟨e, hnode, -⟩
      injection hnode with hnode
      injection hnode with _ hfacets
      exact absurd (h.sample.symm.trans (congrArg Facets.sample hfacets)) nofun
    · exact fun h => absurd h.1 hf

end

/-- Whole bounds and nothing else. -/
def wholeBounds (low high : Int) : Facets :=
  { constraints := some { minimum := some (.int low), maximum := some (.int high) } }

theorem isBounded_wholeBounds (low high : Int) : (wholeBounds low high).IsBounded (some low) (some high) :=
  ⟨rfl, rfl, rfl, rfl, rfl, rfl, .inl rfl⟩

theorem synthesize_integer_between_odd :
    ∃ e, synthesize {} none (.scalar .integer (wholeBounds 9007199254740993 9007199254740995)) =
        .ok (.scalar .integer { wholeBounds 9007199254740993 9007199254740995 with sample := some (.int e) }) ∧
      (∀ a ∈ some (9007199254740993 : Int), a ≤ e) ∧ ∀ b ∈ some (9007199254740995 : Int), e ≤ b := by
  refine (synthesize_integer_between (isBounded_wholeBounds _ _)).2 ⟨rfl, ?_⟩
  rintro _ ⟨⟩ _ ⟨⟩
  exact ⟨by decide +kernel, 9007199254740994, by decide, by decide, 2 ^ 52 + 1, 1, by decide, by decide, by decide⟩

/-- An example below the only whole number between its bounds, and bounds that have no example. -/
theorem synthesize_integer_beyond :
    synthesize {} none (.scalar .integer (wholeBounds 9007199254740993 9007199254740993)) =
      .ok (.scalar .integer
        { wholeBounds 9007199254740993 9007199254740993 with sample := some (.int 9007199254740992) }) ∧
    synthesize {} none (.scalar .integer (wholeBounds 0 (2 ^ 1025))) = .error (.fault .overflow) := by
  have hmiddle : wholeHalf (9007199254740993 + 9007199254740993) = 9007199254740992 := by decide +kernel
  constructor
  · rw [(isBounded_wholeBounds _ _).synthesize_eq (boundExample_int_int _ _) rfl, round_halfOf,
      if_pos (by decide +kernel), hmiddle]
    rfl
  · rw [(isBounded_wholeBounds _ _).synthesize_eq (boundExample_int_int _ _) rfl, round_halfOf,
      if_neg (by decide +kernel)]
    rfl

end ApiSchema
