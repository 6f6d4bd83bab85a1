import Mathlib.Data.Int.Order.Basic
import Mathlib.Data.Nat.Log
import Mathlib.Tactic.IntervalCases
import ApiSchema.Proofs.TokenText

/-!
# Whole numbers in double precision

A whole number has a double of its own if it is a significand of at most 53 bits times a power of two that is in range
(`Double.IsExact`). Reading the digits of any other whole number gives a different whole number or an infinity
(`Double.ofText?_toString`).
-/
namespace ApiSchema

namespace Double

/-- A whole number that is a double. -/
def IsExact (n : Int) : Prop := ∃ m e : Nat, m < 2 ^ 53 ∧ e ≤ 971 ∧ n.natAbs = m * 2 ^ e

/-- A whole number up to its sign, rounded to 53 bits. -/
def nearest (n : Nat) : Nat := roundDiv n (2 ^ (n.log2 - 52)) * 2 ^ (n.log2 - 52)

/-- The power of two above the greatest double. -/
def limit : Nat := 2 ^ 1024

/-- A magnitude with its sign. -/
def signed (negative : Bool) (n : Nat) : Int := if negative then -(n : Int) else n

theorem signed_natAbs (n : Int) : signed (decide (n < 0)) n.natAbs = n := by
  unfold signed
  by_cases hn : n < 0
  · rw [if_pos (decide_eq_true hn)]
    omega
  · rw [if_neg (by simpa using hn)]
    omega

theorem natAbs_signed (negative : Bool) (n : Nat) : (signed negative n).natAbs = n := by
  cases negative with
  | false => exact Int.natAbs_natCast n
  | true => exact (Int.natAbs_neg n).trans (Int.natAbs_natCast n)

/-! ## Rounding -/

theorem roundDiv_mul (k : Nat) {d : Nat} (hd : 0 < d) : roundDiv (k * d) d = k := by
  have hq : k * d / d = k := Nat.mul_div_cancel k hd
  simp [roundDiv, hq]
  omega

/-- A quotient is rounded down up to a half and up from a half on, and a half goes to the even side. -/
theorem roundDiv_cases (n d : Nat) :
    (roundDiv n d = n / d ∧ 2 * (n % d) ≤ d ∧ (2 * (n % d) = d → n / d % 2 = 0)) ∨
      (roundDiv n d = n / d + 1 ∧ d ≤ 2 * (n % d) ∧ (2 * (n % d) = d → n / d % 2 = 1)) := by
  unfold roundDiv
  dsimp only
  split
  · rename_i hup
    simp only [Bool.or_eq_true, Bool.and_eq_true, decide_eq_true_eq, beq_iff_eq] at hup
    exact .inr ⟨rfl, by omega, by omega⟩
  · rename_i hdown
    simp only [Bool.or_eq_true, Bool.and_eq_true, decide_eq_true_eq, beq_iff_eq] at hdown
    exact .inl ⟨rfl, by omega, by omega⟩

theorem le_roundDiv (n d : Nat) : n / d ≤ roundDiv n d := by
  rcases roundDiv_cases n d with ⟨h, -⟩ | ⟨h, -⟩ <;> omega

theorem roundDiv_le (n d : Nat) : roundDiv n d ≤ n / d + 1 := by
  rcases roundDiv_cases n d with ⟨h, -⟩ | ⟨h, -⟩ <;> omega

theorem roundDiv_one (n : Nat) : roundDiv n 1 = n := by simpa using roundDiv_mul n Nat.one_pos

/-- The significand of a number with more than 52 bits after the first. -/
theorem roundDiv_bounds {n e : Nat} (hn : n ≠ 0) (hlog : n.log2 = e + 52) :
    2 ^ 52 ≤ roundDiv n (2 ^ e) ∧ roundDiv n (2 ^ e) ≤ 2 ^ 53 := by
  have hlow : 2 ^ 52 * 2 ^ e ≤ n := by
    rw [← Nat.pow_add, Nat.add_comm, ← hlog]
    exact Nat.log2_self_le hn
  have hhigh : n < 2 ^ 53 * 2 ^ e := by
    rw [← Nat.pow_add, show 53 + e = n.log2 + 1 by omega]
    exact Nat.lt_log2_self
  have hpos := Nat.two_pow_pos e
  have hquot : 2 ^ 52 ≤ n / 2 ^ e := (Nat.le_div_iff_mul_le hpos).2 hlow
  have hquot' : n / 2 ^ e < 2 ^ 53 := (Nat.div_lt_iff_lt_mul hpos).2 hhigh
  have hround := le_roundDiv n (2 ^ e)
  have hround' := roundDiv_le n (2 ^ e)
  omega

theorem inUnits_natCast (num den e : Nat) : inUnits num den e = (num, den * 2 ^ e) := by
  simp [inUnits, Nat.pow_eq]

theorem inUnits_neg_natCast (num den e : Nat) : inUnits num den (-e) = (num * 2 ^ e, den) := by
  cases e with
  | zero => simp [inUnits]
  | succ e =>
    have hneg : ¬ (0 : Int) ≤ -((e + 1 : Nat) : Int) := by omega
    rw [inUnits, if_neg hneg, Int.neg_neg, Int.toNat_natCast]
    rfl

theorem exponentFor_two_pow {n j : Nat} (hn : n ≠ 0) (hj : j ≤ 1021) :
    exponentFor n (2 ^ j) = (n.log2 : Int) - j - 52 := by
  have hlow := Nat.log2_self_le hn
  have hstart : max minExponent ((n.log2 : Int) - ((2 ^ j).log2 : Nat) - 53) = (n.log2 : Int) - j - 53 := by
    rw [Nat.log2_two_pow, minExponent]
    omega
  -- one exponent less would leave a significand of 54 bits
  have hlarge : ¬ (inUnits n (2 ^ j) (n.log2 - j - 53)).1 / (inUnits n (2 ^ j) (n.log2 - j - 53)).2 < Nat.pow 2 53 := by
    rw [Nat.not_lt]
    obtain ⟨k, hk | hk⟩ := Int.eq_nat_or_neg (n.log2 - j - 53)
    · rw [hk, inUnits_natCast, ← Nat.pow_add, Nat.le_div_iff_mul_le (Nat.two_pow_pos _)]
      calc Nat.pow 2 53 * 2 ^ (j + k) = 2 ^ n.log2 := by rw [Nat.pow_eq, ← Nat.pow_add]; congr 1; omega
        _ ≤ n := hlow
    · rw [hk, inUnits_neg_natCast, Nat.le_div_iff_mul_le (Nat.two_pow_pos _)]
      calc Nat.pow 2 53 * 2 ^ j = 2 ^ n.log2 * 2 ^ k := by rw [Nat.pow_eq, ← Nat.pow_add, ← Nat.pow_add]; congr 1; omega
        _ ≤ n * 2 ^ k := Nat.mul_le_mul_right _ hlow
  simp only [exponentFor, hstart, if_neg hlarge]
  omega

theorem toInt?_natCast (negative : Bool) (m e : Nat) :
    (finite negative m e).toInt? = some (signed negative (m * 2 ^ e)) := by
  simp [toInt?, magnitude, Nat.mod_one]
  rfl

theorem toInt?_neg_natCast (negative : Bool) (m e : Nat) :
    (finite negative (m * 2 ^ e) (-e)).toInt? = some (signed negative m) := by
  have hpos := Nat.two_pow_pos e
  cases e with
  | zero => simpa using toInt?_natCast negative m 0
  | succ e =>
    have hneg : ¬ (0 : Int) ≤ -((e + 1 : Nat) : Int) := by omega
    simp only [toInt?, magnitude, if_neg hneg, Int.neg_neg, Int.toNat_natCast, Nat.pow_eq, Nat.mul_mod_left,
      Nat.mul_div_cancel m hpos]
    rfl

/-- Over a power of two, a number of at most 53 bits is kept. -/
theorem ofRatio_two_pow_of_small (negative : Bool) {n j k : Nat} (hn : n ≠ 0) (hj : j ≤ 1021) (hlog : n.log2 + k = 52) :
    ofRatio negative n (2 ^ j) = .finite negative (n * 2 ^ k) (-(j + k : Nat)) := by
  have hexp : exponentFor n (2 ^ j) = -((j + k : Nat) : Int) := by rw [exponentFor_two_pow hn hj]; omega
  have hround : roundDiv (n * 2 ^ (j + k)) (2 ^ j) = n * 2 ^ k := by
    rw [Nat.add_comm, Nat.pow_add, ← Nat.mul_assoc, roundDiv_mul _ (Nat.two_pow_pos j)]
  have hbits : n * 2 ^ k ≠ Nat.pow 2 53 := by
    have hlt : n * 2 ^ k < 2 ^ (n.log2 + 1) * 2 ^ k := Nat.mul_lt_mul_of_pos_right Nat.lt_log2_self (Nat.two_pow_pos k)
    rw [← Nat.pow_add, show n.log2 + 1 + k = 53 by omega] at hlt
    exact Nat.ne_of_lt hlt
  have hrange : ¬ maxExponent < -((j + k : Nat) : Int) := by unfold maxExponent; omega
  simp only [ofRatio, beq_eq_false_iff_ne.2 hn, hexp, inUnits_neg_natCast, hround, beq_eq_false_iff_ne.2 hbits,
    if_neg Bool.false_ne_true, if_neg hrange]

/-- Of a longer number the first 53 bits are kept. A carry out of them is one more in the exponent. -/
theorem ofRatio_two_pow_of_large (negative : Bool) {n j e : Nat} (hn : n ≠ 0) (hj : j ≤ 1021)
    (hlog : n.log2 = j + e + 52) :
    ofRatio negative n (2 ^ j) =
      if roundDiv n (2 ^ (j + e)) = 2 ^ 53 then
        if 971 < e + 1 then .infinite negative else .finite negative (2 ^ 52) ((e + 1 : Nat) : Int)
      else if 971 < e then .infinite negative else .finite negative (roundDiv n (2 ^ (j + e))) e := by
  have hexp : exponentFor n (2 ^ j) = (e : Int) := by rw [exponentFor_two_pow hn hj]; omega
  have hzero : (n == 0) = false := beq_eq_false_iff_ne.2 hn
  simp only [ofRatio, hexp, inUnits_natCast, ← Nat.pow_add, hzero, if_neg Bool.false_ne_true]
  by_cases hcarry : roundDiv n (2 ^ (j + e)) = 2 ^ 53
  · have hbits : (roundDiv n (2 ^ (j + e)) == Nat.pow 2 53) = true := beq_iff_eq.2 hcarry
    have hrange : maxExponent < (e : Int) + 1 ↔ 971 < e + 1 := by unfold maxExponent; omega
    simp only [hbits, hrange, if_true]
    rw [if_pos hcarry]
    rfl
  · have hbits : (roundDiv n (2 ^ (j + e)) == Nat.pow 2 53) = false := beq_eq_false_iff_ne.2 hcarry
    have hrange : maxExponent < (e : Int) ↔ 971 < e := by unfold maxExponent; omega
    simp only [hbits, hrange, if_neg Bool.false_ne_true]
    rw [if_neg hcarry]

theorem limit_le_two_pow_iff {e : Nat} : limit ≤ 2 ^ e ↔ 1024 ≤ e := by
  have hmono : ∀ k, 2 ^ k ≤ 2 ^ e ↔ k ≤ e := fun k => Nat.pow_le_pow_iff_right Nat.one_lt_two
  exact hmono 1024

theorem two_pow_le_limit {e : Nat} (h : e ≤ 1024) : 2 ^ e ≤ limit := by
  have hmono : ∀ k, e ≤ k → 2 ^ e ≤ 2 ^ k := fun k hk => Nat.pow_le_pow_right Nat.two_pos hk
  exact hmono 1024 h

/-- The value of a longer number over a power of two has 53 bits, or it is an infinity. -/
theorem ofRatio_two_pow_cases (negative : Bool) {n j e : Nat} (hn : n ≠ 0) (hj : j ≤ 1021)
    (hlog : n.log2 = j + e + 52) :
    (roundDiv n (2 ^ (j + e)) * 2 ^ e < limit ∧
      ∃ m f : Nat, ofRatio negative n (2 ^ j) = .finite negative m f ∧ m * 2 ^ f = roundDiv n (2 ^ (j + e)) * 2 ^ e) ∨
    (limit ≤ roundDiv n (2 ^ (j + e)) * 2 ^ e ∧ ofRatio negative n (2 ^ j) = .infinite negative) := by
  obtain ⟨hlow, hhigh⟩ := roundDiv_bounds hn hlog
  rw [ofRatio_two_pow_of_large negative hn hj hlog]
  split
  · rename_i hcarry
    rw [hcarry, ← Nat.pow_add]
    split
    · exact .inr ⟨limit_le_two_pow_iff.2 (by omega), rfl⟩
    · refine .inl ⟨Nat.lt_of_not_le fun hle => absurd (limit_le_two_pow_iff.1 hle) (by omega), 2 ^ 52, e + 1, rfl, ?_⟩
      rw [← Nat.pow_add]
      congr 1
      omega
  · split
    · refine .inr ⟨?_, rfl⟩
      calc limit ≤ 2 ^ (52 + e) := limit_le_two_pow_iff.2 (by omega)
        _ = 2 ^ 52 * 2 ^ e := Nat.pow_add 2 52 e
        _ ≤ roundDiv n (2 ^ (j + e)) * 2 ^ e := Nat.mul_le_mul_right _ hlow
    · refine .inl ⟨?_, _, e, rfl, rfl⟩
      calc roundDiv n (2 ^ (j + e)) * 2 ^ e < 2 ^ 53 * 2 ^ e :=
        Nat.mul_lt_mul_of_pos_right (by omega) (Nat.two_pow_pos e)
        _ = 2 ^ (53 + e) := (Nat.pow_add 2 53 e).symm
        _ ≤ limit := two_pow_le_limit (by omega)

theorem nearest_of_small {n : Nat} (hlog : n.log2 ≤ 52) : nearest n = n := by
  simp [nearest, Nat.sub_eq_zero_of_le hlog, roundDiv_one]

theorem nearest_of_large {n e : Nat} (hlog : n.log2 = e + 52) : nearest n = roundDiv n (2 ^ e) * 2 ^ e := by
  rw [nearest, hlog, Nat.add_sub_cancel]

/-- A whole number becomes the nearest one of 53 bits, or an infinity. -/
theorem ofRatio_one (negative : Bool) (n : Nat) :
    (nearest n < limit ∧ (ofRatio negative n 1).toInt? = some (signed negative (nearest n))) ∨
      (limit ≤ nearest n ∧ ofRatio negative n 1 = .infinite negative) := by
  by_cases hn : n = 0
  · subst hn
    left
    cases negative <;> decide +kernel
  by_cases hlog : n.log2 ≤ 52
  · obtain ⟨k, hk⟩ : ∃ k, n.log2 + k = 52 := ⟨52 - n.log2, by omega⟩
    have hratio := ofRatio_two_pow_of_small negative (j := 0) hn (Nat.zero_le _) hk
    rw [Nat.pow_zero, Nat.zero_add] at hratio
    rw [nearest_of_small hlog, hratio]
    have hlt : n < limit := by
      calc n < 2 ^ (n.log2 + 1) := Nat.lt_log2_self
        _ ≤ limit := two_pow_le_limit (by omega)
    exact .inl ⟨hlt, toInt?_neg_natCast negative n k⟩
  · obtain ⟨e, he⟩ : ∃ e, n.log2 = e + 52 := ⟨n.log2 - 52, by omega⟩
    have hcases := ofRatio_two_pow_cases negative (j := 0) hn (Nat.zero_le _) (by rw [Nat.zero_add, he])
    rw [Nat.pow_zero, Nat.zero_add, ← nearest_of_large he] at hcases
    refine hcases.imp_left ?_
    rintro ⟨hlt, m, f, hratio, hvalue⟩
    exact ⟨hlt, by rw [hratio, toInt?_natCast, hvalue]⟩

/-! ## Exact whole numbers -/

theorem nearest_eq_self {n : Nat} (h : 2 ^ (n.log2 - 52) ∣ n) : nearest n = n := by
  have hround := roundDiv_mul (n / 2 ^ (n.log2 - 52)) (Nat.two_pow_pos (n.log2 - 52))
  rw [Nat.div_mul_cancel h] at hround
  rw [nearest, hround, Nat.div_mul_cancel h]

theorem isExact_iff (n : Int) : IsExact n ↔ nearest n.natAbs = n.natAbs ∧ n.natAbs < limit := by
  unfold IsExact
  generalize n.natAbs = a
  constructor
  · rintro ⟨m, e, hm, he, rfl⟩
    have hlt : m * 2 ^ e < 2 ^ 53 * 2 ^ e := Nat.mul_lt_mul_of_pos_right hm (Nat.two_pow_pos e)
    rw [← Nat.pow_add] at hlt
    refine ⟨nearest_eq_self ?_, Nat.lt_of_lt_of_le hlt (two_pow_le_limit (by omega))⟩
    by_cases hzero : m * 2 ^ e = 0
    · rw [hzero]
      exact Nat.dvd_zero _
    · have hlog := (Nat.log2_lt hzero).2 hlt
      exact Nat.dvd_trans (Nat.pow_dvd_pow 2 (by omega)) (Nat.dvd_mul_left (2 ^ e) m)
  · rintro ⟨hself, hlt⟩
    refine ⟨roundDiv a (2 ^ (a.log2 - 52)), a.log2 - 52, ?_, ?_, hself.symm⟩
    · have hbits : roundDiv a (2 ^ (a.log2 - 52)) * 2 ^ (a.log2 - 52) < 2 ^ 53 * 2 ^ (a.log2 - 52) := by
        calc nearest a = a := hself
          _ < 2 ^ (a.log2 + 1) := Nat.lt_log2_self
          _ ≤ 2 ^ (53 + (a.log2 - 52)) := Nat.pow_le_pow_right (by decide) (by omega)
          _ = 2 ^ 53 * 2 ^ (a.log2 - 52) := Nat.pow_add 2 53 _
      exact Nat.lt_of_mul_lt_mul_right hbits
    · by_cases hzero : a = 0
      · simp [hzero]
      · have hlog := limit_le_two_pow_iff.not.1 (Nat.not_le.2 (Nat.lt_of_le_of_lt (Nat.log2_self_le hzero) hlt))
        omega

/-- Up to 2 ^ 53 every whole number is a double. -/
theorem isExact_of_le {n : Int} (h : n.natAbs ≤ 2 ^ 53) : IsExact n := by
  rcases Nat.lt_or_eq_of_le h with hlt | heq
  · exact ⟨n.natAbs, 0, hlt, by decide, by simp⟩
  · exact ⟨1, 53, by decide, by decide, by simp [heq]⟩

/-- Rounding keeps the first bit. -/
theorem two_pow_log2_le_nearest {n : Nat} (hn : n ≠ 0) (hlog : 52 ≤ n.log2) : 2 ^ n.log2 ≤ nearest n := by
  obtain ⟨e, he⟩ : ∃ e, n.log2 = e + 52 := ⟨n.log2 - 52, by omega⟩
  calc 2 ^ n.log2 = 2 ^ 52 * 2 ^ e := by rw [he, Nat.add_comm, Nat.pow_add]
    _ ≤ roundDiv n (2 ^ e) * 2 ^ e := Nat.mul_le_mul_right _ (roundDiv_bounds hn he).1
    _ = nearest n := (nearest_of_large he).symm

theorem ofRatio_one_of_le (negative : Bool) {n : Nat} (h : limit ≤ n) : ofRatio negative n 1 = .infinite negative := by
  have hlog : 1024 < n.log2 + 1 := by
    refine Nat.lt_of_not_le fun hle => ?_
    exact Nat.not_le.2 Nat.lt_log2_self ((two_pow_le_limit hle).trans h)
  have hn : n ≠ 0 := by
    rintro rfl
    simp at hlog
  have hbeyond : limit ≤ nearest n := by
    calc limit ≤ 2 ^ n.log2 := limit_le_two_pow_iff.2 (by omega)
      _ ≤ nearest n := two_pow_log2_le_nearest hn (by omega)
  rcases ofRatio_one negative n with ⟨hlt, -⟩ | ⟨-, hinf⟩
  · exact absurd hbeyond (Nat.not_le.2 hlt)
  · exact hinf

end Double

/-! ## Reading digits -/

open Text

variable {c : Char} {cs : List Char}

/-- A fact about the ten digits is a fact about every digit. -/
theorem Text.of_isDigit {p : Char → Bool} (hall : "0123456789".toList.all p = true) (h : c.isDigit = true) :
    p c = true := by
  obtain ⟨hlow, hhigh⟩ : 0x30 ≤ c.toNat ∧ c.toNat ≤ 0x39 := Char.isDigit_iff_toNat.1 h
  refine List.all_eq_true.1 hall c ?_
  rw [← Char.ofNat_toNat c]
  generalize c.toNat = n at hlow hhigh
  interval_cases n <;> decide

theorem Text.digitValue?_of_isDigit (h : c.isDigit = true) : digitValue? c = some (c.toNat - '0'.toNat) := by
  simpa using of_isDigit
    (by decide +kernel : "0123456789".toList.all (fun c => digitValue? c == some (c.toNat - '0'.toNat)) = true) h

theorem readDigitsFrom_of_isDigit (h : ∀ c ∈ cs, c.isDigit = true) (started : Bool) :
    readDigitsFrom started cs = (cs.map fun c => c.toNat - '0'.toNat, []) := by
  induction cs generalizing started with
  | nil => rfl
  | cons c cs ih =>
    have hc := h c List.mem_cons_self
    have hcs := ih (fun d hd => h d (List.mem_cons_of_mem c hd)) true
    simp [readDigitsFrom, digitValue?_of_isDigit hc, hcs]

theorem digitsToNat_map (cs : List Char) :
    digitsToNat (cs.map fun c => c.toNat - '0'.toNat) = Nat.ofDigitChars 10 cs 0 := by
  simp only [digitsToNat, List.foldl_map, Nat.ofDigitChars_eq_foldl, Nat.mul_comm]

theorem readDecimal?_of_isDigit (hne : cs ≠ []) (h : ∀ c ∈ cs, c.isDigit = true) :
    readDecimal? cs = some (⟨Nat.ofDigitChars 10 cs 0, 0⟩, []) := by
  have hread : readDigits cs = (cs.map fun c => c.toNat - '0'.toNat, []) := readDigitsFrom_of_isDigit h false
  simp only [readDecimal?, hread, List.append_nil, digitsToNat_map]
  simp [hne, readExponent]

theorem lower_ofList_of_isDigit (h : ∀ c ∈ cs, c.isDigit = true) : lower (String.ofList cs) = String.ofList cs := by
  refine lower_eq_self fun c hc => ?_
  rw [String.toList_ofList] at hc
  exact of_isDigit (by decide +kernel) (h c hc)

theorem isTrimmed_of_isDigit (negative : Bool) (h : ∀ c ∈ cs, c.isDigit = true) :
    IsTrimmed ((if negative then ['-'] else []) ++ cs) := by
  have hnot : ∀ c ∈ (if negative then ['-'] else []) ++ cs, isBlank c = false := by
    intro c hc
    rcases List.mem_append.1 hc with hsign | hc
    · cases negative with
      | false => cases hsign
      | true => rw [List.mem_singleton.1 hsign]; decide
    · simpa using of_isDigit (by decide +kernel : "0123456789".toList.all (fun c => !isBlank c) = true) (h c hc)
  exact ⟨fun c hc => hnot c (List.mem_of_mem_head? hc), fun c hc => hnot c (List.mem_of_mem_getLast? hc)⟩

theorem readSign_of_isDigit (negative : Bool) (h : ∀ c ∈ cs, c.isDigit = true) :
    readSign ((if negative then ['-'] else []) ++ cs) = (negative, cs) := by
  cases negative with
  | true => rfl
  | false =>
    cases cs with
    | nil => rfl
    | cons c rest =>
      have hc := h c List.mem_cons_self
      rw [if_neg Bool.false_ne_true, List.nil_append]
      unfold readSign
      split
      · rename_i heq
        cases heq
        cases hc
      · rename_i heq
        cases heq
        cases hc
      · rfl

theorem Double.ofText?_of_isDigit (negative : Bool) (hne : cs ≠ []) (h : ∀ c ∈ cs, c.isDigit = true) :
    Double.ofText? (String.ofList ((if negative then ['-'] else []) ++ cs)) =
      some ((Decimal.mk (Nat.ofDigitChars 10 cs 0) 0).clamped.toDouble negative) := by
  have hstrip := strip_eq_self (s := String.ofList ((if negative then ['-'] else []) ++ cs))
    (by rw [String.toList_ofList]; exact isTrimmed_of_isDigit negative h)
  -- a word such as inf does not start with a digit
  have hword : ∀ w : String, w.toList.head?.any Char.isDigit = false → String.ofList cs ≠ w := by
    rintro w hw rfl
    obtain ⟨c, rest, rfl⟩ := List.exists_cons_of_ne_nil hne
    simp [h c List.mem_cons_self] at hw
  simp only [Double.ofText?, hstrip, String.toList_ofList, readSign_of_isDigit negative h, lower_ofList_of_isDigit h,
    readDecimal?_of_isDigit hne h]
  split
  · rename_i heq
    exact absurd heq (hword "inf" (by decide))
  · rename_i heq
    exact absurd heq (hword "infinity" (by decide))
  · rename_i heq
    exact absurd heq (hword "nan" (by decide))
  · rfl

theorem Double.limit_le_of_wide {n : Nat} (h : 400 < (Nat.toDigits 10 n).length) : limit ≤ n := by
  have hlimit : limit ≤ Nat.pow 10 400 := by decide +kernel
  have hwidth : ∀ k, 0 < k → n < Nat.pow 10 k → (Nat.toDigits 10 n).length ≤ k := fun k hk =>
    (Nat.length_toDigits_le_iff (by decide) hk).2
  refine Nat.le_trans hlimit (Nat.le_of_not_lt fun hlt => ?_)
  exact Nat.not_le.2 h (hwidth 400 (by decide) hlt)

/-- A decimal is brought into range only where it is beyond the doubles anyway. -/
theorem Decimal.toDouble_clamped (negative : Bool) (n : Nat) :
    (Decimal.mk n 0).clamped.toDouble negative = Double.ofRatio negative n 1 := by
  unfold clamped
  dsimp only
  split
  · rename_i hzero
    rw [beq_iff_eq.1 hzero]
    rfl
  · split
    · rename_i hwidth
      have hwide : 400 < (Nat.toDigits 10 n).length := by omega
      rw [Double.ofRatio_one_of_le negative (Double.limit_le_of_wide hwide)]
      cases negative <;> decide +kernel
    · rw [if_neg (by omega)]
      exact congrArg (Double.ofRatio negative · 1) (Nat.mul_one n)

theorem toList_toString (n : Int) :
    (toString n).toList = (if decide (n < 0) then ['-'] else []) ++ Nat.toDigits 10 n.natAbs := by
  rw [Int.toString_eq_repr]
  cases n with
  | ofNat m =>
    have hneg : ¬ Int.ofNat m < 0 := Int.not_lt.2 (Int.natCast_nonneg m)
    rw [decide_eq_false hneg]
    exact (congrArg String.toList Nat.repr_eq_ofList_toDigits).trans String.toList_ofList
  | negSucc m =>
    have hneg : Int.negSucc m < 0 := Int.negSucc_lt_zero m
    have hrepr : (Int.negSucc m).repr = "-" ++ (m + 1).repr := rfl
    rw [decide_eq_true hneg, hrepr, Nat.repr_eq_ofList_toDigits]
    simp

theorem mem_toString {n : Int} (h : c ∈ (toString n).toList) : c = '-' ∨ c.isDigit = true := by
  rw [toList_toString, List.mem_append] at h
  rcases h with hsign | hdigit
  · split at hsign
    · exact .inl (List.mem_singleton.1 hsign)
    · cases hsign
  · exact .inr (Nat.isDigit_of_mem_toDigits (by decide) (by decide) hdigit)

theorem strip_toString (n : Int) : strip (toString n) = toString n := by
  refine strip_eq_self ?_
  rw [toList_toString]
  exact isTrimmed_of_isDigit _ fun c hc => Nat.isDigit_of_mem_toDigits (by decide) (by decide) hc

/-- The digits of a whole number are read as the double nearest to it. -/
theorem Double.ofText?_toString (n : Int) :
    Double.ofText? (toString n) = some (Double.ofRatio (decide (n < 0)) n.natAbs 1) := by
  have hdigits : ∀ c ∈ Nat.toDigits 10 n.natAbs, c.isDigit = true :=
    fun c hc => Nat.isDigit_of_mem_toDigits (by decide) (by decide) hc
  rw [← String.ofList_toList (s := toString n), toList_toString,
    Double.ofText?_of_isDigit _ Nat.toDigits_ne_nil hdigits,
    Nat.ofDigitChars_ten_toDigits, Decimal.toDouble_clamped]

end ApiSchema
