import ApiSchema.Text.Blank
import ApiSchema.Text.Case
import Mathlib.Data.List.Basic

/-!
# Lower case forms

A lower case form is its own lower case form wherever it stands, and a blank or a colon is the form of itself only
(`isFormOf_of_mem_lowerOf`). For the table of forms this is one comparison of two sets of code points, written as the
bits of two numbers (`forms_apart`).

So a text in lower case stays as it is (`lower_lower`), and in lower case a text has a colon only if it had one before
(`colon_not_mem_lower`).
-/
namespace ApiSchema.Text

/-! ## The table of forms -/

/-- A set of code points as the bits of a number. -/
def bitsOf (ns : List Nat) : Nat := ns.foldr (fun n bits => 1 <<< n ||| bits) 0

theorem testBit_bitsOf {ns : List Nat} {n : Nat} : (bitsOf ns).testBit n = true ↔ n ∈ ns := by
  induction ns with
  | nil => simp [bitsOf]
  | cons m ns ih =>
    have hcons : bitsOf (m :: ns) = 1 <<< m ||| bitsOf ns := rfl
    rw [hcons, Nat.testBit_or, Bool.or_eq_true, ih, Nat.one_shiftLeft, Nat.testBit_two_pow, List.mem_cons]
    simp [eq_comm]

namespace CaseRun

variable {r : CaseRun} {n : Nat}

/-- The code points of a run. -/
def members (r : CaseRun) : List Nat := List.range' r.first ((r.last - r.first) / r.step + 1) r.step

/-- The code point of the form of a member. -/
def formOf (r : CaseRun) (n : Nat) : Nat := ((n : Int) + r.shift).toNat

theorem mem_members (h : r.covers n = true) : n ∈ r.members := by
  simp only [covers, Bool.and_eq_true, decide_eq_true_eq, beq_iff_eq] at h
  obtain ⟨⟨hfirst, hlast⟩, hstep⟩ := h
  refine List.mem_range'.2 ⟨(n - r.first) / r.step, Nat.lt_succ_of_le (Nat.div_le_div_right (by omega)), ?_⟩
  rw [Nat.mul_div_cancel' (Nat.dvd_of_mod_eq_zero hstep)]
  omega

end CaseRun

/-- Blanks, the colon, and the character whose form has two characters. -/
def keptRuns : List CaseRun := [
  ⟨9, 13, 1, 0⟩, ⟨28, 32, 1, 0⟩, ⟨0x3A, 0x3A, 1, 0⟩, ⟨0x85, 0x85, 1, 0⟩, ⟨0xA0, 0xA0, 1, 0⟩, ⟨0x130, 0x130, 1, 0⟩,
  ⟨0x1680, 0x1680, 1, 0⟩, ⟨0x2000, 0x200A, 1, 0⟩, ⟨0x2028, 0x2029, 1, 0⟩, ⟨0x202F, 0x202F, 1, 0⟩,
  ⟨0x205F, 0x205F, 1, 0⟩, ⟨0x3000, 0x3000, 1, 0⟩]

/-- The forms in the table. -/
def forms : List Nat := lowerRuns.flatMap fun r => r.members.map r.formOf

/-- The characters that are no form in the table. -/
def formless : List Nat := (lowerRuns ++ keptRuns).flatMap CaseRun.members

theorem forms_apart : bitsOf forms &&& bitsOf formless = 0 := by
  decide +kernel

theorem not_mem_formless {n : Nat} (h : n ∈ forms) : n ∉ formless := by
  intro hn
  have hbit : (bitsOf forms &&& bitsOf formless).testBit n = true := by
    simp [testBit_bitsOf.2 h, testBit_bitsOf.2 hn]
  simp [forms_apart] at hbit

/-- The forms are characters, and none is before the small letters. -/
theorem isValidChar_of_mem_forms {n : Nat} (h : n ∈ forms) : 0x60 < n ∧ n.isValidChar := by
  have hall : (forms.all fun n => 0x60 < n && (n < 0xD800 || (0xDFFF < n && n < 0x110000))) = true := by decide +kernel
  simpa [Nat.isValidChar] using List.all_eq_true.1 hall n h

/-! ## Characters -/

/-- Whether a character is its own lower case form wherever it stands. -/
def isLowered (c : Char) : Bool := c.toNat != 0x3A3 && lowerOf c == [c]

/-- A form of a character: in lower case, and not a blank or a colon unless the character is. -/
def IsFormOf (c d : Char) : Prop :=
  isLowered d = true ∧ (d = c ∨ (isBlank d = false ∧ d ≠ ':'))

variable {c d : Char} {before cs : List Char}

theorem mem_formless_of_kept (h : isBlank c = true ∨ c = ':' ∨ c.toNat = 0x130) : c.toNat ∈ formless := by
  have hn : isBlank c = true ∨ c.toNat = 0x3A ∨ c.toNat = 0x130 := h.imp_right fun h => h.imp_left (congrArg _)
  have hkept : ∃ q ∈ keptRuns, q.covers c.toNat = true := by
    simp only [isBlank, Bool.or_eq_true, Bool.and_eq_true, decide_eq_true_eq, beq_iff_eq] at hn
    simp only [keptRuns, List.mem_cons, List.not_mem_nil, or_false, exists_eq_or_imp, exists_eq_left, CaseRun.covers,
      Nat.mod_one, beq_self_eq_true, and_true, Bool.and_eq_true, decide_eq_true_eq]
    omega
  obtain ⟨q, hq, hcovers⟩ := hkept
  exact List.mem_flatMap.2 ⟨q, List.mem_append_right _ hq, CaseRun.mem_members hcovers⟩

theorem toNat_ofNat {n : Nat} (h : n.isValidChar) : (Char.ofNat n).toNat = n := by
  rw [Char.ofNat, dif_pos h]
  rfl

/-- A test that every ASCII character passes. -/
theorem eq_true_of_ascii {p : Char → Bool} (hall : ((List.range 0x80).all fun n => p (Char.ofNat n)) = true)
    (h : c.toNat < 0x80) : p c = true := by
  have hc : p (Char.ofNat c.toNat) = true := List.all_eq_true.1 hall _ (List.mem_range.2 h)
  rwa [Char.ofNat_toNat] at hc

theorem toLower_of_small (h : 0x60 < c.toNat) : c.toLower = c := by
  have hlarge : ¬ ('A'.val ≤ c.val ∧ c.val ≤ 'Z'.val) := by
    rintro ⟨-, hle⟩
    have hle : c.toNat ≤ 0x5A := hle
    omega
  exact dif_neg hlarge

theorem mapByRuns_of_not_covers (h : ∀ r ∈ lowerRuns, r.covers c.toNat = false) : mapByRuns lowerRuns c = c := by
  have hnone : lowerRuns.find? (·.covers c.toNat) = none := by simpa using h
  rw [mapByRuns, hnone]

/-- A form in the table has no other form. -/
theorem isLowered_of_mem_forms (h : d.toNat ∈ forms) : isLowered d = true := by
  have hfree := not_mem_formless h
  have hruns : ∀ r ∈ lowerRuns, r.covers d.toNat = false := by
    intro r hr
    refine Bool.eq_false_iff.2 fun hcovers => hfree ?_
    exact List.mem_flatMap.2 ⟨r, List.mem_append_left _ hr, CaseRun.mem_members hcovers⟩
  have hsigma : d.toNat ≠ 0x3A3 := by
    intro heq
    have hmem : 0x3A3 ∈ lowerRuns.flatMap CaseRun.members := by decide +kernel
    exact hfree (by rw [heq, formless, List.flatMap_append]; exact List.mem_append_left _ hmem)
  have hdotted : d.toNat ≠ 0x130 := fun heq => hfree (mem_formless_of_kept (.inr (.inr heq)))
  have hself : lowerOf d = [d] := by
    unfold lowerOf
    split
    · rw [toLower_of_small (isValidChar_of_mem_forms h).1]
    · simp [hdotted, mapByRuns_of_not_covers hruns]
  simp [isLowered, hsigma, hself]

theorem isFormOf_mapByRuns (hc : 0x80 ≤ c.toNat) (hsigma : c.toNat ≠ 0x3A3) (hdotted : c.toNat ≠ 0x130) :
    IsFormOf c (mapByRuns lowerRuns c) := by
  cases hfind : lowerRuns.find? (·.covers c.toNat) with
  | none =>
    have hself : mapByRuns lowerRuns c = c := by rw [mapByRuns, hfind]
    rw [hself]
    exact ⟨by simp [isLowered, lowerOf, hsigma, hdotted, hself, Nat.not_lt.2 hc], .inl rfl⟩
  | some r =>
    have hcovers : r.covers c.toNat = true := by simpa using List.find?_some hfind
    have hmem : r.formOf c.toNat ∈ forms :=
      List.mem_flatMap.2 ⟨r, List.mem_of_find?_eq_some hfind, List.mem_map_of_mem (CaseRun.mem_members hcovers)⟩
    have hnat : (mapByRuns lowerRuns c).toNat = r.formOf c.toNat := by
      rw [mapByRuns, hfind]
      exact toNat_ofNat (isValidChar_of_mem_forms hmem).2
    rw [← hnat] at hmem
    have hfree := not_mem_formless hmem
    refine ⟨isLowered_of_mem_forms hmem, .inr ⟨?_, ?_⟩⟩
    · exact Bool.eq_false_iff.2 fun hblank => hfree (mem_formless_of_kept (.inl hblank))
    · exact fun hcolon => hfree (mem_formless_of_kept (.inr (.inl hcolon)))

theorem isFormOf_toLower (hc : c.toNat < 0x80) : IsFormOf c c.toLower := by
  have hall : ∀ n < 0x80, isLowered (Char.ofNat n).toLower = true ∧ ((Char.ofNat n).toLower = Char.ofNat n ∨
      (isBlank (Char.ofNat n).toLower = false ∧ (Char.ofNat n).toLower ≠ ':')) := by decide +kernel
  have h := hall c.toNat hc
  rwa [Char.ofNat_toNat] at h

/-- The form of a character is in lower case, and a blank or a colon is the form of itself only. -/
theorem isFormOf_of_mem_lowerOf (hsigma : c.toNat ≠ 0x3A3) (hd : d ∈ lowerOf c) : IsFormOf c d := by
  unfold lowerOf at hd
  split at hd
  · rw [List.mem_singleton.1 hd]
    exact isFormOf_toLower ‹_›
  · split at hd
    · have hpair : (['i', Char.ofNat 0x307].all fun d => isLowered d && !isBlank d && d != ':') = true := by
        decide +kernel
      have hform := List.all_eq_true.1 hpair d hd
      simp only [Bool.and_eq_true, Bool.not_eq_true', bne_iff_ne] at hform
      exact ⟨hform.1.1, .inr ⟨hform.1.2, hform.2⟩⟩
    · rename_i hascii hdotted
      rw [List.mem_singleton.1 hd]
      exact isFormOf_mapByRuns (Nat.not_lt.1 hascii) hsigma (by simpa using hdotted)

/-! ## Texts -/

theorem lowerFrom_cons (before : List Char) (c : Char) (rest : List Char) :
    lowerFrom before (c :: rest) = formAt before c rest ++ lowerFrom (c :: before) rest := rfl

theorem formAt_ne_nil (before : List Char) (c : Char) (rest : List Char) : formAt before c rest ≠ [] := by
  unfold formAt lowerOf
  repeat' split
  all_goals simp

theorem lowerFrom_ne_nil (before : List Char) (h : cs ≠ []) : lowerFrom before cs ≠ [] := by
  cases cs with
  | nil => exact absurd rfl h
  | cons c rest => simp [lowerFrom_cons, formAt_ne_nil]

theorem isFormOf_of_mem_formAt {rest : List Char} (hd : d ∈ formAt before c rest) : IsFormOf c d := by
  unfold formAt at hd
  split at hd
  · have hsigmas : ∀ final : Bool, isLowered (Char.ofNat (if final then 0x3C2 else 0x3C3)) = true ∧
        isBlank (Char.ofNat (if final then 0x3C2 else 0x3C3)) = false ∧
        Char.ofNat (if final then 0x3C2 else 0x3C3) ≠ ':' := by decide +kernel
    rw [List.mem_singleton.1 hd]
    exact ⟨(hsigmas _).1, .inr (hsigmas _).2⟩
  · rename_i hsigma
    exact isFormOf_of_mem_lowerOf (by simpa using hsigma) hd

theorem exists_isFormOf (hd : d ∈ lowerFrom before cs) : ∃ c ∈ cs, IsFormOf c d := by
  induction cs generalizing before with
  | nil => cases hd
  | cons c cs ih =>
    rw [lowerFrom_cons, List.mem_append] at hd
    rcases hd with hd | hd
    · exact ⟨c, List.mem_cons_self, isFormOf_of_mem_formAt hd⟩
    · obtain ⟨b, hb, hform⟩ := ih hd
      exact ⟨b, List.mem_cons_of_mem _ hb, hform⟩

/-- Characters in lower case stay as they are, whatever comes after them. -/
theorem lowerFrom_append (h : ∀ c ∈ cs, isLowered c = true) (rest : List Char) :
    lowerFrom before (cs ++ rest) = cs ++ lowerFrom (cs.reverse ++ before) rest := by
  induction cs generalizing before with
  | nil => rfl
  | cons c cs ih =>
    have hc := h c List.mem_cons_self
    simp only [isLowered, Bool.and_eq_true, bne_iff_ne, beq_iff_eq] at hc
    rw [List.cons_append, lowerFrom_cons, ih (List.forall_mem_cons.1 h).2, formAt, hc.2]
    simp [hc.1]

theorem lower_eq_self {s : String} (h : ∀ c ∈ s.toList, isLowered c = true) : lower s = s := by
  have happend : lowerFrom [] (s.toList ++ []) = _ := lowerFrom_append h []
  rw [List.append_nil] at happend
  rw [lower, happend]
  simp [lowerFrom]

theorem lower_lower (s : String) : lower (lower s) = lower s := by
  refine lower_eq_self fun d hd => ?_
  rw [lower, String.toList_ofList] at hd
  obtain ⟨c, -, hlowered, -⟩ := exists_isFormOf hd
  exact hlowered

theorem colon_not_mem_lower {s : String} (h : ':' ∉ s.toList) : ':' ∉ (lower s).toList := by
  intro hcolon
  rw [lower, String.toList_ofList] at hcolon
  obtain ⟨c, hc, -, hself | hother⟩ := exists_isFormOf hcolon
  · exact h (hself ▸ hc)
  · exact hother.2 rfl

end ApiSchema.Text
